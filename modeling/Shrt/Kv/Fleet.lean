import Mathlib.Data.List.Basic
import Shrt.Kv.Hits
import Shrt.Lib.Ledger

/-!
# Many nodes counting hits

Any number of nodes share one server.  Their resolves, flushes and stats are cut
at every command to the server and every access to a map of their own, and run
in any order of these steps.  A flush empties one shard after the other and then
sends one increment per code.  Every hit is in one place at any time: in the
counter, in a flush that is under way, or in the map of a node.
-/

namespace Shrt.Kv

open Shrt.Codec Shrt.Lib
open Shrt.Store (Link)

/-- What a node keeps for itself. -/
structure KvNode where
  cache : Lru
  dirty : Map String Int64
  inst : Inst

inductive Stage where
  | resolving (code : String)
  | missed (code : String)
  | fetched (code : String) (row : Row)
  | answering (code url : String)
  | answered (url : Option String)
  | draining (shard : Nat) (deltas : List (String × Int64))
  | sending (deltas : List (String × Int64))
  | flushed
  | reading (code : String)
  | counting (code : String) (value : Option Bytes)
  | adding (code : String) (row : Row) (hits : Int64)
  | shown (code : String) (link : Option Link) (made : Nat)
  deriving DecidableEq

structure FleetCall where
  node : Nat
  stage : Stage
  deriving DecidableEq

/-- The server, the nodes, their calls, and the code of every resolve that was
answered while hits are tracked. -/
structure Fleet where
  kv : Redis
  layout : Layout
  buckets : Buckets
  nodes : List KvNode
  calls : List FleetCall
  served : List String

inductive FleetEvent where
  | resolve (node : Nat) (code : String)
  | flush (node : Nat)
  | stats (node : Nat) (code : String)
  | step (call : Nat) (env : KvEnv)

structure StageOut where
  store : KvStore
  stage : Stage
  served : List String

namespace KvStore

def node (s : KvStore) : KvNode := ⟨s.cache, s.dirty, s.inst⟩

def drainShard (env : KvEnv) (s : KvStore) (shard : Nat) : List (String × Int64) × KvStore :=
  let drained := (env.dirtyOrder.iter s.dirty).filter fun cn => shardOf cn.1 = shard
  (drained, { s with dirty := s.dirty.eraseAll (drained.map Prod.fst) })

/-- The next step of a call, when `made code` resolves of a code were answered.
The steps and times of a call are numbered as in the calls that run alone. -/
def next (made : String → Nat) (env : KvEnv) (s : KvStore) : Stage → StageOut
  | .resolving code =>
      let looked := s.cached env code
      ⟨{ s with cache := looked.2 },
        looked.1.elim (.missed code) fun hit => .answering code hit.1, []⟩
  | .missed code =>
      ⟨s.atStep env 2, (s.readRow env 2 3 code).elim (.answered none) (.fetched code), []⟩
  | .fetched code row =>
      ⟨{ s with cache := s.cache.put (env.clock 4) code row.u row.e }, .answering code row.u, []⟩
  | .answering code url =>
      ⟨s.bump env code, .answered (some url), if env.trackHits then [code] else []⟩
  | .draining shard deltas =>
      if shard < NUM_SHARDS then
        let drained := s.drainShard env shard
        ⟨drained.2, .draining (shard + 1) (deltas ++ drained.1), []⟩
      else ⟨s, .sending deltas, []⟩
  | .sending [] => ⟨s, .flushed, []⟩
  | .sending (cn :: deltas) => ⟨(s.atStep env 0).addHits cn.1 cn.2, .sending deltas, []⟩
  | .reading code =>
      let s := s.atStep env 0
      ⟨s, .counting code (s.kvGet code), []⟩
  | .counting code value =>
      let s := s.atStep env 1
      ⟨s, (value.bind decVal).elim (.shown code none (made code)) fun row =>
        .adding code row (hitCount (s.counter code)), []⟩
  | .adding code row hits =>
      ⟨s, .shown code (some (row.link code (hits + (s.dirty.lookup code).getD 0))) (made code), []⟩
  | .answered url => ⟨s, .answered url, []⟩
  | .flushed => ⟨s, .flushed, []⟩
  | .shown code link made => ⟨s, .shown code link made, []⟩

end KvStore

namespace Fleet

def store (f : Fleet) (n : KvNode) : KvStore :=
  ⟨f.kv, n.cache, n.dirty, n.inst, f.layout, f.buckets⟩

def advance (f : Fleet) (i node : Nat) (out : StageOut) : Fleet :=
  { f with
    kv := out.store.kv
    nodes := f.nodes.set node out.store.node
    calls := f.calls.set i ⟨node, out.stage⟩
    served := f.served ++ out.served }

/-- One event: a call starts, or one of the calls makes its next step. -/
def step (f : Fleet) : FleetEvent → Fleet
  | .resolve node code => { f with calls := f.calls ++ [⟨node, .resolving code⟩] }
  | .flush node => { f with calls := f.calls ++ [⟨node, .draining 0 []⟩] }
  | .stats node code => { f with calls := f.calls ++ [⟨node, .reading code⟩] }
  | .step i env =>
      match f.calls[i]? with
      | none => f
      | some call =>
          match f.nodes[call.node]? with
          | none => f
          | some n =>
              f.advance i call.node
                ((f.store n).next (fun code => f.served.count code) env call.stage)

def run (f : Fleet) (events : List FleetEvent) : Fleet :=
  events.foldl step f

end Fleet

/-! ## The calls that run alone -/

namespace KvStore

theorem resolve_stages (made : String → Nat) (env : KvEnv) (s : KvStore) (code : String) :
    let looked := s.next made env (.resolving code)
    let read := looked.store.next made env looked.stage
    let cached := read.store.next made env read.stage
    let last := cached.store.next made env cached.stage
    last.stage = .answered (s.resolve env code).1 ∧ last.store = (s.resolve env code).2 := by
  simp only [next, resolve]
  cases (s.cached env code).1 with
  | some hit => exact ⟨rfl, rfl⟩
  | none =>
      simp only [Option.elim_none]
      cases readRow { s with cache := (s.cached env code).2 } env 2 3 code with
      | none => exact ⟨rfl, rfl⟩
      | some row => exact ⟨rfl, rfl⟩

theorem stats_stages (made : String → Nat) (env : KvEnv) (s : KvStore) (code : String) :
    let read := s.next made env (.reading code)
    let counted := read.store.next made env read.stage
    let last := counted.store.next made env counted.stage
    last.stage = .shown code (s.stats env code).1 (made code) ∧ last.store = (s.stats env code).2 := by
  simp only [next, stats]
  cases ((s.atStep env 0).kvGet code).bind decVal with
  | none => exact ⟨rfl, rfl⟩
  | some row => exact ⟨rfl, rfl⟩

end KvStore

/-! ## Where the hits of a code are -/

def Stage.deltas : Stage → List (String × Int64)
  | .draining _ deltas => deltas
  | .sending deltas => deltas
  | _ => []

/-- What is known of the hits of a code that a call has read while the counter
is at `n`. -/
def Stage.Reads (c : String) (n : Nat) : Stage → Prop
  | .adding code _ hits => code = c → ∃ m ≤ n, hits = Int64.ofNat m
  | .shown code (some link) made => code = c → ∃ m ≤ made, link.hits = Int64.ofNat m
  | _ => True

/-- The hits of a code that a node and one of its calls see: those sent to the
counter, those held in the map of the node and those under way. -/
structure Sheet (c : String) (sent held moving : Nat) (s : KvStore) (stage : Stage) : Prop where
  numbered : s.Numbered
  counter : hitCount (s.counter c) = Int64.ofNat sent
  dirty : (s.dirty.lookup c).getD 0 = Int64.ofNat held
  deltas : Carries c stage.deltas moving
  reads : stage.Reads c sent

theorem Stage.Reads.mono {c : String} {n n' : Nat} {stage : Stage} (reads : stage.Reads c n)
    (le : n ≤ n') : stage.Reads c n' := by
  cases stage with
  | adding code row hits =>
      intro same
      obtain ⟨m, within, read⟩ := reads same
      exact ⟨m, within.trans le, read⟩
  | shown code link made =>
      cases link with
      | none => trivial
      | some link => exact reads
  | _ => trivial

theorem KvStore.Numbered.atStep {s : KvStore} (numbered : s.Numbered) (env : KvEnv) (t : Nat) :
    (s.atStep env t).Numbered :=
  ((numbered.tallies "").atStep env t).numbered

/-- What draining a shard does to the hits of a code: all of them or none. -/
theorem KvStore.drainShard_spec (env : KvEnv) (s : KvStore) (shard : Nat) {c : String} {n : Nat}
    (dirty : (s.dirty.lookup c).getD 0 = Int64.ofNat n) :
    let drained := s.drainShard env shard
    (Carries c drained.1 n ∧ (drained.2.dirty.lookup c).getD 0 = Int64.ofNat 0) ∨
      (Carries c drained.1 0 ∧ drained.2.dirty.lookup c = s.dirty.lookup c) := by
  intro drained
  have distinct : (drained.1.map Prod.fst).Nodup := env.dirtyOrder.nodup_keys_filter s.dirty _
  have left : drained.2.dirty.lookup c =
      if c ∈ drained.1.map Prod.fst then none else s.dirty.lookup c :=
    Map.lookup_eraseAll _ _ _
  by_cases listed : c ∈ drained.1.map Prod.fst
  · left
    obtain ⟨⟨c', d⟩, member, rfl⟩ := List.mem_map.mp listed
    have found : s.dirty.lookup c' = some d :=
      env.dirtyOrder.mem_iter_iff.mp (List.mem_filter.mp member).1
    rw [found, Option.getD_some] at dirty
    rw [if_pos listed] at left
    rw [dirty] at member
    exact ⟨.of_mem distinct member, by rw [left]; rfl⟩
  · right
    rw [if_neg listed] at left
    exact ⟨.of_absent listed, left⟩

namespace Sheet

variable {c : String} {sent held moving : Nat} {s s' : KvStore} {stage stage' : Stage}

/-- No hits of the code were moved. -/
theorem quiet (sheet : Sheet c sent held moving s stage) (numbered : s'.Numbered)
    (counter : s'.counter c = s.counter c) (dirty : s'.dirty = s.dirty)
    (deltas : stage'.deltas = stage.deltas) (reads : stage'.Reads c sent) :
    Sheet c sent held moving s' stage' where
  numbered := numbered
  counter := by
    rw [counter]
    exact sheet.counter
  dirty := by
    rw [dirty]
    exact sheet.dirty
  deltas := by
    rw [deltas]
    exact sheet.deltas
  reads := reads

theorem bump (sheet : Sheet c sent held moving s stage) (env : KvEnv) (code : String)
    (deltas : stage'.deltas = stage.deltas) (reads : stage'.Reads c sent) :
    Sheet c sent (held + (if env.trackHits then [code] else []).count c) moving (s.bump env code)
      stage' := by
  rw [KvStore.bump]
  cases env.trackHits with
  | false => exact sheet.quiet sheet.numbered rfl rfl deltas reads
  | true =>
      refine ⟨⟨sheet.numbered.lasting, sheet.numbered.numeric⟩, sheet.counter, ?_,
        deltas ▸ sheet.deltas, reads⟩
      simp only [if_true, Map.lookup_insert_eq]
      by_cases same : c = code
      · subst same
        rw [if_pos rfl, Option.getD_some, sheet.dirty, List.count_singleton_self, Int64.ofNat_add]
        rfl
      · rw [if_neg same, sheet.dirty, List.count_singleton, if_neg (by simpa using Ne.symm same),
          Nat.add_zero]

theorem drainShard (sheet : Sheet c sent held moving s stage) (env : KvEnv) (shard : Nat)
    (deltas : stage'.deltas = stage.deltas ++ (s.drainShard env shard).1)
    (reads : stage'.Reads c sent) :
    ∃ held' moving', Sheet c sent held' moving' (s.drainShard env shard).2 stage' ∧
      held' + moving' = held + moving := by
  have numbered : (s.drainShard env shard).2.Numbered :=
    ⟨sheet.numbered.lasting, sheet.numbered.numeric⟩
  rcases s.drainShard_spec env shard sheet.dirty with ⟨carried, empty⟩ | ⟨none, same⟩
  · refine ⟨0, moving + held, ⟨numbered, sheet.counter, empty, ?_, reads⟩, by omega⟩
    rw [deltas]
    exact sheet.deltas.append carried
  · refine ⟨held, moving + 0, ⟨numbered, sheet.counter, ?_, ?_, reads⟩, rfl⟩
    · rw [same]
      exact sheet.dirty
    · rw [deltas]
      exact sheet.deltas.append none

/-- The first delta is added to its counter. -/
theorem addHits {cn : String × Int64} {rest : List (String × Int64)}
    (sheet : Sheet c sent held moving s (.sending (cn :: rest))) :
    ∃ sent' moving', Sheet c sent' held moving' (s.addHits cn.1 cn.2) (.sending rest) ∧
      sent ≤ sent' ∧ sent' + moving' = sent + moving := by
  obtain ⟨first, later, sums, amount, carried⟩ := sheet.deltas.split
  have tallies : KvStore.Tallies c (Int64.ofNat sent) { s with dirty := ∅ } := by
    refine ⟨⟨sheet.numbered.lasting, sheet.numbered.numeric⟩, ?_⟩
    rw [← sheet.counter]
    exact Int64.add_zero _
  have added := tallies.addHits cn.1 cn.2
  rw [amount, ← Int64.ofNat_add] at added
  refine ⟨first + sent, later, ⟨?_, ?_, sheet.dirty, carried, trivial⟩, by omega, by omega⟩
  · exact ⟨added.numbered.lasting, added.numbered.numeric⟩
  · rw [← added.hits]
    exact (Int64.add_zero _).symm

end Sheet

/-- What a step of a call does with the hits of a code: it moves them, and adds
one for a resolve that it answers.  The counter does not shrink. -/
theorem Sheet.next {c : String} {sent held moving : Nat} {s : KvStore} {stage : Stage}
    (sheet : Sheet c sent held moving s stage) (made : String → Nat) (env : KvEnv)
    (within : sent + held ≤ made c) :
    let out := s.next made env stage
    ∃ sent' held' moving', Sheet c sent' held' moving' out.store out.stage ∧ sent ≤ sent' ∧
      sent' + held' + moving' = sent + held + moving + out.served.count c := by
  have evicted : ∀ t, (s.atStep env t).Numbered ∧ (s.atStep env t).counter c = s.counter c :=
    fun t => ⟨sheet.numbered.atStep env t, KvStore.counter_atStep sheet.numbered.lasting env t c⟩
  cases stage with
  | resolving code =>
      refine ⟨sent, held, moving, sheet.quiet ⟨sheet.numbered.lasting, sheet.numbered.numeric⟩ rfl rfl
        ?_ ?_, Nat.le_refl _, rfl⟩
      · simp only [KvStore.next]
        cases (s.cached env code).1 <;> rfl
      · simp only [KvStore.next]
        cases (s.cached env code).1 <;> trivial
  | missed code =>
      refine ⟨sent, held, moving, sheet.quiet (evicted 2).1 (evicted 2).2 rfl ?_ ?_, Nat.le_refl _, rfl⟩
      · simp only [KvStore.next]
        cases s.readRow env 2 3 code <;> rfl
      · simp only [KvStore.next]
        cases s.readRow env 2 3 code <;> trivial
  | fetched code row =>
      exact ⟨sent, held, moving, sheet.quiet ⟨sheet.numbered.lasting, sheet.numbered.numeric⟩ rfl rfl
        rfl trivial, Nat.le_refl _, rfl⟩
  | answering code url =>
      refine ⟨sent, _, moving, sheet.bump env code rfl trivial, Nat.le_refl _, ?_⟩
      simp only [KvStore.next]
      omega
  | draining shard deltas =>
      simp only [KvStore.next]
      split
      · obtain ⟨held', moving', drained, sums⟩ : ∃ held' moving', Sheet c sent held' moving'
            (s.drainShard env shard).2
            (.draining (shard + 1) (deltas ++ (s.drainShard env shard).1)) ∧
              held' + moving' = held + moving :=
          sheet.drainShard env shard rfl trivial
        exact ⟨sent, held', moving', drained, Nat.le_refl _, by simp; omega⟩
      · exact ⟨sent, held, moving, sheet.quiet sheet.numbered rfl rfl rfl trivial, Nat.le_refl _, rfl⟩
  | sending deltas =>
      cases deltas with
      | nil =>
          exact ⟨sent, held, moving, sheet.quiet sheet.numbered rfl rfl rfl trivial, Nat.le_refl _, rfl⟩
      | cons cn rest =>
          have read : Sheet c sent held moving (s.atStep env 0) (.sending (cn :: rest)) :=
            sheet.quiet (evicted 0).1 (evicted 0).2 rfl rfl trivial
          obtain ⟨sent', moving', added, grows, sums⟩ := read.addHits
          exact ⟨sent', held, moving', added, grows, by simp [KvStore.next]; omega⟩
  | reading code =>
      exact ⟨sent, held, moving, sheet.quiet (evicted 0).1 (evicted 0).2 rfl rfl trivial,
        Nat.le_refl _, rfl⟩
  | counting code value =>
      refine ⟨sent, held, moving, sheet.quiet (evicted 1).1 (evicted 1).2 rfl ?_ ?_, Nat.le_refl _, rfl⟩
      · simp only [KvStore.next]
        cases value.bind decVal <;> rfl
      · simp only [KvStore.next]
        cases value.bind decVal with
        | none => trivial
        | some row =>
            rintro rfl
            refine ⟨sent, Nat.le_refl _, ?_⟩
            rw [(evicted 1).2]
            exact sheet.counter
  | adding code row hits =>
      refine ⟨sent, held, moving, sheet.quiet sheet.numbered rfl rfl rfl ?_, Nat.le_refl _, rfl⟩
      rintro rfl
      obtain ⟨m, least, read⟩ := sheet.reads rfl
      refine ⟨m + held, by omega, ?_⟩
      rw [Int64.ofNat_add, ← read, ← sheet.dirty]
      rfl
  | answered url =>
      exact ⟨sent, held, moving, sheet, Nat.le_refl _, rfl⟩
  | flushed =>
      exact ⟨sent, held, moving, sheet, Nat.le_refl _, rfl⟩
  | shown code link made =>
      exact ⟨sent, held, moving, sheet, Nat.le_refl _, rfl⟩

/-- A step stays in its layout. -/
theorem KvStore.next_layout (made : String → Nat) (env : KvEnv) (s : KvStore) (stage : Stage) :
    (s.next made env stage).store.layout = s.layout ∧
      (s.next made env stage).store.buckets = s.buckets := by
  cases stage with
  | answering code url =>
      simp only [next, bump]
      split
      · exact ⟨rfl, rfl⟩
      · exact ⟨rfl, rfl⟩
  | draining shard deltas =>
      simp only [next]
      split
      · exact ⟨rfl, rfl⟩
      · exact ⟨rfl, rfl⟩
  | sending deltas =>
      cases deltas with
      | nil => exact ⟨rfl, rfl⟩
      | cons cn rest => exact ⟨rfl, rfl⟩
  | _ => exact ⟨rfl, rfl⟩

/-! ## The whole fleet -/

/-- A node without hits. -/
def KvNode.idle : KvNode := ⟨.new 1 0, ∅, 0⟩

namespace Fleet

def counter (f : Fleet) (code : String) : Option Bytes :=
  (f.store .idle).counter code

/-- The hits of a code all over the fleet: `sent` in the counter, the others as
the two ledgers say in the nodes and under way. -/
structure Books (c : String) (f : Fleet) (sent : Nat) (held moving : List Nat) : Prop where
  numbered : (f.store .idle).Numbered
  counter : hitCount (f.counter c) = Int64.ofNat sent
  nodes : List.Forall₂ (fun n held => (n.dirty.lookup c).getD 0 = Int64.ofNat held) f.nodes held
  calls : List.Forall₂ (fun call moving => Carries c call.stage.deltas moving) f.calls moving
  reads : ∀ call ∈ f.calls, call.stage.Reads c sent
  balance : sent + held.sum + moving.sum = f.served.count c

/-- The hits of the code are accounted for. -/
def Balanced (c : String) (f : Fleet) : Prop :=
  ∃ sent held moving, Books c f sent held moving

/-- The counters that a store of the same layout sees. -/
theorem counter_eq {f : Fleet} {s : KvStore} (kv : f.kv = s.kv) (layout : f.layout = s.layout)
    (buckets : f.buckets = s.buckets) (code : String) : f.counter code = s.counter code := by
  simp only [counter, KvStore.counter, store, kv, layout, buckets]

theorem Balanced.started {c : String} {f : Fleet} (balanced : f.Balanced c) {call : FleetCall}
    (deltas : call.stage.deltas = []) (reads : ∀ n, call.stage.Reads c n) :
    Balanced c { f with calls := f.calls ++ [call] } := by
  obtain ⟨sent, held, moving, books⟩ := balanced
  obtain ⟨calls, sums⟩ := Ledger.extend books.calls (a := call) (by rw [deltas]; exact .nil)
  refine ⟨sent, held, moving ++ [0], books.numbered, books.counter, books.nodes, calls, ?_, ?_⟩
  · intro other member
    rcases List.mem_append.mp member with earlier | new
    · exact books.reads other earlier
    · rw [List.mem_singleton.mp new]
      exact reads sent
  · rw [sums]
    exact books.balance

/-- A step that keeps the sheet of its call and its node keeps the books. -/
theorem Books.advance {c : String} {f : Fleet} {sent : Nat} {helds movings : List Nat}
    (books : Books c f sent helds movings) {i : Nat} {call : FleetCall} {n : KvNode}
    (there : f.calls[i]? = some call) (place : f.nodes[call.node]? = some n) {out : StageOut}
    (layout : out.store.layout = f.layout ∧ out.store.buckets = f.buckets)
    (moves : ∀ held moving, sent + held ≤ f.served.count c →
      Sheet c sent held moving (f.store n) call.stage →
      ∃ sent' held' moving', Sheet c sent' held' moving' out.store out.stage ∧ sent ≤ sent' ∧
        sent' + held' + moving' = sent + held + moving + out.served.count c) :
    (f.advance i call.node out).Balanced c := by
  obtain ⟨held, kept, heldLe, heldNext⟩ := Ledger.exchange books.nodes place
  obtain ⟨moving, flow, movingLe, movingNext⟩ := Ledger.exchange books.calls there
  have sheet : Sheet c sent held moving (f.store n) call.stage :=
    ⟨⟨books.numbered.lasting, books.numbered.numeric⟩, books.counter, kept, flow,
      books.reads call (List.mem_of_getElem? there)⟩
  have balance := books.balance
  obtain ⟨sent', held', moving', after, grows, sums⟩ := moves held moving (by omega) sheet
  obtain ⟨helds', nodes, heldSum⟩ := heldNext out.store.node held' after.dirty
  obtain ⟨movings', calls, movingSum⟩ := movingNext ⟨call.node, out.stage⟩ moving' after.deltas
  have same := (f.advance i call.node out).counter_eq rfl layout.1.symm layout.2.symm
  refine ⟨sent', helds', movings', ⟨after.numbered.lasting, fun code v found => ?_⟩, ?_, nodes,
    calls, fun other member => ?_, ?_⟩
  · exact after.numbered.numeric code v ((same code).symm.trans found)
  · exact (congrArg hitCount (same c)).trans after.counter
  · rcases List.mem_or_eq_of_mem_set member with earlier | rfl
    · exact (books.reads other earlier).mono grows
    · exact after.reads
  · rw [Fleet.advance, List.count_append]
    omega

theorem Balanced.step {c : String} {f : Fleet} (balanced : f.Balanced c) (event : FleetEvent) :
    (f.step event).Balanced c := by
  cases event with
  | resolve node code => exact balanced.started rfl fun _ => trivial
  | flush node => exact balanced.started rfl fun _ => trivial
  | stats node code => exact balanced.started rfl fun _ => trivial
  | step i env =>
      rw [Fleet.step]
      cases there : f.calls[i]? with
      | none => exact balanced
      | some call =>
          cases place : f.nodes[call.node]? with
          | none =>
              simp only [place]
              exact balanced
          | some n =>
              simp only [place]
              obtain ⟨sent, helds, movings, books⟩ := balanced
              exact books.advance there place (KvStore.next_layout _ env (f.store n) call.stage)
                fun held moving within sheet => sheet.next _ env within

/-- No hits of the code were counted yet, and no call is under way. -/
structure Uncounted (c : String) (f : Fleet) : Prop where
  numbered : (f.store .idle).Numbered
  counter : f.counter c = none
  nodes : ∀ n ∈ f.nodes, n.dirty.lookup c = none
  calls : f.calls = []
  served : f.served = []

theorem Uncounted.balanced {c : String} {f : Fleet} (uncounted : f.Uncounted c) : f.Balanced c := by
  obtain ⟨held, nodes, sums⟩ : ∃ held, List.Forall₂
      (fun (n : KvNode) held => (n.dirty.lookup c).getD 0 = Int64.ofNat held) f.nodes held ∧
        held.sum = 0 :=
    Ledger.zeros fun n member => by
      rw [uncounted.nodes n member]
      rfl
  refine ⟨0, held, [], uncounted.numbered, ?_, nodes, ?_, ?_, ?_⟩
  · rw [uncounted.counter]
    rfl
  · rw [uncounted.calls]
    exact .nil
  · rw [uncounted.calls]
    exact fun _ member => absurd member List.not_mem_nil
  · rw [sums, uncounted.served]
    rfl

/-- At any time the hits in the counter, under way and in the nodes are all
resolves that were answered, and no stats has ever shown more. -/
theorem hits_accounted {c : String} {f : Fleet} (uncounted : f.Uncounted c)
    (events : List FleetEvent) :
    let f := f.run events
    hitCount (f.counter c) + (f.calls.map fun call => deltaSum c call.stage.deltas).sum +
        (f.nodes.map fun n => (n.dirty.lookup c).getD 0).sum = Int64.ofNat (f.served.count c) ∧
      ∀ node link made, ⟨node, .shown c (some link) made⟩ ∈ f.calls →
        ∃ m ≤ made, link.hits = Int64.ofNat m := by
  obtain ⟨sent, held, moving, books⟩ : (f.run events).Balanced c :=
    Runs.invariant (fun _ event balanced => balanced.step event) uncounted.balanced events
  have nodes := Ledger.sum_map countHom books.nodes
  have calls := Ledger.sum_map countHom (books.calls.imp fun call n carries => carries.sum)
  constructor
  · rw [books.counter, nodes, calls, ← books.balance, Nat.add_right_comm, Int64.ofNat_add,
      Int64.ofNat_add]
    rfl
  · intro node link made member
    exact books.reads _ member rfl

/-- Two nodes share the server of a store. -/
def pair (s : KvStore) : Fleet where
  kv := s.kv
  layout := s.layout
  buckets := s.buckets
  nodes := [s.node, s.node]
  calls := []
  served := []

theorem uncounted_pair {s : KvStore} {c : String} (numbered : s.Numbered)
    (counter : s.counter c = none) (dirty : s.dirty.lookup c = none) : (pair s).Uncounted c where
  numbered := ⟨numbered.lasting, numbered.numeric⟩
  counter := counter
  nodes n member := by
    simp only [pair, List.mem_cons, List.not_mem_nil, or_false, or_self] at member
    rw [member]
    exact dirty
  calls := rfl
  served := rfl

def withLink (layout : Layout) : KvStore :=
  (KvStore.fresh 0 layout eightBuckets 100 0).step
    (.at 1000 [], .shorten "https://a.example" (some promo) 0)

/-- Both nodes resolve the link; the first one flushes up to the point where it
sends, and the second one is asked for its stats. -/
def caughtFlushing : List FleetEvent :=
  let steps (i n : Nat) : List FleetEvent := List.replicate n (.step i (.at 1001 []))
  .resolve 0 "promo" :: steps 0 4 ++ .resolve 1 "promo" :: steps 1 4 ++ .flush 0 :: steps 2 257 ++
    .stats 1 "promo" :: steps 3 3

/-- One hit is under way, one is in the second node, and the stats show that
one. -/
theorem hits_accounted_caughtFlushing :
    let f := (pair (withLink .hash)).run caughtFlushing
    f.served.count "promo" = 2 ∧
      f.calls.map (fun call => deltaSum "promo" call.stage.deltas) = [0, 0, 1, 0] ∧
      hitCount (f.counter "promo") + (f.calls.map fun call => deltaSum "promo" call.stage.deltas).sum +
          (f.nodes.map fun n => (n.dirty.lookup "promo").getD 0).sum =
        Int64.ofNat (f.served.count "promo") ∧
      ∀ node link made, ⟨node, .shown "promo" (some link) made⟩ ∈ f.calls →
        ∃ m ≤ made, link.hits = Int64.ofNat m := by
  refine ⟨by decide +kernel, by decide +kernel, ?_⟩
  have numbered : (withLink .hash).Numbered := (KvStore.numbered_fresh _ _ _ _ _).step trivial
  exact hits_accounted (uncounted_pair numbered (by decide +kernel) (by decide +kernel)) caughtFlushing

end Fleet

end Shrt.Kv
