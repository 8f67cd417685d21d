import Mathlib.Data.List.Basic
import Mathlib.Logic.Function.Basic
import Shrt.Lib.Runs
import Shrt.Store.Hearing

/-!
# Instances that share a directory

Any number of instances with distinct ids work on one directory.  A schedule
starts and stops them and makes calls on them in any order.  Every call other
than `compact` reads some sibling logs and then acts on the journal of its own
instance; the acts of each call are listed here once.
-/

namespace Shrt.Store

open Shrt.Codec Shrt.Lib Shrt.Lib.Utf8 Shrt.Lib.Framing

/-- The instance that marks its codes with the first byte of this code. -/
def ownerOf (c : String) : Option Inst :=
  (encode c).head?.bind alphaIdx

theorem alphaIdx_prefixByte (k : Inst) : alphaIdx (prefixByte k) = some k := by
  revert k
  decide +kernel

theorem ownerOf_genCode (k : Inst) (b : Suffix) : ownerOf (genCode k b) = some k := by
  rw [ownerOf, encode_genCode]
  exact alphaIdx_prefixByte k

/-- The instances that run, their directory, and the resolves that succeeded
and were counted, with the instance that served them. -/
structure Cluster where
  nodes : Inst → Option Inner
  dir : Dir
  served : List (Inst × String)

inductive ClusterStep where
  | boot (k : Inst) (env : Env)
  | stop (k : Inst) (env : Env)
  | call (k : Inst) (env : Env) (call : Call)

namespace Cluster

def start : Cluster :=
  ⟨fun _ => none, .empty, []⟩

/-- The code that a call resolves and counts. -/
def resolved (env : Env) (s : Inner) (dir : Dir) : Call → List String
  | .resolve code =>
      if env.trackHits && (s.resolve env dir code).1.isSome then [code] else []
  | _ => []

def step (c : Cluster) : ClusterStep → Cluster
  | .boot k env =>
      match c.nodes k with
      | some _ => c
      | none =>
          let opened := Inner.new env c.dir k false
          { c with nodes := Function.update c.nodes k (some opened.1), dir := opened.2 }
  | .stop k env =>
      match c.nodes k with
      | none => c
      | some s =>
          { c with nodes := Function.update c.nodes k none, dir := (s.close env c.dir).2 }
  | .call k env call =>
      match c.nodes k with
      | none => c
      | some s =>
          let w := (World.mk s c.dir).step (env, call)
          { nodes := Function.update c.nodes k (some w.store)
            dir := w.dir
            served := c.served ++ (resolved env s c.dir call).map fun code => (k, code) }

def run (c : Cluster) (schedule : List ClusterStep) : Cluster :=
  schedule.foldl step c

end Cluster

def Inner.callOrder (env : Env) (s : Inner) (dir : Dir) : Call → List Inst
  | .poll => if s.aof.isSome then s.pollOrder env dir else []
  | .resolve code =>
      if (s.index.lookup code).isSome then [] else s.tailOrder env dir code
  | _ => []

/-! ## What a call does -/

/-- The owner check that precedes a mutation. -/
def Journal.Checked (inst : Inst) (j : Journal) : Act → Prop
  | .amend c _ _ | .drop c => ∀ ent, j.index.lookup c = some ent → ent.i = inst.i32
  | _ => True

/-- One checked act of a kind that is allowed. -/
def Journal.Does (inst : Inst) (allow : Act → Prop) (j j' : Journal) : Prop :=
  ∃ act, Journal.Step inst j act j' ∧ j.Checked inst act ∧ allow act

/-- The acts that a call may consist of. -/
def Call.Acts (inst : Inst) : Call → Act → Prop
  | .shorten _ none _, .create c _ _ _ => ownerOf c = some inst
  | .shorten _ (some a) _, .create c _ _ _ => c = a.val
  | .shortenMany _ _, .create c _ _ _ => ownerOf c = some inst
  | .update code _ _ _, .amend c _ _ => c = code
  | .remove code, .drop c => c = code
  | .resolve code, .hit c => c = code
  | .flush, .drain _ => True
  | _, _ => False

def Act.CreatesIn (codes : List String) : Act → Prop
  | .create c _ _ _ => c ∈ codes
  | _ => True

/-- The acts of a call in a given state: it creates the codes that it returns. -/
def Call.ActsIn (env : Env) (w : World) (call : Call) (act : Act) : Prop :=
  call.Acts w.store.inst act ∧ act.CreatesIn (w.created (env, call))

/-- The calls that write records and read no logs. -/
def Call.logs : Call → Bool
  | .shorten _ _ _ | .shortenMany _ _ | .update _ _ _ _ | .remove _ | .flush => true
  | _ => false

section NodeCalls

variable {s : Inner} {dir : Dir} {front : Bytes} {snap old log buf : List Rec}

/-- A call that writes is a path of its acts, and creates the codes it returns. -/
theorem Holds.logsIn (holds : Holds ⟨s, dir⟩ front snap log buf) (env : Env) {call : Call}
    (logs : call.logs = true) :
    ExtendsBy (Journal.Does s.inst (call.ActsIn env ⟨s, dir⟩)) front snap old log buf ⟨s, dir⟩
      ((World.mk s dir).step (env, call)) := by
  cases call with
  | shorten url aliasCode ttl =>
      refine holds.shortenBy env url aliasCode ttl fun c now exp member plain fresh => ?_
      refine ⟨_, .create plain fresh url now exp, trivial, ?_, member⟩
      cases aliasCode with
      | some a =>
          simp only [World.created] at member
          split at member
          · cases member
          · exact List.mem_singleton.mp member
      | none =>
          simp only [World.created] at member
          obtain ⟨⟨c', rest⟩, drawn, rfl⟩ : ∃ fresh,
              Inner.freshCode s.inst s.index env.rng = some fresh ∧ fresh.1 = c := by
            simpa using member
          obtain ⟨-, b, -, rfl⟩ := freshCode_spec drawn
          exact ownerOf_genCode s.inst b
  | shortenMany urls ttl =>
      refine holds.shortenManyBy env urls ttl fun b url now exp index rs member fresh _ => ?_
      exact ⟨_, .create (plain_genCode _ b) fresh url now exp, trivial, ownerOf_genCode _ b,
        member⟩
  | update code url ttl hasTtl =>
      refine holds.updateBy env code url ttl hasTtl fun ent exp found mine => ?_
      refine ⟨_, .amend found url exp, fun ent' found' => ?_, rfl, trivial⟩
      cases found.symm.trans found'
      exact mine
  | remove code =>
      refine holds.removeBy env code fun ent found mine => ?_
      refine ⟨_, .drop found, fun ent' found' => ?_, rfl, trivial⟩
      cases found.symm.trans found'
      exact mine
  | flush => exact holds.flushBy env ⟨_, .drain env.dirtyOrder, trivial, trivial, trivial⟩
  | resolve code => cases logs
  | compact => cases logs
  | poll => cases logs
  | restart => cases logs

theorem Holds.logs (holds : Holds ⟨s, dir⟩ front snap log buf) (env : Env) {call : Call}
    (logs : call.logs = true) :
    ExtendsBy (Journal.Does s.inst (call.Acts s.inst)) front snap old log buf ⟨s, dir⟩
      ((World.mk s dir).step (env, call)) := by
  refine (holds.logsIn env logs).mono fun j j' does => ?_
  obtain ⟨act, step, checked, acts, -⟩ := does
  exact ⟨act, step, checked, acts⟩

theorem stray_logRaw (s : Inner) (dir : Dir) (bytes : Bytes) :
    (s.logRaw dir bytes).1.stray = s.stray := by
  unfold Inner.logRaw
  split
  · rfl
  · simp only []
    split
    · rfl
    · rfl

/-- A call that reads no logs leaves the stray hits alone. -/
theorem stray_logs (s : Inner) (dir : Dir) (env : Env) {call : Call} (logs : call.logs = true) :
    ((World.mk s dir).step (env, call)).store.stray = s.stray := by
  cases call with
  | shorten url aliasCode ttl =>
      simp only [World.step]
      cases result : s.shorten env dir url (aliasCode.map Subtype.val) ttl with
      | none => rfl
      | some outcome =>
          simp only [Inner.shorten] at result
          split at result
          · split at result
            · cases result
              rfl
            · cases result
              exact stray_logRaw _ _ _
          · obtain ⟨fresh, -, rfl⟩ := Option.map_eq_some_iff.mp result
            exact stray_logRaw _ _ _
  | shortenMany urls ttl =>
      simp only [World.step]
      cases result : s.shortenMany env dir urls ttl with
      | none => rfl
      | some outcome =>
          simp only [Inner.shortenMany] at result
          split at result
          · cases result
          · obtain ⟨done, -, rfl⟩ := Option.map_eq_some_iff.mp result
            exact stray_logRaw _ _ _
  | update code url ttl hasTtl =>
      simp only [World.step, Inner.update]
      split
      · rfl
      · split
        · rfl
        · rfl
  | remove code =>
      simp only [World.step, Inner.remove]
      split
      · rfl
      · split
        · rfl
        · rfl
  | flush =>
      simp only [World.step, Inner.flushLocked]
      split
      · rfl
      · rfl
  | resolve code => cases logs
  | compact => cases logs
  | poll => cases logs
  | restart => cases logs

theorem Holds.of_reads {s' : Inner} {env : Env} {js : List Inst}
    (holds : Holds ⟨s, dir⟩ front snap log buf) (reads : Reads env dir js s s') :
    Holds ⟨s', dir⟩ front snap log buf := by
  refine ⟨reads.closed.trans holds.opened, ?_, ?_, reads.aof.trans holds.queue⟩
  · rw [show (World.mk s' dir).store.inst = s.inst from reads.inst]
    exact holds.snapBytes
  · rw [show (World.mk s' dir).store.inst = s.inst from reads.inst]
    exact holds.logFile

/-- A poll only reads. -/
theorem Holds.poll (holds : Holds ⟨s, dir⟩ front snap log buf)
    (noSelf : s.readers.lookup s.inst = none) (env : Env) :
    ∃ s', (World.mk s dir).step (env, .poll) = ⟨s', dir⟩ ∧
      Reads env dir (s.callOrder env dir .poll) s s' := by
  have queue : s.aof = some ⟨logBytes buf⟩ := holds.queue
  refine ⟨_, rfl, ?_⟩
  simp only [Inner.pollTails, Inner.callOrder, queue, Option.isSome_some, if_true]
  exact reads_pollLocked env dir noSelf

/-- A resolve that has read what it reads, with the store `s'`, ends without a
hit, or counts one. -/
def Inner.EndsResolve (env : Env) (dir : Dir) (code : String) (s s' : Inner) : Prop :=
  (Cluster.resolved env s dir (.resolve code) = [] ∧
    (World.mk s dir).step (env, .resolve code) = ⟨s', dir⟩) ∨
  ∃ ent, Cluster.resolved env s dir (.resolve code) = [code] ∧
    s'.index.lookup code = some ent ∧
    (World.mk s dir).step (env, .resolve code) =
      ⟨{ s' with
          index := s'.index.insert code { ent with h := ent.h + 1, oh := ent.oh + 1 }
          dirty := s'.dirty.insert code ((s'.dirty.lookup code).getD 0 + 1) }, dir⟩

theorem endsResolve_found {env : Env} {code : String} {s' : Inner} {now : Int64} {ent : Entry}
    (found : s'.index.lookup code = some ent)
    (result : s.resolve env dir code =
      if Inner.live ent now then (some ent.u, s'.bump env code ent) else (none, s')) :
    Inner.EndsResolve env dir code s s' := by
  simp only [Inner.EndsResolve, Cluster.resolved, World.step, result]
  by_cases alive : Inner.live ent now = true
  · simp only [if_pos alive]
    by_cases counted : env.trackHits = true
    · right
      refine ⟨ent, by simp [counted], found, ?_⟩
      rw [Inner.bump, if_pos counted]
    · left
      refine ⟨by simp [counted], ?_⟩
      rw [Inner.bump, if_neg counted]
  · left
    rw [if_neg alive]
    exact ⟨by simp, rfl⟩

/-- A resolve reads on a miss, then counts the hit or does nothing more. -/
theorem Holds.resolve (holds : Holds ⟨s, dir⟩ front snap log buf)
    (noSelf : s.readers.lookup s.inst = none) (env : Env) (code : String) :
    ∃ s', Reads env dir (s.callOrder env dir (.resolve code)) s s' ∧
      Inner.EndsResolve env dir code s s' := by
  have queue : s.aof = some ⟨logBytes buf⟩ := holds.queue
  cases found : s.index.lookup code with
  | some ent =>
      have result : s.resolve env dir code = if Inner.live ent (env.clock 0) then
          (some ent.u, s.bump env code ent) else (none, s) := by
        rw [Inner.resolve, found]
      refine ⟨s, ?_, endsResolve_found found result⟩
      simp only [Inner.callOrder, found, Option.isSome_some, if_true]
      exact reads_nothing env dir noSelf
  | none =>
      refine ⟨s.tailMissed env dir code, ?_, ?_⟩
      · simp only [Inner.callOrder, found, Option.isSome_none, Bool.false_eq_true, if_false]
        exact reads_tailMissed env dir code noSelf
      · cases again : (s.tailMissed env dir code).index.lookup code with
        | some ent =>
            have result : s.resolve env dir code = if Inner.live ent (env.clock 3) then
                (some ent.u, (s.tailMissed env dir code).bump env code ent)
                else (none, s.tailMissed env dir code) := by
              simp only [Inner.resolve, found, queue, again]
            exact endsResolve_found again result
        | none =>
            left
            have result : s.resolve env dir code = (none, s.tailMissed env dir code) := by
              simp only [Inner.resolve, found, queue, again]
            simp [Cluster.resolved, World.step, result]

end NodeCalls

/-! ## Opening -/

/-- Opening a log that is there, or creating it, changes no contents. -/
theorem Dir.read_opened (dir : Dir) (i : Inst) (f : FileName) :
    (dir.write (.log i) (dir.read (.log i))).read f = dir.read f := by
  by_cases same : f = .log i
  · rw [same, Dir.read_write_same]
  · exact Dir.read_write_other same _ _

theorem shardFiles_opened (dir : Dir) (i : Inst) (bytes : Bytes) :
    shardFiles (dir.write (.log i) bytes) i = shardFiles dir i := by
  apply List.filter_congr
  intro k _
  by_cases own : k = i
  · simp [own]
  · rw [Dir.write_other (by simpa using own)]

theorem foldl_replayInto (env : Env) (inst : Inst) {dir : Dir} {snap : Inst → List Rec}
    (ok : ∀ j, AllOk (snap j)) (files : ∀ j, dir.read (.snap j) = logBytes (snap j))
    (fs : List Inst) (v : View) :
    fs.foldl (fun v f => replayInto env inst dir (.snap f) v) v =
      replay env inst v (fs.flatMap snap) := by
  induction fs generalizing v with
  | nil => rfl
  | cons f fs ih =>
      rw [List.foldl_cons, ih, replayInto_records env inst (ok f) (files f), List.flatMap_cons,
        replay_append]

/-- A store that opens replays its own records, then the snapshots of the
siblings that have a log. -/
theorem view_new (env : Env) {dir : Dir} {inst : Inst} {snap : Inst → List Rec} {log : List Rec}
    (okSnap : ∀ j, AllOk (snap j)) (okLog : AllOk log)
    (snapFiles : ∀ j, dir.read (.snap j) = logBytes (snap j))
    (logFile : dir.read (.log inst) = logBytes log) (locked : Bool) :
    (Inner.new env dir inst locked).1.view =
      replay env inst .empty (snap inst ++ log ++ (shardFiles dir inst).flatMap snap) := by
  let opened : Dir := dir.write (.log inst) (dir.read (.log inst))
  have snaps : ∀ j, opened.read (.snap j) = logBytes (snap j) := fun j => by
    rw [Dir.read_opened, snapFiles]
  have own : opened.read (.log inst) = logBytes log := by
    rw [Dir.read_opened, logFile]
  have loaded := congrArg Prod.fst (loadAll_eq env inst opened)
  rw [replayInto_records env inst (okSnap inst) (snaps inst),
    replayInto_records env inst okLog own, foldl_replayInto env inst okSnap snaps,
    shardFiles_opened, ← replay_append, ← replay_append, ← List.append_assoc] at loaded
  exact loaded

theorem lookup_readers_new (env : Env) (dir : Dir) (inst : Inst) (locked : Bool) :
    (Inner.new env dir inst locked).1.readers.lookup inst = none := by
  simp only [Inner.new, loadAll_eq]
  have unlisted : inst ∉ shardFiles (dir.write (.log inst) (dir.read (.log inst))) inst :=
    fun member => (mem_shardFiles.mp member).1 rfl
  generalize shardFiles _ inst = fs at unlisted
  have start : (∅ : Map Inst TailReader).lookup inst = none := rfl
  generalize (∅ : Map Inst TailReader) = readers at start
  induction fs generalizing readers with
  | nil => exact start
  | cons f fs ih =>
      rw [List.mem_cons, not_or] at unlisted
      refine ih unlisted.2 _ ?_
      rw [Map.lookup_insert_eq, if_neg unlisted.1]
      exact start

end Shrt.Store
