import Mathlib.Data.List.Basic
import Shrt.Kv.Fleet
import Shrt.Kv.Interleaved
import Shrt.Lib.Deferred

/-!
# The janitor among other calls

In the layout with bucket hashes every node sweeps: it scans for buckets, reads
the clock, scans every bucket for fields that are past their expiry, and at the
end deletes them one by one.  All calls of all nodes are cut at every command
and every reading of the clock.
-/

namespace Shrt.Kv

open Shrt.Codec Shrt.Lib Shrt.Lib.Utf8
open Shrt.Store (MutResult)
open Shrt.Store.Inner (expiry)

inductive TaskResult where
  | changed (result : MutResult)
  | created (code : Option String)
  | swept
  deriving DecidableEq, Repr

/-- How far a call has come.  Resolves, flushes and stats are served as in a
fleet that only counts. -/
inductive Task where
  | serving (stage : Stage)
  | creating (url : String) (aliasCode : Option String) (ttl : Int64)
  | drawing (inst : Inst) (aliasCode : Option String) (ttl : Int64) (row : Row)
  | updating (code : String) (change : Change)
  | loaded (code : String) (change : Change) (row : Row)
  | writing (code : String) (row : Row) (px : Int64)
  | removing (code : String)
  | clearing (code : String)
  | dropping (code : String)
  | scanning (keys : List Bytes)
  | timing (keys : List Bytes)
  | collecting (time : Int64) (keys : List Bytes) (dels : List (Bytes × Bytes))
  | deleting (dels : List (Bytes × Bytes))
  | finished (result : TaskResult)
  deriving DecidableEq

/-- What a step is given from outside: the time, the hit switch, an order of the
map of hits, random bytes, and what a scan returns, which may be its last. -/
structure Outside where
  now : Int64
  trackHits : Bool
  dirtyOrder : IterOrder String Int64
  buf : Suffix
  batch : List Bytes
  last : Bool

/-- A step at a time, whose scan returns a batch and is done. -/
def Outside.at (now : Int64) (batch : List Bytes) : Outside where
  now := now
  trackHits := true
  dirtyOrder := .stored _ _
  buf := default
  batch := batch
  last := true

def Outside.env (o : Outside) : KvEnv where
  clock _ := o.now
  evicts _ _ := false
  rng := [o.buf]
  trackHits := o.trackHits
  dirtyOrder := o.dirtyOrder

/-- The fields of a batch that the sweep will delete: rows past their expiry. -/
def deadIn (time : Int64) (kv : Redis) (b : Bytes) (batch : List Bytes) : List (Bytes × Bytes) :=
  (batch.filter fun f => !(encode "h:").isPrefixOf f &&
    ((kv.hget b f).bind decVal).any fun row => past row.e time).map fun f => (b, f)

/-- The code that a create tries. -/
def tried (inst : Inst) (aliasCode : Option String) (o : Outside) : String :=
  aliasCode.getD (genCode inst o.buf)

namespace KvStore

def perform (o : Outside) (s : KvStore) : Task → KvStore × Task
  | .serving stage =>
      let out := s.next (fun _ => 0) o.env stage
      (out.store, .serving out.stage)
  | .creating url aliasCode ttl =>
      (s, .drawing s.inst aliasCode ttl ⟨expiry o.now ttl, o.now, url⟩)
  | .drawing inst aliasCode ttl row =>
      let code := tried inst aliasCode o
      let done := s.setNx o.now code (encVal row.e row.c row.u) ttl
      (done.2,
        if done.1 then .finished (.created (some code))
        else if aliasCode.isSome then .finished (.created none)
        else .drawing inst aliasCode ttl row)
  | .updating code change =>
      (s, (s.row code).elim (.finished (.changed .missing)) (.loaded code change))
  | .loaded code change row =>
      let exp := if change.hasTtl then expiry o.now change.ttl else row.e
      let px := if exp > 0 then exp - o.now else 0
      (s, .writing code ⟨exp, row.c, change.url⟩ px)
  | .writing code row px => (s.setRow o.now code (encVal row.e row.c row.u) px, .dropping code)
  | .removing code =>
      let done := s.delRow code
      (done.2, if done.1 then .clearing code else .finished (.changed .missing))
  | .clearing code => (s.delHits code, .dropping code)
  | .dropping code => ({ s with cache := s.cache.remove code }, .finished (.changed .ok))
  | .scanning keys =>
      (s, if o.last then .timing (keys ++ o.batch) else .scanning (keys ++ o.batch))
  | .timing keys => (s, .collecting o.now keys [])
  | .collecting _ [] dels => (s, .deleting dels)
  | .collecting time (b :: keys) dels =>
      (s, .collecting time (if o.last then keys else b :: keys) (dels ++ deadIn time s.kv b o.batch))
  | .deleting [] => (s, .finished .swept)
  | .deleting (bf :: dels) => ({ s with kv := (s.kv.hdel bf.1 bf.2).2 }, .deleting dels)
  | .finished result => (s, .finished result)

/-- The row that a step writes, and its place. -/
def written (o : Outside) (s : KvStore) : Task → Option (Bytes × Bytes × Row)
  | .drawing inst aliasCode _ row =>
      let code := tried inst aliasCode o
      if (s.kvGet code).isNone then some (bkey code s.buckets, encode code, row) else none
  | .writing code row _ => some (bkey code s.buckets, encode code, row)
  | _ => none

end KvStore

/-- The fields that a sweep has found dead and not deleted yet. -/
def Task.dels : Task → List (Bytes × Bytes)
  | .collecting _ _ dels => dels
  | .deleting dels => dels
  | _ => []

/-- Nodes that share a server in the layout with bucket hashes, their calls, and
the time of the last step. -/
structure Crew where
  kv : Redis
  buckets : Buckets
  nodes : List KvNode
  tasks : List (Nat × Task)
  now : Int64

inductive CrewEvent where
  | start (node : Nat) (task : Task)
  | step (task : Nat) (outside : Outside)

/-- The calls that may start: one that is under way does not. -/
def Task.begins : Task → Bool
  | .serving (.resolving _) => true
  | .serving (.draining 0 []) => true
  | .serving (.reading _) => true
  | .creating _ _ _ => true
  | .updating _ _ => true
  | .removing _ => true
  | .scanning [] => true
  | _ => false

namespace Crew

def store (w : Crew) (n : KvNode) : KvStore :=
  ⟨w.kv, n.cache, n.dirty, n.inst, .hash, w.buckets⟩

/-- One event: a call starts, or one of the calls makes its next step. -/
def step (w : Crew) : CrewEvent → Crew
  | .start node task =>
      if task.begins then { w with tasks := w.tasks ++ [(node, task)] } else w
  | .step i o =>
      match w.tasks[i]? with
      | none => { w with now := o.now }
      | some (node, task) =>
          match w.nodes[node]? with
          | none => { w with now := o.now }
          | some n =>
              let out := (w.store n).perform o task
              { w with
                kv := out.1.kv
                nodes := w.nodes.set node out.1.node
                tasks := w.tasks.set i (node, out.2)
                now := o.now }

/-- Some sweep has found the field dead and not deleted it yet. -/
def marked (w : Crew) (place : Bytes × Bytes) : Bool :=
  w.tasks.any fun task => place ∈ task.2.dels

/-- The clock does not go back. -/
def forward (w : Crew) : CrewEvent → Bool
  | .step _ o => w.now ≤ o.now
  | _ => true

/-- No live row is written to a field that some sweep is about to delete. -/
def undisturbed (w : Crew) : CrewEvent → Bool
  | .step i o =>
      match w.tasks[i]? with
      | none => true
      | some (node, task) =>
          match w.nodes[node]? with
          | none => true
          | some n =>
              ((w.store n).written o task).all fun new =>
                !w.marked (new.1, new.2.1) || past new.2.2.e o.now
  | _ => true

/-- A field that the sweep deletes is a row past its expiry. -/
def SweepsDead (w : Crew) (event : CrewEvent) : Prop :=
  ∀ i o node b f dels v, event = .step i o → w.tasks[i]? = some (node, .deleting ((b, f) :: dels)) →
    w.kv.hget b f = some v → ∃ row, decVal v = some row ∧ row.e ≠ 0 ∧ row.e ≤ o.now

end Crew

/-! ## What a step does to the fields -/

namespace KvStore

variable {o : Outside} {s : KvStore}

/-- Serving writes nothing but counters. -/
theorem hget_next (made : String → Nat) (env : KvEnv) (s : KvStore) (hash : s.layout = .hash)
    (stage : Stage) {b f : Bytes} (row : ¬ encode "h:" <+: f) :
    (s.next made env stage).store.kv.hget b f = s.kv.hget b f := by
  cases stage with
  | answering code url =>
      simp only [next, bump]
      split
      · rfl
      · rfl
  | draining shard deltas =>
      simp only [next]
      split
      · rfl
      · rfl
  | sending deltas =>
      cases deltas with
      | nil => rfl
      | cons cn rest =>
          simp only [next, addHits, atStep, hash, Redis.hincrby, Redis.hget_hset]
          rw [if_neg]
          · rfl
          · rintro ⟨-, rfl⟩
            exact row (hits_prefix_hfield cn.1)
  | _ => rfl

theorem hget_setRow (hash : s.layout = .hash) (now : Int64) (code : String) (value : Bytes)
    (px : Int64) (b f : Bytes) :
    (s.setRow now code value px).kv.hget b f =
      if b = bkey code s.buckets ∧ f = encode code then some value else s.kv.hget b f := by
  simp only [setRow, hash, Redis.hget_hset]

/-- A field that is no counter is as it was, or gone, or was written. -/
theorem hget_perform (hash : s.layout = .hash) (task : Task) {b f v : Bytes}
    (row : ¬ encode "h:" <+: f) (there : (s.perform o task).1.kv.hget b f = some v) :
    s.kv.hget b f = some v ∨
      ∃ new, s.written o task = some (b, f, new) ∧ v = encVal new.e new.c new.u := by
  have overwritten : ∀ {code : String} {new : Row} {px : Int64},
      (s.setRow o.now code (encVal new.e new.c new.u) px).kv.hget b f = some v →
      s.kv.hget b f = some v ∨
        ((b, f) = (bkey code s.buckets, encode code) ∧ v = encVal new.e new.c new.u) := by
    intro code new px shown
    rw [hget_setRow hash] at shown
    split at shown
    · rename_i same
      cases shown
      exact Or.inr ⟨Prod.ext same.1 same.2, rfl⟩
    · exact Or.inl shown
  have deleted : ∀ {b' f'}, (s.kv.hdel b' f').2.hget b f = some v → s.kv.hget b f = some v := by
    intro b' f' shown
    rw [Redis.hget_hdel] at shown
    split at shown
    · cases shown
    · exact shown
  cases task with
  | serving stage => exact Or.inl ((hget_next _ _ s hash stage row).symm.trans there)
  | drawing inst aliasCode ttl new =>
      simp only [perform] at there
      cases fate : (s.setNx o.now (tried inst aliasCode o) (encVal new.e new.c new.u) ttl).1 with
      | true =>
          rw [setNx_free fate] at there
          refine (overwritten there).imp_right fun wrote => ⟨new, ?_, wrote.2⟩
          rw [fst_setNx] at fate
          cases wrote.1
          simp only [written, fate, if_true]
      | false =>
          rw [setNx_taken fate] at there
          exact Or.inl there
  | writing code new px =>
      refine (overwritten there).imp_right fun wrote => ⟨new, ?_, wrote.2⟩
      cases wrote.1
      rfl
  | removing code =>
      simp only [perform, delRow, hash] at there
      exact Or.inl (deleted there)
  | clearing code =>
      simp only [perform, delHits, hash] at there
      exact Or.inl (deleted there)
  | collecting time keys dels =>
      cases keys with
      | nil => exact Or.inl there
      | cons b' keys => exact Or.inl there
  | deleting dels =>
      cases dels with
      | nil => exact Or.inl there
      | cons bf dels => exact Or.inl (deleted there)
  | _ => exact Or.inl there

/-- The calls that are no sweeps mark nothing; a sweep goes from one phase to the
next. -/
theorem perform_cases (o : Outside) (s : KvStore) (task : Task) :
    ((s.perform o task).2.dels = [] ∧ ∀ time keys dels,
      (s.perform o task).2 ≠ .collecting time keys dels) ∨
    (∃ keys, task = .timing keys ∧ (s.perform o task).2 = .collecting o.now keys []) ∨
    (∃ time b keys dels, task = .collecting time (b :: keys) dels ∧
      (s.perform o task).2 = .collecting time (if o.last then keys else b :: keys)
        (dels ++ deadIn time s.kv b o.batch)) ∨
    (∃ dels, (s.perform o task).2 = .deleting dels ∧ ∀ bf ∈ dels, bf ∈ task.dels) := by
  cases task with
  | timing keys => exact Or.inr (Or.inl ⟨keys, rfl, rfl⟩)
  | collecting time keys dels =>
      cases keys with
      | nil => exact Or.inr (Or.inr (Or.inr ⟨dels, rfl, fun _ member => member⟩))
      | cons b keys => exact Or.inr (Or.inr (Or.inl ⟨time, b, keys, dels, rfl, rfl⟩))
  | deleting dels =>
      cases dels with
      | nil => exact Or.inl ⟨rfl, nofun⟩
      | cons bf dels =>
          exact Or.inr (Or.inr (Or.inr ⟨dels, rfl, fun _ member => List.mem_cons_of_mem _ member⟩))
  | drawing inst aliasCode ttl row =>
      left
      simp only [perform]
      split
      · exact ⟨rfl, nofun⟩
      · split
        · exact ⟨rfl, nofun⟩
        · exact ⟨rfl, nofun⟩
  | updating code change =>
      left
      simp only [perform]
      cases s.row code with
      | none => exact ⟨rfl, nofun⟩
      | some row => exact ⟨rfl, nofun⟩
  | removing code =>
      left
      simp only [perform]
      split
      · exact ⟨rfl, nofun⟩
      · exact ⟨rfl, nofun⟩
  | scanning keys =>
      left
      simp only [perform]
      split
      · exact ⟨rfl, nofun⟩
      · exact ⟨rfl, nofun⟩
  | _ => exact Or.inl ⟨rfl, nofun⟩

/-- A sweep marks a field only where it finds a row past its expiry. -/
theorem dels_perform {task : Task} {b f : Bytes} (listed : (b, f) ∈ (s.perform o task).2.dels) :
    (b, f) ∈ task.dels ∨ ∃ time keys dels v row, task = .collecting time keys dels ∧
      ¬ encode "h:" <+: f ∧ s.kv.hget b f = some v ∧ decVal v = some row ∧ past row.e time = true := by
  rcases perform_cases o s task with ⟨nothing, -⟩ | ⟨keys, -, next⟩ |
    ⟨time, b', keys, dels, rfl, next⟩ | ⟨dels, next, within⟩
  · rw [nothing] at listed
    cases listed
  · rw [next] at listed
    cases listed
  · rw [next] at listed
    rcases List.mem_append.mp listed with before | new
    · exact Or.inl before
    · right
      obtain ⟨f', chosen, same⟩ := List.mem_map.mp new
      cases same
      rw [List.mem_filter, Bool.and_eq_true, Bool.not_eq_true', Bool.eq_false_iff,
        Option.any_eq_true] at chosen
      obtain ⟨-, plain, row, decoded, gone⟩ := chosen
      obtain ⟨v, found, decoded⟩ := Option.bind_eq_some_iff.mp decoded
      exact ⟨time, _, dels, v, row, rfl, fun hits => plain (List.isPrefixOf_iff_prefix.mpr hits),
        found, decoded, gone⟩
  · rw [next] at listed
    exact Or.inl (within _ listed)

/-- A sweep has read the clock by the time of its step. -/
theorem time_perform {task : Task} {time : Int64} {keys : List Bytes} {dels : List (Bytes × Bytes)}
    (collects : (s.perform o task).2 = .collecting time keys dels) :
    time = o.now ∨ ∃ keys' dels', task = .collecting time keys' dels' := by
  rcases perform_cases o s task with ⟨-, never⟩ | ⟨keys', -, next⟩ |
    ⟨time', b', keys', dels', rfl, next⟩ | ⟨dels', next, -⟩
  · exact absurd collects (never _ _ _)
  · rw [next] at collects
    cases collects
    exact Or.inl rfl
  · rw [next] at collects
    cases collects
    exact Or.inr ⟨_, _, rfl⟩
  · rw [next] at collects
    cases collects

end KvStore

/-! ## Every interleaving -/

namespace Crew

/-- The fields of the server, with the deletions that are pending. -/
def sight : Deferred.Sight Crew (Bytes × Bytes) Bytes Int64 where
  cell w bf := w.kv.hget bf.1 bf.2
  pending w bf := w.marked bf = true
  dead now v := ∃ row, decVal v = some row ∧ past row.e now = true

/-- Whatever is about to be deleted is dead and no counter, and every sweep has
read the clock before. -/
structure Unharmed (w : Crew) : Prop where
  safe : Deferred.Safe sight w.now w
  rows : ∀ b f, w.marked (b, f) = true → ¬ encode "h:" <+: f
  times : ∀ node time keys dels, (node, .collecting time keys dels) ∈ w.tasks → time ≤ w.now

theorem marked_iff {w : Crew} {bf : Bytes × Bytes} :
    w.marked bf = true ↔ ∃ task ∈ w.tasks, bf ∈ task.2.dels := by
  simp [marked, List.any_eq_true]

theorem dels_begins {task : Task} (begins : task.begins = true) : task.dels = [] := by
  cases task with
  | collecting time keys dels => cases begins
  | deleting dels => cases begins
  | _ => rfl

theorem Unharmed.start {w : Crew} (unharmed : w.Unharmed) {node : Nat} {task : Task}
    (begins : task.begins = true) :
    Unharmed { w with tasks := w.tasks ++ [(node, task)] } := by
  have same : ∀ bf, marked { w with tasks := w.tasks ++ [(node, task)] } bf = true →
      w.marked bf = true := by
    intro bf mark
    obtain ⟨other, member, listed⟩ := marked_iff.mp mark
    rcases List.mem_append.mp member with earlier | new
    · exact marked_iff.mpr ⟨other, earlier, listed⟩
    · rw [List.mem_singleton.mp new, dels_begins begins] at listed
      cases listed
  refine ⟨fun bf mark => unharmed.safe bf (same bf mark), fun b f mark => unharmed.rows b f (same _ mark),
    fun node' time keys dels member => ?_⟩
  rcases List.mem_append.mp member with earlier | new
  · exact unharmed.times node' time keys dels earlier
  · cases List.mem_singleton.mp new
    cases begins

/-- Time passes. -/
theorem Unharmed.later {w : Crew} (unharmed : w.Unharmed) {now : Int64} (le : w.now ≤ now) :
    Unharmed { w with now := now } where
  safe bf mark v there := by
    obtain ⟨row, decoded, gone⟩ := unharmed.safe bf mark v there
    exact ⟨row, decoded, past_mono le gone⟩
  rows := unharmed.rows
  times node time keys dels member := Int64.le_trans (unharmed.times node time keys dels member) le

theorem Unharmed.performs {w : Crew} (unharmed : w.Unharmed) {i node : Nat} {o : Outside} {task : Task}
    {n : KvNode} (le : w.now ≤ o.now) (there : w.tasks[i]? = some (node, task))
    (fine : ((w.store n).written o task).all (fun new =>
      !w.marked (new.1, new.2.1) || past new.2.2.e o.now) = true) :
    let out := (w.store n).perform o task
    Unharmed { w with
      kv := out.1.kv
      nodes := w.nodes.set node out.1.node
      tasks := w.tasks.set i (node, out.2)
      now := o.now } := by
  intro out
  have listed := List.mem_of_getElem? there
  -- a field is newly marked only by a scan, which finds it dead and changes nothing
  have marks : ∀ b f, marked { w with tasks := w.tasks.set i (node, out.2) } (b, f) = true →
      w.marked (b, f) = true ∨ (¬ encode "h:" <+: f ∧ ∀ v, out.1.kv.hget b f = some v →
        ∃ row, decVal v = some row ∧ past row.e o.now = true) := by
    intro b f mark
    obtain ⟨other, member, within⟩ := marked_iff.mp mark
    rcases List.mem_or_eq_of_mem_set member with earlier | rfl
    · exact Or.inl (marked_iff.mpr ⟨other, earlier, within⟩)
    · rcases KvStore.dels_perform within with before | ⟨time, keys, dels, v, row, rfl, plain, found, decoded, gone⟩
      · exact Or.inl (marked_iff.mpr ⟨_, listed, before⟩)
      · refine Or.inr ⟨plain, fun v' there' => ?_⟩
        have same : out.1 = w.store n := by
          cases keys with
          | nil => rfl
          | cons b' keys => rfl
        rw [same] at there'
        have stored : w.kv.hget b f = some v' := there'
        have found' : w.kv.hget b f = some v := found
        rw [found'] at stored
        cases stored
        exact ⟨row, decoded, past_mono (Int64.le_trans (unharmed.times node _ _ _ listed) le) gone⟩
  have careful : Deferred.Careful sight o.now w { w with
      kv := out.1.kv
      nodes := w.nodes.set node out.1.node
      tasks := w.tasks.set i (node, out.2)
      now := o.now } := by
    refine ⟨fun bf v there' => ?_, fun bf mark => (marks bf.1 bf.2 mark).imp_right And.right⟩
    by_cases mark : w.marked bf = true
    · rcases KvStore.hget_perform rfl task (unharmed.rows bf.1 bf.2 mark) there' with
        same | ⟨new, wrote, rfl⟩
      · exact Or.inl same
      · rw [wrote] at fine
        have gone : past new.e o.now = true := by simpa [mark] using fine
        exact Or.inr (Or.inr ⟨new, decVal_encVal _ _ _, gone⟩)
    · exact Or.inr (Or.inl mark)
  refine ⟨unharmed.safe.step (fun le' v dead => ?_) le careful, fun b f mark => ?_,
    fun node' time keys dels member => ?_⟩
  · obtain ⟨row, decoded, gone⟩ := dead
    exact ⟨row, decoded, past_mono le' gone⟩
  · rcases marks b f mark with before | ⟨plain, -⟩
    · exact unharmed.rows b f before
    · exact plain
  · rcases List.mem_or_eq_of_mem_set member with earlier | new
    · exact Int64.le_trans (unharmed.times node' time keys dels earlier) le
    · have collects := (congrArg Prod.snd new).symm
      rcases KvStore.time_perform collects with rfl | ⟨keys', dels', rfl⟩
      · exact Int64.le_refl _
      · exact Int64.le_trans (unharmed.times node time _ _ listed) le

theorem Unharmed.step {w : Crew} (unharmed : w.Unharmed) {event : CrewEvent}
    (later : w.forward event = true) (fine : w.undisturbed event = true) :
    (w.step event).Unharmed := by
  cases event with
  | start node task =>
      rw [Crew.step]
      split
      · rename_i begins
        exact unharmed.start begins
      · exact unharmed
  | step i o =>
      have le : w.now ≤ o.now := by simpa [forward] using later
      rw [Crew.step]
      rw [undisturbed] at fine
      cases there : w.tasks[i]? with
      | none => exact unharmed.later le
      | some call =>
          obtain ⟨node, task⟩ := call
          simp only [there] at fine ⊢
          cases place : w.nodes[node]? with
          | none => exact unharmed.later le
          | some n =>
              simp only [place] at fine ⊢
              exact unharmed.performs le there fine

/-- At a deletion the field is dead. -/
theorem Unharmed.sweepsDead {w : Crew} (unharmed : w.Unharmed) {event : CrewEvent}
    (later : w.forward event = true) : w.SweepsDead event := by
  rintro i o node b f dels v rfl there stored
  have mark : w.marked (b, f) = true :=
    marked_iff.mpr ⟨_, List.mem_of_getElem? there, List.mem_cons_self⟩
  have le : w.now ≤ o.now := by simpa [forward] using later
  obtain ⟨row, decoded, gone⟩ := unharmed.safe (b, f) mark v stored
  have late := past_mono le gone
  simp only [past, Bool.and_eq_true, bne_iff_ne, ne_eq, decide_eq_true_eq] at late
  exact ⟨row, decoded, late⟩

/-- In every run in which no live row is written to a field that some sweep has
found dead and not deleted yet, a sweep deletes only rows past their expiry. -/
theorem janitor_spares_live_links (w : Crew) (idle : w.tasks = []) (events : List CrewEvent)
    (fine : Runs.Along step (fun w event => w.forward event = true ∧ w.undisturbed event = true) w
      events) : Runs.Along step SweepsDead w events := by
  have start : w.Unharmed := by
    refine ⟨fun bf mark => ?_, fun b f mark => ?_, fun node time keys dels member => ?_⟩
    · obtain ⟨task, member, -⟩ := marked_iff.mp mark
      rw [idle] at member
      cases member
    · obtain ⟨task, member, -⟩ := marked_iff.mp mark
      rw [idle] at member
      cases member
    · rw [idle] at member
      cases member
  exact fine.establish (fun w event unharmed fine =>
    ⟨unharmed.sweepsDead fine.1, unharmed.step fine.1 fine.2⟩) start

/-- Two nodes and a link that expires at 1010. -/
def aging : Crew :=
  let s := (KvStore.fresh 0 .hash eightBuckets 100 0).step
    (.at 1000 [], .shorten "https://a.example" (some promo) 10)
  { kv := s.kv, buckets := s.buckets, nodes := [s.node, s.node], tasks := [], now := 1000 }

/-- The first node finds the field dead, the second one removes the link and
creates it again; the first one deletes after that or before it. -/
def sweptAround (late : Bool) : List CrewEvent :=
  let b := bkey "promo" eightBuckets
  let create : List CrewEvent := [.step 2 (.at 1022 []), .step 2 (.at 1022 [])]
  [.start 0 (.scanning []), .step 0 (.at 1020 [b]), .step 0 (.at 1020 []),
    .step 0 (.at 1020 [encode "promo"]), .step 0 (.at 1020 []),
    .start 1 (.removing "promo"), .step 1 (.at 1021 []),
    .start 1 (.creating "https://b.example" (some "promo") 0)] ++
    (if late then create ++ [.step 0 (.at 1023 [])] else .step 0 (.at 1021 []) :: create)

/-- Before it, the new link stays. -/
theorem janitor_spares_live_links_before :
    let w := (sweptAround false).foldl step aging
    (w.kv.hget (bkey "promo" ⟨8, by decide⟩) (encode "promo")).isSome = true ∧
      Runs.Along step SweepsDead aging (sweptAround false) := by
  refine ⟨by decide +kernel, ?_⟩
  exact janitor_spares_live_links aging rfl (sweptAround false) (by decide +kernel)

/-- After it, a link that never expires is swept. -/
theorem live_link_swept :
    Runs.Along step (fun w event => w.forward event = true) aging (sweptAround true) ∧
      ¬ Runs.Along step SweepsDead aging (sweptAround true) := by
  refine ⟨by decide +kernel, fun along => ?_⟩
  have split : sweptAround true = (sweptAround true).take 10 ++ [.step 0 (.at 1023 [])] := rfl
  rw [split, Runs.Along.append] at along
  obtain ⟨row, decoded, nonzero, -⟩ := along.2.1 0 (.at 1023 []) 0 (bkey "promo" ⟨8, by decide⟩)
    (encode "promo") [] (encVal 0 1022 "https://b.example") rfl (by decide +kernel) (by decide +kernel)
  rw [decVal_encVal] at decoded
  cases decoded
  exact nonzero rfl

end Crew

end Shrt.Kv
