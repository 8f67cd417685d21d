import Mathlib.Data.List.Induction
import Shrt.Lib.Deltas
import Shrt.Lib.KeyedLog
import Shrt.Store.Engine

/-!
# What replaying records does

One equation for each kind of record, and from them three views of a replay:
the rows follow a log of keyed assignments, a code that is live has no stray
hits, and a code whose last record is not a hit has none either.
-/

namespace Shrt.Store

open Shrt.Codec Shrt.Lib

/-- The part of an entry that a row carries. -/
structure Row where
  u : String
  a : Int64
  e : Int64
  i : Int32
  deriving DecidableEq, Repr

def Entry.row (e : Entry) : Row :=
  ⟨e.u, e.a, e.e, e.i⟩

/-- The assignment of rows that a record makes. -/
def recEvent : Rec → KeyedLog.Event String Row
  | .row c u a e i _ => .set c (some ⟨u, a, e, i.toInt32⟩)
  | .hit _ _ _ => .keep
  | .del c => .set c none

theorem recEvent_on_other {r : Rec} {k : String} (other : k ≠ r.code) :
    (recEvent r).on k = none := by
  cases r with
  | row c u a e i n => exact if_neg (Ne.symm other)
  | hit c d i => rfl
  | del c => exact if_neg (Ne.symm other)

def rowsOf (rs : List Rec) : KeyedLog.State String Row :=
  KeyedLog.run (fun _ => none) (rs.map recEvent)

theorem run_recs_append (m : KeyedLog.State String Row) (first second : List Rec) :
    KeyedLog.run m ((first ++ second).map recEvent) =
      KeyedLog.run (KeyedLog.run m (first.map recEvent)) (second.map recEvent) := by
  rw [List.map_append, KeyedLog.run_append]

/-- A row after these records was there before, or is of one of them. -/
theorem row_of_run {m : KeyedLog.State String Row} {rs : List Rec} {c : String} {row : Row}
    (found : KeyedLog.run m (rs.map recEvent) c = some row) :
    m c = some row ∨ ∃ r ∈ rs, recEvent r = .set c (some row) := by
  rcases KeyedLog.run_eq_some found with before | assigned
  · exact Or.inl before
  · exact Or.inr (List.mem_map.mp assigned)

/-- The row that a record assigns names the writer of the record. -/
theorem owner_of_event {k : Inst} {r : Rec} (own : r.Own k) {c : String} {row : Row}
    (event : recEvent r = .set c (some row)) : row.i = k.i32 := by
  cases r with
  | row c' u a e i n =>
      cases own
      cases event
      exact k.i64_toInt32
  | hit c' d i => cases event
  | del c' => cases event

def Index.rows (index : Index) : KeyedLog.State String Row :=
  fun c => (index.lookup c).map Entry.row

/-- Fold a list of records into a view. -/
def replay (env : Env) (inst : Inst) (v : View) (rs : List Rec) : View :=
  (rs.map Rec.op).foldl (apply env inst) v

section Fold

variable (env : Env) (inst : Inst)

@[simp] theorem replay_nil (v : View) : replay env inst v [] = v := rfl

theorem replay_append (v : View) (first second : List Rec) :
    replay env inst v (first ++ second) = replay env inst (replay env inst v first) second := by
  simp [replay]

theorem replay_cons (v : View) (r : Rec) (rs : List Rec) :
    replay env inst v (r :: rs) = replay env inst (apply env inst v r.op) rs := rfl

/-- Lines are folded as the operations they parse to. -/
theorem foldl_applyLine (ls : List Bytes) (v : View) :
    ls.foldl (applyLine env inst) v =
      (ls.filterMap parseOp).foldl (apply env inst) v := by
  induction ls generalizing v with
  | nil => rfl
  | cons l ls ih =>
      rw [List.foldl_cons, ih, applyLine]
      cases parsed : parseOp l with
      | none => rw [List.filterMap_cons_none parsed]
      | some o => rw [List.filterMap_cons_some parsed, List.foldl_cons]

/-- A file replays as the operations read from it. -/
theorem replayInto_ops (dir : Dir) (f : FileName) (v : View) :
    replayInto env inst dir f v = (readOps (dir.read f)).foldl (apply env inst) v := by
  rw [replayInto, foldl_applyLine, replayFile, readOps]

/-- A file of records replays as these records. -/
theorem replayInto_records {dir : Dir} {f : FileName} {rs : List Rec} (ok : AllOk rs)
    (bytes : dir.read f = logBytes rs) (v : View) :
    replayInto env inst dir f v = replay env inst v rs := by
  rw [replayInto_ops, bytes, readOps_logBytes ok, replay]

theorem replayInto_missing {dir : Dir} {f : FileName} (missing : dir f = none) (v : View) :
    replayInto env inst dir f v = v := by
  have bytes : dir.read f = logBytes [] := by simp [Dir.read, missing]
  rw [replayInto_records env inst allOk_nil bytes]
  rfl

/-! ## One equation for each kind of record -/

/-- The stray hits waiting for a code. -/
def View.waiting (v : View) (c : String) : StrayHit :=
  (v.stray.lookup c).getD ⟨0, 0⟩

theorem apply_row {c u : String} {a e i n : Int64} (ok : (Rec.row c u a e i n).Ok)
    (v : View) :
    apply env inst v (Rec.row c u a e i n).op =
      ⟨v.index.insert c
        { u := u, a := a, e := e, i := i.toInt32, h := n + (v.waiting c).t,
          oh := n + (v.waiting c).o }, v.stray.erase c⟩ := by
  have named : c ≠ "" := ok.nonempty
  by_cases never : e = 0 <;>
    simp [apply, Rec.op, named, never, View.waiting]

theorem apply_del {c : String} (ok : (Rec.del c).Ok) (v : View) :
    apply env inst v (Rec.del c).op = ⟨v.index.erase c, v.stray.erase c⟩ := by
  have named : c ≠ "" := ok.nonempty
  simp [apply, Rec.op, named]

theorem apply_hit_live {c : String} {d i : Int64} (ok : (Rec.hit c d i).Ok) {v : View}
    {ent : Entry} (found : v.index.lookup c = some ent) :
    apply env inst v (Rec.hit c d i).op =
      ⟨v.index.insert c
        { ent with
          h := ent.h + d
          oh := if inst.i64 == i then ent.oh + d else ent.oh }, v.stray⟩ := by
  have named : c ≠ "" := ok.nonempty
  simp [apply, Rec.op, named, found]

theorem apply_hit_stray {c : String} {d i : Int64} (ok : (Rec.hit c d i).Ok) {v : View}
    (missing : v.index.lookup c = none) :
    apply env inst v (Rec.hit c d i).op =
      ⟨v.index, (evict env v.stray).insert c
        ⟨(((evict env v.stray).lookup c).getD ⟨0, 0⟩).t + d,
          if inst.i64 == i then (((evict env v.stray).lookup c).getD ⟨0, 0⟩).o + d
          else (((evict env v.stray).lookup c).getD ⟨0, 0⟩).o⟩⟩ := by
  have named : c ≠ "" := ok.nonempty
  simp [apply, Rec.op, named, missing]

/-- Eviction only drops counts. -/
theorem lookup_evict (stray : StrayMap) (k : String) :
    (evict env stray).lookup k = stray.lookup k ∨ (evict env stray).lookup k = none := by
  unfold evict
  split
  · split
    · rename_i victim _
      rw [Map.lookup_erase_eq]
      split
      · exact Or.inr rfl
      · exact Or.inl rfl
    · exact Or.inl rfl
  · exact Or.inl rfl

theorem lookup_evict_of_none {stray : StrayMap} {k : String}
    (absent : stray.lookup k = none) : (evict env stray).lookup k = none := by
  rcases lookup_evict env stray k with h | h
  · rw [h, absent]
  · exact h

/-- A record leaves the entries of other codes alone. -/
theorem lookup_apply_other {r : Rec} (ok : r.Ok) {k : String} (other : k ≠ r.code)
    (v : View) : (apply env inst v r.op).index.lookup k = v.index.lookup k := by
  cases r with
  | row c u a e i n =>
      change k ≠ c at other
      rw [apply_row env inst ok, Map.lookup_insert_eq, if_neg other]
  | del c =>
      change k ≠ c at other
      rw [apply_del env inst ok, Map.lookup_erase_eq, if_neg other]
  | hit c d i =>
      change k ≠ c at other
      cases found : v.index.lookup c with
      | none => rw [apply_hit_stray env inst ok found]
      | some ent =>
          rw [apply_hit_live env inst ok found, Map.lookup_insert_eq, if_neg other]

theorem stray_apply_other {r : Rec} (ok : r.Ok) {k : String} (other : k ≠ r.code)
    {v : View} (absent : v.stray.lookup k = none) :
    (apply env inst v r.op).stray.lookup k = none := by
  cases r with
  | row c u a e i n =>
      rw [apply_row env inst ok, Map.lookup_erase_eq, absent, ite_self]
  | del c =>
      rw [apply_del env inst ok, Map.lookup_erase_eq, absent, ite_self]
  | hit c d i =>
      change k ≠ c at other
      cases found : v.index.lookup c with
      | none =>
          rw [apply_hit_stray env inst ok found, Map.lookup_insert_eq, if_neg other]
          exact lookup_evict_of_none env absent
      | some ent => rw [apply_hit_live env inst ok found]; exact absent

/-! ## Rows -/

theorem rows_apply {r : Rec} (ok : r.Ok) (v : View) :
    (apply env inst v r.op).index.rows = KeyedLog.step v.index.rows (recEvent r) := by
  funext k
  by_cases same : k = r.code
  · subst same
    cases r with
    | row c u a e i n =>
        simp [Index.rows, apply_row env inst ok, KeyedLog.step, recEvent, Rec.code,
          Entry.row]
    | del c =>
        simp [Index.rows, apply_del env inst ok, KeyedLog.step, recEvent, Rec.code]
    | hit c d i =>
        simp only [Index.rows, KeyedLog.step, recEvent, Rec.code]
        cases found : v.index.lookup c with
        | none => rw [apply_hit_stray env inst ok found, found]
        | some ent =>
            rw [apply_hit_live env inst ok found, Map.lookup_insert_eq, if_pos rfl]
            rfl
  · rw [KeyedLog.step_apply, recEvent_on_other same, Index.rows,
      lookup_apply_other env inst ok same]
    rfl

/-- The rows of a replay are the replay of the row assignments. -/
theorem rows_replay {rs : List Rec} (ok : AllOk rs) (v : View) :
    (replay env inst v rs).index.rows =
      KeyedLog.run v.index.rows (rs.map recEvent) := by
  induction rs generalizing v with
  | nil => rfl
  | cons r rs ih =>
      rw [replay_cons, ih (fun s hs => ok s (List.mem_cons_of_mem _ hs)),
        rows_apply env inst (ok r List.mem_cons_self)]
      rfl

/-! ## Stray hits -/

/-- A live code has no stray hits. -/
def View.Tidy (v : View) : Prop :=
  ∀ k, v.index.lookup k ≠ none → v.stray.lookup k = none

theorem tidy_empty : View.empty.Tidy := by
  intro k live
  exact absurd rfl live

theorem tidy_apply {v : View} (tidy : v.Tidy) {r : Rec} (ok : r.Ok) :
    (apply env inst v r.op).Tidy := by
  intro k live
  by_cases same : k = r.code
  · subst same
    cases r with
    | row c u a e i n =>
        rw [apply_row env inst ok, Map.lookup_erase_eq]
        exact if_pos rfl
    | del c =>
        rw [apply_del env inst ok, Map.lookup_erase_eq]
        exact if_pos rfl
    | hit c d i =>
        cases found : v.index.lookup c with
        | none =>
            rw [apply_hit_stray env inst ok found] at live
            exact absurd found live
        | some ent =>
            rw [apply_hit_live env inst ok found]
            exact tidy c (by simp [found])
  · rw [lookup_apply_other env inst ok same] at live
    exact stray_apply_other env inst ok same (tidy k live)

end Fold

def opAbout (c : String) (o : Op) : Bool :=
  o.c == c || o.h == c || o.x == c

def lastAbout (c : String) (ops : List Op) : Option Op :=
  ops.reverse.find? (opAbout c)

/-- The last operation that names the code counts hits of it. -/
def EndsInHit (c : String) (ops : List Op) : Prop :=
  ∃ o, lastAbout c ops = some o ∧ o.h = c

instance (c : String) (ops : List Op) : Decidable (EndsInHit c ops) :=
  decidable_of_iff ((lastAbout c ops).any fun o => o.h = c) (by
    cases found : lastAbout c ops <;> simp [EndsInHit, found])

theorem lastAbout_snoc (c : String) (ops : List Op) (o : Op) :
    lastAbout c (ops ++ [o]) = if opAbout c o then some o else lastAbout c ops := by
  rw [lastAbout, List.reverse_append, List.reverse_singleton, List.singleton_append,
    List.find?_cons]
  cases opAbout c o <;> rfl

theorem opAbout_op (r : Rec) {c : String} (plain : Plain c) :
    opAbout c r.op = true ↔ c = r.code := by
  have named : ¬ "" = c := fun h => plain.nonempty h.symm
  cases r <;> simp [opAbout, Rec.op, Rec.code, named] <;> exact eq_comm

/-! ## Batches of hits and of rows -/

def recHits (c : String) : Rec → Int64
  | .hit c' d _ => if c' = c then d else 0
  | _ => 0

def hitSum (c : String) (rs : List Rec) : Int64 :=
  (rs.map (recHits c)).sum

def OnlyHits (c : String) (rs : List Rec) : Prop :=
  ∀ r ∈ rs, r.code = c → ∃ d i, r = .hit c d i

@[simp] theorem hitSum_nil (c : String) : hitSum c [] = 0 := rfl

theorem hitSum_cons (c : String) (r : Rec) (rs : List Rec) :
    hitSum c (r :: rs) = recHits c r + hitSum c rs := by
  simp [hitSum]

theorem recHits_other {c : String} {r : Rec} (other : r.code ≠ c) : recHits c r = 0 := by
  cases r <;> simp_all [recHits, Rec.code]

/-- The entry that a snapshot row gives back: the own hits count as all. -/
def Entry.restored (e : Entry) : Entry :=
  { e with h := e.oh }

/-- Snapshot rows of distinct codes, folded into a view without stray hits. -/
theorem replay_snapshot (env : Env) (inst : Inst) {l : List (String × Entry)}
    (plain : ∀ ce ∈ l, Plain ce.1) (distinct : (l.map Prod.fst).Nodup) {v : View}
    (clean : v.stray = ∅) :
    (replay env inst v (l.map Inner.snapshotRow)).stray = ∅ ∧
    ∀ c, (replay env inst v (l.map Inner.snapshotRow)).index.lookup c =
      ((l.find? fun ce => ce.1 = c).map fun ce => ce.2.restored).or (v.index.lookup c) := by
  induction l generalizing v with
  | nil => exact ⟨clean, fun c => by simp⟩
  | cons ce l ih =>
      obtain ⟨absent, distinct⟩ := List.nodup_cons.mp distinct
      have ok : (Inner.snapshotRow ce).Ok := plain ce List.mem_cons_self
      have folded := apply_row env inst ok v
      have waiting : v.waiting ce.1 = ⟨0, 0⟩ := by
        simp [View.waiting, clean]
      have erased : v.stray.erase ce.1 = ∅ := by
        rw [clean]
        rfl
      rw [waiting, erased] at folded
      obtain ⟨strayTail, indexTail⟩ :=
        ih (fun x hx => plain x (List.mem_cons_of_mem _ hx)) distinct
          (v := apply env inst v (Inner.snapshotRow ce).op) (by
            rw [show (Inner.snapshotRow ce).op =
              (Rec.row ce.1 ce.2.u ce.2.a ce.2.e ce.2.i.toInt64 ce.2.oh).op from rfl, folded])
      rw [List.map_cons, replay_cons]
      refine ⟨strayTail, fun c => ?_⟩
      rw [indexTail c]
      rw [show (Inner.snapshotRow ce).op =
        (Rec.row ce.1 ce.2.u ce.2.a ce.2.e ce.2.i.toInt64 ce.2.oh).op from rfl, folded,
        Map.lookup_insert_eq, List.find?_cons]
      by_cases same : ce.1 = c
      · have later : l.find? (fun x => x.1 = c) = none := find?_key_eq_none (same ▸ absent)
        simp [later, same, Entry.restored]
      · simp [same, Ne.symm same]

end Shrt.Store
