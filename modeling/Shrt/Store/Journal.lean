import Mathlib.Data.List.Basic
import Mathlib.Logic.Relation
import Shrt.Store.Track

/-!
# A store as an index and a list of records

Seen from far enough, a store that is alone in its directory is an index, the
hit counts not yet logged, and the list of everything written so far, wherever
those records lie: in the snapshot, in the log, or still in the queue.  This
module says what the acts of a store do at that level and which facts about
the records survive them.
-/

namespace Shrt.Store

open Shrt.Codec Shrt.Lib

structure Journal where
  index : Index
  dirty : Dirty
  recs : List Rec

def hitRecs (inst : Inst) (counts : List (String × Int64)) : List Rec :=
  counts.map fun kd => .hit kd.1 kd.2 inst.i64

def snapshotOf (inst : Inst) (entries : List (String × Entry)) : List Rec :=
  (entries.filter fun ce => ce.2.i == inst.i32).map Inner.snapshotRow

inductive Act where
  | create (c url : String) (now exp : Int64)
  | amend (c url : String) (exp : Int64)
  | drop (c : String)
  | hit (c : String)
  | drain (ord : IterOrder String Int64)
  | snapshot (ord : IterOrder String Entry)
  | restart (env : Env)

namespace Journal

/-- The acts of one instance. -/
inductive Step (inst : Inst) (j : Journal) : Act → Journal → Prop where
  | create {c : String} (plain : Plain c) (fresh : j.index.lookup c = none)
      (url : String) (now exp : Int64) :
      Step inst j (.create c url now exp)
        ⟨j.index.insert c ⟨url, now, exp, inst.i32, 0, 0⟩, j.dirty,
          j.recs ++ [.row c url now exp inst.i64 0]⟩
  | amend {c : String} {ent : Entry} (found : j.index.lookup c = some ent)
      (url : String) (exp : Int64) :
      Step inst j (.amend c url exp)
        ⟨j.index.insert c { ent with u := url, e := exp }, j.dirty,
          j.recs ++ [.row c url ent.a exp inst.i64 0]⟩
  | drop {c : String} {ent : Entry} (found : j.index.lookup c = some ent) :
      Step inst j (.drop c) ⟨j.index.erase c, j.dirty, j.recs ++ [.del c]⟩
  | hit {c : String} {ent : Entry} (found : j.index.lookup c = some ent) :
      Step inst j (.hit c)
        ⟨j.index.insert c { ent with h := ent.h + 1, oh := ent.oh + 1 },
          j.dirty.insert c ((j.dirty.lookup c).getD 0 + 1), j.recs⟩
  | drain (ord : IterOrder String Int64) :
      Step inst j (.drain ord) ⟨j.index, ∅, j.recs ++ hitRecs inst (ord.iter j.dirty)⟩
  | snapshot (ord : IterOrder String Entry) (idle : j.dirty = ∅) :
      Step inst j (.snapshot ord) ⟨j.index, ∅, snapshotOf inst (ord.iter j.index)⟩
  | restart (env : Env) (idle : j.dirty = ∅) :
      Step inst j (.restart env) ⟨(replay env inst .empty j.recs).index, ∅, j.recs⟩

/-- The act does not disturb hit counts already logged: a row is rewritten
only while its hits are all unlogged, and a code is created only when neither
an unlogged nor a logged hit of an earlier link is waiting for it. -/
def KeepsHits (j : Journal) : Act → Prop
  | .create c _ _ _ => j.dirty.lookup c = none ∧ ¬ EndsInHit c (j.recs.map Rec.op)
  | .amend c _ _ => ∀ ent, j.index.lookup c = some ent → ent.h = (j.dirty.lookup c).getD 0
  | _ => True

/-- One act, which keeps hits when `safe` holds. -/
def Moves (inst : Inst) (safe : Prop) (j j' : Journal) : Prop :=
  ∃ act, Step inst j act j' ∧ (safe → j.KeepsHits act)

abbrev Path (inst : Inst) (safe : Prop) : Journal → Journal → Prop :=
  Relation.ReflTransGen (Moves inst safe)

theorem Path.single {inst : Inst} {safe : Prop} {j j' : Journal} {act : Act}
    (step : Step inst j act j') (keeps : safe → j.KeepsHits act) : Path inst safe j j' :=
  Relation.ReflTransGen.single ⟨act, step, keeps⟩

end Journal

/-! ## Records of one instance -/

/-- The entry belongs to this instance, which counted all its hits. -/
structure Entry.Mine (inst : Inst) (ent : Entry) : Prop where
  owner : ent.i = inst.i32
  hits : ent.h = ent.oh

theorem Entry.Mine.restored {inst : Inst} {ent : Entry} (mine : ent.Mine inst) :
    ent.restored = ent := by
  obtain ⟨-, hits⟩ := mine
  cases ent
  cases hits
  rfl

theorem Entry.Mine.ext {inst : Inst} {first second : Entry} (one : first.Mine inst)
    (two : second.Mine inst) (row : first.row = second.row) (hits : first.h = second.h) :
    first = second := by
  obtain ⟨-, hits₁⟩ := one
  obtain ⟨-, hits₂⟩ := two
  cases first
  cases second
  simp_all [Entry.row]

/-- What holds of a view when all records came from this instance. -/
structure View.Mine (inst : Inst) (v : View) : Prop where
  entries : ∀ c ent, v.index.lookup c = some ent → Plain c ∧ ent.Mine inst
  strays : ∀ c, (v.waiting c).t = (v.waiting c).o

theorem mine_empty (inst : Inst) : View.empty.Mine inst :=
  ⟨fun _ _ found => (by cases found), fun _ => rfl⟩

section Mine

variable (env : Env) (inst : Inst)

theorem waiting_apply_other {r : Rec} (ok : r.Ok) {k : String} (other : k ≠ r.code)
    (v : View) : (apply env inst v r.op).waiting k = v.waiting k ∨
      (apply env inst v r.op).waiting k = ⟨0, 0⟩ := by
  cases r with
  | row c u a e i n =>
      change k ≠ c at other
      rw [apply_row env inst ok, View.waiting, Map.lookup_erase_eq, if_neg other]
      exact Or.inl rfl
  | del c =>
      change k ≠ c at other
      rw [apply_del env inst ok, View.waiting, Map.lookup_erase_eq, if_neg other]
      exact Or.inl rfl
  | hit c d i =>
      change k ≠ c at other
      cases found : v.index.lookup c with
      | some ent =>
          rw [apply_hit_live env inst ok found]
          exact Or.inl rfl
      | none =>
          rw [apply_hit_stray env inst ok found, View.waiting, Map.lookup_insert_eq,
            if_neg other]
          rcases lookup_evict env v.stray k with kept | dropped
          · rw [kept]
            exact Or.inl rfl
          · rw [dropped]
            exact Or.inr rfl

theorem mine_apply {v : View} (mine : v.Mine inst) {r : Rec} (ok : r.Ok)
    (own : r.Own inst) : (apply env inst v r.op).Mine inst := by
  constructor
  · intro k ent found
    by_cases same : k = r.code
    · subst same
      refine ⟨ok, ?_⟩
      cases r with
      | row c u a e i n =>
          cases own
          rw [apply_row env inst ok, Map.lookup_insert_eq] at found
          simp only [Rec.code, if_true] at found
          cases found
          exact ⟨inst.i64_toInt32, congrArg (n + ·) (mine.strays c)⟩
      | del c =>
          simp [apply_del env inst ok, Rec.code] at found
      | hit c d i =>
          cases own
          cases before : v.index.lookup c with
          | none =>
              rw [apply_hit_stray env inst ok before] at found
              exact absurd found (by simp [Rec.code, before])
          | some old =>
              rw [apply_hit_live env inst ok before, Map.lookup_insert_eq] at found
              simp only [Rec.code, if_true] at found
              cases found
              obtain ⟨-, owner, hits⟩ := mine.entries c old before
              exact ⟨owner, by simp [hits]⟩
    · rw [lookup_apply_other env inst ok same] at found
      exact mine.entries k ent found
  · intro k
    by_cases same : k = r.code
    · subst same
      cases r with
      | row c u a e i n =>
          simp [apply_row env inst ok, View.waiting, Rec.code]
      | del c =>
          simp [apply_del env inst ok, View.waiting, Rec.code]
      | hit c d i =>
          cases own
          cases before : v.index.lookup c with
          | some old =>
              rw [apply_hit_live env inst ok before]
              exact mine.strays c
          | none =>
              have kept := mine.strays c
              rw [apply_hit_stray env inst ok before]
              rcases lookup_evict env v.stray c with same | dropped
              · simp only [View.waiting] at kept
                simp [View.waiting, Rec.code, same, kept]
              · simp [View.waiting, Rec.code, dropped]
    · rcases waiting_apply_other env inst ok same v with kept | gone
      · rw [kept]
        exact mine.strays k
      · rw [gone]

theorem mine_replay {v : View} (mine : v.Mine inst) {rs : List Rec} (ok : AllOk rs)
    (own : ∀ r ∈ rs, r.Own inst) : (replay env inst v rs).Mine inst := by
  induction rs generalizing v with
  | nil => exact mine
  | cons r rs ih =>
      exact ih
        (mine_apply env inst mine (ok r List.mem_cons_self) (own r List.mem_cons_self))
        (fun s hs => ok s (List.mem_cons_of_mem _ hs))
        (fun s hs => own s (List.mem_cons_of_mem _ hs))

end Mine

/-! ## Batches -/

theorem hitSum_hitRecs (inst : Inst) {counts : List (String × Int64)}
    (distinct : (counts.map Prod.fst).Nodup) (c : String) :
    hitSum c (hitRecs inst counts) =
      ((counts.find? fun kd => kd.1 = c).map Prod.snd).getD 0 := by
  induction counts with
  | nil => rfl
  | cons kd counts ih =>
      obtain ⟨absent, distinct⟩ := List.nodup_cons.mp distinct
      have tail := ih distinct
      rw [hitRecs, List.map_cons, hitSum_cons, List.find?_cons]
      change recHits c (.hit kd.1 kd.2 inst.i64) + hitSum c (hitRecs inst counts) = _
      rw [tail]
      by_cases same : kd.1 = c
      · have later : counts.find? (fun kd => kd.1 = c) = none :=
          find?_key_eq_none (same ▸ absent)
        simp [recHits, same, later]
      · simp [recHits, same]

/-- Draining a dirty map logs the count of every code once. -/
theorem hitSum_drain (inst : Inst) (ord : IterOrder String Int64) (dirty : Dirty)
    (c : String) :
    hitSum c (hitRecs inst (ord.iter dirty)) = (dirty.lookup c).getD 0 := by
  rw [hitSum_hitRecs inst (ord.nodup_keys dirty), ord.find?_iter]
  cases AList.lookup c dirty <;> rfl

theorem onlyHits_hitRecs (inst : Inst) (counts : List (String × Int64)) (c : String) :
    OnlyHits c (hitRecs inst counts) := by
  intro r member named
  obtain ⟨kd, -, rfl⟩ := List.mem_map.mp member
  cases named
  exact ⟨kd.2, inst.i64, rfl⟩

/-- Hits assign no rows. -/
theorem run_hitRecs (inst : Inst) (counts : List (String × Int64))
    (m : KeyedLog.State String Row) :
    KeyedLog.run m ((hitRecs inst counts).map recEvent) = m := by
  induction counts with
  | nil => rfl
  | cons kd counts ih => exact ih

/-- Snapshot rows of distinct codes assign the rows of the entries. -/
theorem run_snapshotRows {l : List (String × Entry)} (plain : ∀ ce ∈ l, Plain ce.1)
    (distinct : (l.map Prod.fst).Nodup) (c : String) :
    KeyedLog.run (fun _ => none) ((l.map Inner.snapshotRow).map recEvent) c =
      (l.find? fun ce => ce.1 = c).map fun ce => ce.2.row := by
  have ok : AllOk (l.map Inner.snapshotRow) := by
    intro r member
    obtain ⟨ce, listed, rfl⟩ := List.mem_map.mp member
    exact plain ce listed
  have folded := (replay_snapshot (Env.at 0 []) 0 plain distinct (v := View.empty) rfl).2 c
  rw [← show Index.rows View.empty.index = (fun _ => none) from rfl,
    ← rows_replay (Env.at 0 []) 0 ok .empty, Index.rows, folded]
  cases l.find? fun ce => ce.1 = c <;> rfl

theorem snapshotOf_mine {inst : Inst} (ord : IterOrder String Entry) {index : Index}
    (mine : ∀ c ent, index.lookup c = some ent → Plain c ∧ ent.Mine inst) :
    snapshotOf inst (ord.iter index) = (ord.iter index).map Inner.snapshotRow := by
  rw [snapshotOf, List.filter_eq_self.mpr]
  rintro ⟨c, ent⟩ member
  simp [(mine c ent (ord.mem_iter_iff.mp member)).2.owner]

/-- A snapshot of entries that are all own gives every entry back, its own
hits as all. -/
theorem lookup_snapshotOf (env : Env) (inst : Inst) (ord : IterOrder String Entry)
    {index : Index}
    (mine : ∀ c ent, index.lookup c = some ent → Plain c ∧ ent.Mine inst) :
    (replay env inst .empty (snapshotOf inst (ord.iter index))).stray = ∅ ∧
    ∀ c, (replay env inst .empty (snapshotOf inst (ord.iter index))).index.lookup c =
      index.lookup c := by
  have plain : ∀ ce ∈ ord.iter index, Plain ce.1 := by
    rintro ⟨c, ent⟩ member
    exact (mine c ent (ord.mem_iter_iff.mp member)).1
  have folded := replay_snapshot env inst plain (ord.nodup_keys index)
    (v := View.empty) rfl
  rw [snapshotOf_mine ord mine]
  refine ⟨folded.1, fun c => ?_⟩
  rw [folded.2 c, ord.find?_iter]
  cases found : index.lookup c with
  | none => rfl
  | some ent =>
      simp [(mine c ent found).2.restored]

/-! ## What every journal satisfies -/

namespace Journal

/-- The records are the instance's own, and their assignments give the rows of
the index. -/
structure Sound (inst : Inst) (j : Journal) : Prop where
  allOk : AllOk j.recs
  own : ∀ r ∈ j.recs, r.Own inst
  mine : ∀ c ent, j.index.lookup c = some ent → Plain c ∧ ent.Mine inst
  dirtyPlain : ∀ c d, j.dirty.lookup c = some d → Plain c
  rows : KeyedLog.run (fun _ => none) (j.recs.map recEvent) = j.index.rows

theorem Sound.rows_replay {inst : Inst} {j : Journal} (sound : j.Sound inst) (env : Env) :
    (replay env inst .empty j.recs).index.rows = j.index.rows :=
  (Store.rows_replay env inst sound.allOk .empty).trans sound.rows

/-- Replaying the records makes the same codes live. -/
theorem Sound.lookup_replay_eq_none {inst : Inst} {j : Journal} (sound : j.Sound inst)
    (env : Env) (c : String) :
    (replay env inst .empty j.recs).index.lookup c = none ↔ j.index.lookup c = none := by
  have same := congrFun (sound.rows_replay env) c
  simp only [Index.rows] at same
  rw [← Option.map_eq_none_iff (f := Entry.row), same, Option.map_eq_none_iff]

theorem rows_insert (index : Index) (c : String) (ent : Entry) :
    Index.rows (index.insert c ent) = Function.update index.rows c (some ent.row) := by
  funext k
  rw [Index.rows, Map.lookup_insert_eq, Function.update_apply]
  split <;> rfl

theorem rows_erase (index : Index) (c : String) :
    Index.rows (index.erase c) = Function.update index.rows c none := by
  funext k
  rw [Index.rows, Map.lookup_erase_eq, Function.update_apply]
  split <;> rfl

/-- One more record on both sides. -/
theorem Sound.push {inst : Inst} {j : Journal} (sound : j.Sound inst) {index : Index}
    {r : Rec} (ok : r.Ok) (own : r.Own inst)
    (mine : ∀ c ent, index.lookup c = some ent → Plain c ∧ ent.Mine inst)
    (rows : index.rows = KeyedLog.step j.index.rows (recEvent r)) :
    Sound inst ⟨index, j.dirty, j.recs ++ [r]⟩ where
  allOk := sound.allOk.append (by simpa [AllOk] using ok)
  own := by
    intro s member
    rcases List.mem_append.mp member with old | new
    · exact sound.own s old
    · cases List.mem_singleton.mp new
      exact own
  mine := mine
  dirtyPlain := sound.dirtyPlain
  rows := by
    rw [List.map_append, KeyedLog.run_append, sound.rows, rows]
    rfl

theorem mine_insert {inst : Inst} {index : Index} {c : String} {ent : Entry}
    (mine : ∀ k e, index.lookup k = some e → Plain k ∧ e.Mine inst)
    (plain : Plain c) (new : ent.Mine inst) :
    ∀ k e, (index.insert c ent).lookup k = some e → Plain k ∧ e.Mine inst := by
  intro k e found
  rw [Map.lookup_insert_eq] at found
  split at found
  · rename_i same
    subst same
    cases found
    exact ⟨plain, new⟩
  · exact mine k e found

theorem mine_erase {inst : Inst} {index : Index} {c : String}
    (mine : ∀ k e, index.lookup k = some e → Plain k ∧ e.Mine inst) :
    ∀ k e, (index.erase c).lookup k = some e → Plain k ∧ e.Mine inst := by
  intro k e found
  rw [Map.lookup_erase_eq] at found
  split at found
  · cases found
  · exact mine k e found

/-- A hit counted in the entry changes no row. -/
theorem rows_counted {index : Index} {c : String} {ent : Entry}
    (found : index.lookup c = some ent) (h oh : Int64) :
    Index.rows (index.insert c { ent with h := h, oh := oh }) = index.rows := by
  rw [rows_insert]
  funext k
  rw [Function.update_apply]
  split
  · rename_i same
    subst same
    rw [Index.rows, found]
    rfl
  · rfl

theorem Sound.counted {inst : Inst} {j : Journal} (sound : j.Sound inst) {c : String}
    {ent : Entry} (found : j.index.lookup c = some ent) :
    Sound inst ⟨j.index.insert c { ent with h := ent.h + 1, oh := ent.oh + 1 }, j.dirty,
      j.recs⟩ := by
  obtain ⟨plain, mine⟩ := sound.mine c ent found
  refine ⟨sound.allOk, sound.own,
    mine_insert sound.mine plain ⟨mine.owner, by simp [mine.hits]⟩, sound.dirtyPlain, ?_⟩
  rw [rows_counted found]
  exact sound.rows

/-- A hit counted in the dirty map. -/
theorem Sound.noted {inst : Inst} {j : Journal} (sound : j.Sound inst) {c : String}
    (plain : Plain c) (d : Int64) : Sound inst ⟨j.index, j.dirty.insert c d, j.recs⟩ := by
  refine ⟨sound.allOk, sound.own, sound.mine, ?_, sound.rows⟩
  intro k d' stored
  rw [Map.lookup_insert_eq] at stored
  split at stored
  · rename_i same
    rw [same]
    exact plain
  · exact sound.dirtyPlain k d' stored

/-- Hit counts moved to the records. -/
theorem Sound.logged {inst : Inst} {j : Journal} (sound : j.Sound inst)
    {counts : List (String × Int64)} (plain : ∀ kd ∈ counts, Plain kd.1) {dirty : Dirty}
    (dirtyPlain : ∀ c d, dirty.lookup c = some d → Plain c) :
    Sound inst ⟨j.index, dirty, j.recs ++ hitRecs inst counts⟩ := by
  refine ⟨sound.allOk.append ?_, ?_, sound.mine, dirtyPlain, ?_⟩
  · intro r member
    obtain ⟨kd, listed, rfl⟩ := List.mem_map.mp member
    exact plain kd listed
  · intro r member
    rcases List.mem_append.mp member with old | new
    · exact sound.own r old
    · obtain ⟨kd, -, rfl⟩ := List.mem_map.mp new
      exact rfl
  · rw [List.map_append, KeyedLog.run_append, sound.rows, run_hitRecs]

/-- Entries written as snapshot rows, the only records left. -/
theorem Sound.saved {inst : Inst} {j : Journal} (sound : j.Sound inst)
    {l : List (String × Entry)} (mine : ∀ ce ∈ l, Plain ce.1 ∧ ce.2.i = inst.i32)
    (distinct : (l.map Prod.fst).Nodup)
    (rows : ∀ c, (l.find? fun ce => ce.1 = c).map (fun ce => ce.2.row) = j.index.rows c) :
    Sound inst ⟨j.index, j.dirty, l.map Inner.snapshotRow⟩ := by
  refine ⟨?_, ?_, sound.mine, sound.dirtyPlain, ?_⟩
  · intro r member
    obtain ⟨ce, listed, rfl⟩ := List.mem_map.mp member
    exact (mine ce listed).1
  · intro r member
    obtain ⟨ce, listed, rfl⟩ := List.mem_map.mp member
    exact congrArg Int32.toInt64 (mine ce listed).2
  · funext c
    rw [run_snapshotRows (fun ce listed => (mine ce listed).1) distinct, rows]

/-- The index replayed from own records, with nothing to log. -/
theorem sound_replay (env : Env) {inst : Inst} {recs : List Rec} (ok : AllOk recs)
    (own : ∀ r ∈ recs, r.Own inst) :
    Sound inst ⟨(replay env inst .empty recs).index, ∅, recs⟩ :=
  ⟨ok, own, (mine_replay env inst (mine_empty inst) ok own).entries, by simp,
    (Store.rows_replay env inst ok .empty).symm⟩

theorem Sound.step {inst : Inst} {j j' : Journal} (sound : j.Sound inst) {act : Act}
    (step : Step inst j act j') : j'.Sound inst := by
  cases step with
  | create plain fresh url now exp =>
      refine sound.push plain rfl (mine_insert sound.mine plain ⟨rfl, rfl⟩) ?_
      rw [rows_insert]
      simp [KeyedLog.step, recEvent, Entry.row, inst.i64_toInt32]
  | @amend c ent found url exp =>
      obtain ⟨plain, mine⟩ := sound.mine c ent found
      refine sound.push plain rfl
        (mine_insert sound.mine plain ⟨mine.owner, mine.hits⟩) ?_
      rw [rows_insert]
      simp [KeyedLog.step, recEvent, Entry.row, inst.i64_toInt32, mine.owner]
  | @drop c ent found =>
      refine sound.push (sound.mine c ent found).1 trivial (mine_erase sound.mine) ?_
      rw [rows_erase]
      rfl
  | @hit c ent found =>
      exact (sound.counted found).noted (sound.mine c ent found).1 _
  | drain ord =>
      refine sound.logged ?_ (by simp)
      rintro ⟨k, d⟩ stored
      exact sound.dirtyPlain k d (ord.mem_iter_iff.mp stored)
  | snapshot ord idle =>
      rw [snapshotOf_mine ord sound.mine, ← idle]
      refine sound.saved ?_ (ord.nodup_keys j.index) ?_
      · rintro ⟨c, ent⟩ stored
        obtain ⟨plain, mine⟩ := sound.mine c ent (ord.mem_iter_iff.mp stored)
        exact ⟨plain, mine.owner⟩
      · intro c
        rw [ord.find?_iter, Option.map_map]
        rfl
  | restart env idle => exact sound_replay env sound.allOk sound.own

/-! ## Hits -/

/-- The records leave no doubt about the hits of a live code, and miss exactly
those not yet logged. -/
def HitsAgree (j : Journal) : Prop :=
  ∀ c ent, j.index.lookup c = some ent →
    Track.run c .gone j.recs = .live (ent.h - (j.dirty.lookup c).getD 0)

/-- A code that is not live and was not last named by a hit is gone. -/
theorem Sound.track_free {inst : Inst} {j : Journal} (sound : j.Sound inst) {c : String}
    (plain : Plain c) (free : j.index.lookup c = none)
    (settled : ¬ EndsInHit c (j.recs.map Rec.op)) : Track.run c .gone j.recs = .gone := by
  have missing := (sound.lookup_replay_eq_none (Env.at 0 []) c).mpr free
  have agrees := Track.agrees_replay_empty (Env.at 0 []) inst c sound.allOk
  cases track : Track.run c .gone j.recs with
  | gone => rfl
  | stray => exact absurd (Track.endsInHit_of_stray plain track) settled
  | live h =>
      rw [track] at agrees
      obtain ⟨ent, found, -⟩ := agrees
      rw [missing] at found
      cases found
  | tainted =>
      rw [track] at agrees
      obtain ⟨ent, found⟩ := agrees
      rw [missing] at found
      cases found

theorem track_push (c : String) (rs : List Rec) (r : Rec) :
    Track.run c .gone (rs ++ [r]) = (Track.run c .gone rs).step c r := by
  rw [Track.run_append]
  rfl

/-- With nothing left to log, a replay gives the index back. -/
theorem HitsAgree.lookup_replay {inst : Inst} {j : Journal} (sound : j.Sound inst)
    (agree : j.HitsAgree) (idle : j.dirty = ∅) (env : Env) (c : String) :
    (replay env inst .empty j.recs).index.lookup c = j.index.lookup c := by
  cases found : j.index.lookup c with
  | none => exact (sound.lookup_replay_eq_none env c).mpr found
  | some ent =>
      have agrees := Track.agrees_replay_empty env inst c sound.allOk
      have sameRow := congrFun (sound.rows_replay env) c
      rw [agree c ent found, idle] at agrees
      obtain ⟨restored, replayed, hits⟩ := agrees
      have mine := (mine_replay env inst (mine_empty inst) sound.allOk sound.own).entries
        c restored replayed
      simp only [Index.rows, replayed, found, Option.map_some, Option.some.injEq] at sameRow
      rw [replayed]
      exact congrArg some (mine.2.ext (sound.mine c ent found).2 sameRow (by simpa using hits))

theorem HitsAgree.step {inst : Inst} {j j' : Journal} (sound : j.Sound inst)
    (agree : j.HitsAgree) {act : Act} (step : Step inst j act j')
    (keeps : j.KeepsHits act) : j'.HitsAgree := by
  intro k e found
  cases step with
  | @create c plain fresh url now exp =>
      obtain ⟨unlogged, settled⟩ := keeps
      rw [track_push]
      rw [Map.lookup_insert_eq] at found
      split at found
      · rename_i same
        subst same
        cases found
        rw [sound.track_free plain fresh settled]
        simp [Track.step, Track.row, unlogged]
      · rename_i other
        rw [Track.step_other (Ne.symm other)]
        exact agree k e found
  | @amend c ent before url exp =>
      have unflushed := keeps ent before
      rw [track_push]
      rw [Map.lookup_insert_eq] at found
      split at found
      · rename_i same
        subst same
        cases found
        rw [agree k ent before]
        simp [Track.step, Track.row, unflushed]
      · rename_i other
        rw [Track.step_other (Ne.symm other)]
        exact agree k e found
  | @drop c ent before =>
      rw [track_push]
      rw [Map.lookup_erase_eq] at found
      split at found
      · cases found
      · rename_i other
        rw [Track.step_other (Ne.symm other)]
        exact agree k e found
  | @hit c ent before =>
      rw [Map.lookup_insert_eq] at found
      split at found
      · rename_i same
        subst same
        cases found
        rw [agree k ent before]
        simp only [Map.lookup_insert_eq, if_true, Option.getD_some]
        congr 1
        grind
      · rename_i other
        rw [agree k e found]
        simp [other]
  | drain ord =>
      rw [Track.run_append, agree k e found, Track.run_hits (onlyHits_hitRecs inst _ k),
        hitSum_drain]
      simp
  | snapshot ord idle =>
      have hits := (sound.mine k e found).2.hits
      rw [snapshotOf_mine ord sound.mine, Track.run_snapshot (ord.nodup_keys j.index),
        ord.find?_iter, found]
      simp [hits]
  | restart env idle =>
      rw [agree.lookup_replay sound idle env k] at found
      rw [agree k e found]
      simp [idle]

/-! ## Whole paths -/

theorem Sound.path {inst : Inst} {safe : Prop} {j j' : Journal} (sound : j.Sound inst)
    (path : Path inst safe j j') : j'.Sound inst := by
  induction path with
  | refl => exact sound
  | tail _ last ih =>
      obtain ⟨act, step, -⟩ := last
      exact ih.step step

theorem HitsAgree.path {inst : Inst} {safe : Prop} (holds : safe) {j j' : Journal}
    (sound : j.Sound inst) (agree : j.HitsAgree) (path : Path inst safe j j') :
    j'.HitsAgree := by
  induction path with
  | refl => exact agree
  | tail first last ih =>
      obtain ⟨act, step, keeps⟩ := last
      exact ih.step (sound.path first) step (keeps holds)

end Journal

end Shrt.Store
