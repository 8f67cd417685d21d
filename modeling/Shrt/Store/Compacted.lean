import Mathlib.Data.List.Basic
import Shrt.Store.Conservation
import Shrt.Store.Pooled

/-!
# Hits of instances that compact

A snapshot holds the own links of an instance with the hits that it counted on
them.  The records of an instance then still carry the resolves it served, as
long as no compaction drops a hit on a link of another instance.
-/

namespace Shrt.Store

open Shrt.Codec Shrt.Lib

/-! ## Rows in a fold -/

section Fold

variable (env : Env) (inst : Inst)

/-- Without tombstones a code has the row it had, or a row of these records. -/
theorem rows_replay_kept {rs : List Rec} (ok : AllOk rs) (noDel : NoDel rs) (v : View)
    (c : String) :
    (rowCount c rs = 0 ∧ (replay env inst v rs).index.rows c = v.index.rows c) ∨
      (rowCount c rs ≠ 0 ∧ ∃ r ∈ rs, ∃ row, recEvent r = .set c (some row) ∧
        (replay env inst v rs).index.rows c = some row) := by
  have rows := rows_replay env inst ok v
  cases final : KeyedLog.last c (rs.map recEvent) with
  | none =>
      have silent := KeyedLog.silent_of_last final
      left
      constructor
      · rw [rowCount, List.countP_eq_zero]
        intro r member row
        have quiet := silent _ (List.mem_map_of_mem member)
        cases r with
        | row c' u a e i n => simp_all [isRow, recEvent, KeyedLog.Event.on]
        | hit c' d i => cases row
        | del c' => cases row
      · rw [rows, KeyedLog.run_silent silent]
  | some value =>
      obtain ⟨r, member, assigned⟩ := List.mem_map.mp (KeyedLog.mem_of_last final)
      cases r with
      | hit c' d i => cases assigned
      | del c' => exact absurd rfl (noDel _ member c')
      | row c' u a e i n =>
          cases assigned
          right
          constructor
          · rw [← Nat.pos_iff_ne_zero, rowCount, List.countP_pos_iff]
            exact ⟨_, member, by simp [isRow]⟩
          · refine ⟨_, member, _, rfl, ?_⟩
            rw [rows, KeyedLog.run_apply, final]
            rfl

theorem live_replay {rs : List Rec} (ok : AllOk rs) (noDel : NoDel rs) {v : View} {c : String}
    (present : v.index.lookup c ≠ none ∨ rowCount c rs ≠ 0) :
    (replay env inst v rs).index.lookup c ≠ none := by
  intro dead
  rcases rows_replay_kept env inst ok noDel v c with ⟨none, same⟩ | ⟨-, r, -, row, -, final⟩
  · refine present.elim (fun live => live ?_) fun counted => counted none
    simpa [Index.rows, dead] using same.symm
  · simp [Index.rows, dead] at final

/-- A link after a fold of records of others has its old row, or a row of them. -/
theorem owner_replay {rs : List Rec} (ok : AllOk rs) (noDel : NoDel rs) {v : View} {c : String}
    {ent : Entry} (found : (replay env inst v rs).index.lookup c = some ent) :
    (rowCount c rs = 0 ∧ ∃ old, v.index.lookup c = some old ∧ old.i = ent.i) ∨
      ∃ r ∈ rs, isRow c r = true ∧ ∀ j, r.Own j → ent.i = j.i32 := by
  have here : (replay env inst v rs).index.rows c = some ent.row := by
    rw [Index.rows, found]
    rfl
  rcases rows_replay_kept env inst ok noDel v c with
    ⟨none, same⟩ | ⟨-, r, member, row, assigned, final⟩
  · left
    rw [here, Index.rows] at same
    obtain ⟨old, before, row⟩ := Option.map_eq_some_iff.mp same.symm
    exact ⟨none, old, before, congrArg Row.i row⟩
  · right
    have same : ent.i = row.i := congrArg Row.i (Option.some.inj (here.symm.trans final))
    cases r with
    | hit c' d i => cases assigned
    | del c' => cases assigned
    | row c' u a e i n =>
        cases assigned
        refine ⟨_, member, by simp [isRow], fun j own => ?_⟩
        change i = j.i64 at own
        rw [same, own, Inst.i64_toInt32]

/-- Records of other instances do not count as own hits. -/
theorem oh_replay_foreign {rs : List Rec} (ok : AllOk rs)
    (foreign : ∀ r ∈ rs, ∃ j, j ≠ inst ∧ r.Own j) {c : String} {v : View} {old ent : Entry}
    (noRow : rowCount c rs = 0) (noDel : NoDel rs) (before : v.index.lookup c = some old)
    (found : (replay env inst v rs).index.lookup c = some ent) : ent.oh = old.oh := by
  induction rs generalizing v old with
  | nil =>
      rw [replay_nil, before] at found
      exact congrArg Entry.oh (Option.some.inj found).symm
  | cons r rs ih =>
      have okHead : r.Ok := ok r List.mem_cons_self
      rw [rowCount_cons, Nat.add_eq_zero_iff] at noRow
      have later := fun {v : View} {old : Entry} => @ih (fun s hs => ok s (List.mem_cons_of_mem _ hs))
        (fun s hs => foreign s (List.mem_cons_of_mem _ hs)) v old noRow.2
        (fun s hs => noDel s (List.mem_cons_of_mem _ hs))
      rw [replay_cons] at found
      by_cases same : c = r.code
      · cases r with
        | del c' => exact absurd rfl (noDel _ List.mem_cons_self c')
        | row c' u a e i n =>
            change c = c' at same
            simp [rowCount, isRow, same] at noRow
        | hit c' d i =>
            change c = c' at same
            subst same
            obtain ⟨j, other, own⟩ := foreign _ List.mem_cons_self
            change i = j.i64 at own
            have differs : ¬ (inst.i64 == i) = true := by
              rw [own, beq_iff_eq]
              exact fun equal => other (Inst.i64_eq_iff.mp equal).symm
            rw [apply_hit_live env inst okHead before] at found
            refine (later ((Map.lookup_insert_eq _ _ _ _).trans (if_pos rfl)) found).trans ?_
            exact if_neg differs
      · exact later ((lookup_apply_other env inst okHead same v).trans before) found

end Fold

def Member.unlogged (m : Member) (c : String) : Int64 :=
  (m.dirty.lookup c).getD 0

namespace Pool

/-- The records of an instance: its snapshot, then what it wrote since. -/
def all (p : Pool) (k : Inst) : List Rec :=
  p.snaps k ++ p.recs k

def unlogged (p : Pool) (k : Inst) (c : String) : Int64 :=
  (p.members k).elim 0 fun m => m.unlogged c

def HasRow (p : Pool) (c : String) : Prop :=
  ∃ j, rowCount c (p.all j) ≠ 0

/-- Generated codes are created and hits are counted.  A snapshot replaces
records of own codes only, and no stray map is full while a store opens. -/
def Rules.counting : Rules where
  acts := Mesh.Counts
  saves p k := ∀ r ∈ p.recs k, ownerOf r.code = some k
  opens env k recs := View.Roomy env k .empty (recs.map Rec.op)

/-- What a running instance holds: only links that have their row, all its own,
and these with the hits that its records and its dirty map carry. -/
structure Fits (p : Pool) (k : Inst) (m : Member) : Prop where
  rows : ∀ c ent, m.index.lookup c = some ent → ∃ j, ent.i = j.i32 ∧ rowCount c (p.all j) ≠ 0
  live : ∀ c, rowCount c (p.all k) ≠ 0 → m.index.lookup c ≠ none
  mine : ∀ c ent, m.index.lookup c = some ent → ent.i = k.i32 →
    ent.oh = tally c (p.all k) + m.unlogged c
  noted : ∀ c, m.dirty.lookup c ≠ none → p.HasRow c

/-- Every code has at most one row, in the records of the instance it names, and
every hit is of a code that has its row.  The records of an instance and its
unlogged hits are the resolves it served. -/
structure Kept (p : Pool) : Prop where
  noDel : ∀ k, NoDel (p.all k)
  own : ∀ k, ∀ r ∈ p.all k, r.Own k
  snapped : ∀ k, ∀ r ∈ p.snaps k, ownerOf r.code = some k
  owned : ∀ k c, rowCount c (p.all k) ≠ 0 → ownerOf c = some k
  once : ∀ k c, rowCount c (p.all k) ≤ 1
  named : ∀ k, ∀ r ∈ p.all k, p.HasRow r.code
  resolved : ∀ k c, (k, c) ∈ p.served → p.HasRow c
  fits : ∀ k m, p.members k = some m → p.Fits k m
  served : ∀ k c, tally c (p.all k) + p.unlogged k c = Int64.ofNat (p.served.count (k, c))

theorem kept_start : start.Kept := by
  refine ⟨?_, ?_, ?_, ?_, ?_, ?_, ?_, ?_, ?_⟩
  · exact fun _ _ member => by cases member
  · exact fun _ _ member => by cases member
  · exact fun _ _ member => by cases member
  · exact fun _ _ counted => absurd rfl counted
  · exact fun _ _ => Nat.zero_le 1
  · exact fun _ _ member => by cases member
  · exact fun _ _ member => by cases member
  · exact fun _ _ up => by cases up
  · exact fun _ _ => rfl

/-- The records of one instance changed, without losing a row. -/
structure Rewrites (k : Inst) (p p' : Pool) : Prop where
  others : ∀ i, i ≠ k → p'.all i = p.all i
  kept : ∀ c, rowCount c (p.all k) ≠ 0 → rowCount c (p'.all k) ≠ 0

namespace Rewrites

variable {p p' : Pool} {k : Inst} (rewrites : Rewrites k p p')

include rewrites

theorem rows {j : Inst} {c : String} (present : rowCount c (p.all j) ≠ 0) :
    rowCount c (p'.all j) ≠ 0 := by
  by_cases same : j = k
  · subst same
    exact rewrites.kept c present
  · rw [rewrites.others j same]
    exact present

theorem hasRow {c : String} (present : p.HasRow c) : p'.HasRow c := by
  obtain ⟨j, row⟩ := present
  exact ⟨j, rewrites.rows row⟩

/-- The other instances hold what they held. -/
theorem fits {i : Inst} {m : Member} (other : i ≠ k) (fits : p.Fits i m) : p'.Fits i m := by
  refine ⟨fun c ent found => ?_, fun c present => ?_, fun c ent found mine => ?_,
    fun c stored => rewrites.hasRow (fits.noted c stored)⟩
  · obtain ⟨j, owner, row⟩ := fits.rows c ent found
    exact ⟨j, owner, rewrites.rows row⟩
  · rw [rewrites.others i other] at present
    exact fits.live c present
  · rw [rewrites.others i other]
    exact fits.mine c ent found mine

end Rewrites

/-- The same records with other members: what an instance holds still fits. -/
theorem Fits.of_records {p p' : Pool} (snaps : p'.snaps = p.snaps) (recs : p'.recs = p.recs)
    {k : Inst} {m : Member} (fits : p.Fits k m) : p'.Fits k m := by
  have all : p'.all = p.all := by
    funext j
    rw [Pool.all, Pool.all, snaps, recs]
  refine ⟨?_, ?_, ?_, ?_⟩
  · rw [all]
    exact fits.rows
  · rw [all]
    exact fits.live
  · rw [all]
    exact fits.mine
  · intro c stored
    obtain ⟨j, row⟩ := fits.noted c stored
    exact ⟨j, by rw [all]; exact row⟩

/-- One member replaced, the records as they were. -/
theorem Kept.replace {p : Pool} (kept : p.Kept) {k : Inst} {q : Option Member}
    (fits : ∀ m, q = some m → p.Fits k m)
    (same : ∀ c, (q.elim 0 fun m => m.unlogged c) = p.unlogged k c) :
    Kept { p with members := Function.update p.members k q } := by
  refine ⟨kept.noDel, kept.own, kept.snapped, kept.owned, kept.once, kept.named, kept.resolved,
    fun i m running => ?_, fun i c => ?_⟩
  · simp only [Function.update_apply] at running
    split at running
    · rename_i here
      subst here
      refine Fits.of_records ?_ ?_ (fits m running)
      · rfl
      · rfl
    · refine Fits.of_records ?_ ?_ (kept.fits i m running)
      · rfl
      · rfl
  · have before := kept.served i c
    by_cases here : i = k
    · subst here
      rw [← same] at before
      simpa [Pool.unlogged, Pool.all] using before
    · simpa [Pool.unlogged, Pool.all, here] using before

/-- A code that names an instance has its row there, if it has one. -/
theorem Kept.row_of_owner {p : Pool} (kept : p.Kept) {k : Inst} {c : String} (row : p.HasRow c)
    (owner : ownerOf c = some k) : rowCount c (p.all k) ≠ 0 := by
  obtain ⟨j, present⟩ := row
  have same : j = k := Option.some.inj ((kept.owned j c present).symm.trans owner)
  exact same ▸ present

theorem Kept.onceEmpty {p : Pool} (kept : p.Kept) (k : Inst) (c : String) :
    View.empty.lives c + rowCount c (p.all k) ≤ 1 := by
  have none : View.empty.lives c = 0 := rfl
  rw [none, Nat.zero_add]
  exact kept.once k c

/-- Nothing is counted for a code without a row. -/
theorem Kept.tally_of_none {p : Pool} (kept : p.Kept) {c : String} (none : ¬ p.HasRow c)
    (k : Inst) : tally c (p.all k) = 0 := by
  apply tally_other
  rintro r member rfl
  exact none (kept.named k r member)

theorem Kept.unlogged_of_none {p : Pool} (kept : p.Kept) {c : String} (none : ¬ p.HasRow c)
    {k : Inst} {m : Member} (up : p.members k = some m) : m.unlogged c = 0 := by
  have absent : m.dirty.lookup c = Option.none := by
    by_contra stored
    exact none ((kept.fits k m up).noted c stored)
  rw [Member.unlogged, absent]
  rfl

end Pool

/-! ## Acts -/

/-- What an act that counts does to an entry. -/
theorem Journal.Step.oh {k : Inst} {j j' : Journal} {act : Act} (step : Journal.Step k j act j')
    (counts : Mesh.Counts k act) {c : String} {ent : Entry} (found : j'.index.lookup c = some ent) :
    (∃ old, j.index.lookup c = some old ∧ ent.i = old.i ∧
      ent.oh = old.oh + Int64.ofNat ((act.counts k).count (k, c))) ∨
      (j.index.lookup c = none ∧ ent.i = k.i32 ∧ ent.oh = 0) := by
  cases step with
  | @create c' plain fresh url now exp =>
      rw [Map.lookup_insert_eq] at found
      split at found
      · rename_i same
        cases found
        exact Or.inr ⟨same ▸ fresh, rfl, rfl⟩
      · exact Or.inl ⟨ent, found, rfl, (Int64.add_zero _).symm⟩
  | @hit c' old live =>
      rw [Map.lookup_insert_eq] at found
      left
      split at found
      · rename_i same
        cases found
        exact ⟨old, same ▸ live, rfl, by simp [Act.counts, same]⟩
      · rename_i other
        exact ⟨ent, found, rfl, by simp [Act.counts, Ne.symm other]⟩
  | drain ord => exact Or.inl ⟨ent, found, rfl, (Int64.add_zero _).symm⟩
  | amend live url exp => exact counts.elim
  | drop live => exact counts.elim
  | snapshot ord idle => exact counts.elim
  | restart env idle => exact counts.elim

/-- A member without stray hits, as a peer. -/
def Member.peer (m : Member) : Peer :=
  ⟨m.index, m.dirty, ∅, fun _ => []⟩

theorem Member.lives_peer {m : Member} {c : String} :
    m.peer.view.lives c ≠ 0 ↔ m.index.lookup c ≠ none :=
  View.lives_eq_zero.not

namespace Pool

theorem ticks {p : Pool} {k : Inst} {m : Member} {act : Act} {j : Journal}
    (step : Journal.Step k (p.journal k m) act j) (counts : Mesh.Counts k act) :
    ∃ rs, j.recs = p.recs k ++ rs ∧ Ticks k m.peer act j rs := by
  refine @Mesh.ticks ⟨fun _ => none, p.recs, []⟩ k m.peer act j step counts fun c dead _ => ?_
  have missing : m.peer.view.index.lookup c = none := View.lives_eq_zero.mp dead
  simp only [View.count, missing]
  rfl

/-- The records of an instance grew. -/
theorem rewrites_grown {p p' : Pool} {k : Inst} {rs : List Rec} (snaps : p'.snaps = p.snaps)
    (recs : p'.recs = Function.update p.recs k (p.recs k ++ rs)) : Rewrites k p p' := by
  refine ⟨fun i other => ?_, fun c present => ?_⟩
  · rw [all, all, snaps, recs, Function.update_of_ne other]
  · rw [all, snaps, recs, Function.update_self, ← List.append_assoc, rowCount_append]
    exact fun none => present (Nat.add_eq_zero_iff.mp none).1

theorem Fits.act {p p' : Pool} {k : Inst} {m : Member} (fits : p.Fits k m)
    (rewrites : Rewrites k p p') {act : Act} {j : Journal} {rs : List Rec}
    (here : p'.all k = p.all k ++ rs) (ticks : Ticks k m.peer act j rs)
    (entries : ∀ c ent, j.index.lookup c = some ent →
      (∃ old, m.index.lookup c = some old ∧ ent.i = old.i ∧
        ent.oh = old.oh + Int64.ofNat ((act.counts k).count (k, c))) ∨
        (m.index.lookup c = none ∧ ent.i = k.i32 ∧ ent.oh = 0))
    (lives : ∀ c, m.peer.view.lives c ≠ 0 → p'.HasRow c)
    (unnoted : ∀ c, rowCount c (p.all k) = 0 → ownerOf c = some k →
      tally c (p.all k) = 0 ∧ m.unlogged c = 0) : p'.Fits k (m.did j) := by
  have after : ∀ c, (m.peer.did j).view.lives c ≠ 0 ↔ j.index.lookup c ≠ none := fun c =>
    View.lives_eq_zero.not
  have created : ∀ c ent, m.index.lookup c = none → j.index.lookup c = some ent →
      rowCount c rs ≠ 0 := by
    intro c ent missing found none
    have live : (m.peer.did j).view.lives c ≠ 0 := (after c).mpr (by rw [found]; simp)
    have dead : m.peer.view.lives c = 0 := View.lives_eq_zero.mpr missing
    rw [ticks.lives c, none] at live
    exact live dead
  refine ⟨?_, ?_, ?_, ?_⟩
  · intro c ent found
    rcases entries c ent found with ⟨old, before, owner, -⟩ | ⟨missing, owner, -⟩
    · obtain ⟨i, same, row⟩ := fits.rows c old before
      exact ⟨i, owner.trans same, rewrites.rows row⟩
    · refine ⟨k, owner, ?_⟩
      have new := created c ent missing found
      rw [here, rowCount_append]
      omega
  · intro c present
    rw [here, rowCount_append] at present
    refine (after c).mp ?_
    rw [ticks.lives c]
    by_cases old : rowCount c (p.all k) = 0
    · omega
    · have live := Member.lives_peer.mpr (fits.live c old)
      omega
  · intro c ent found mine
    have logged : (m.did j).unlogged c + tally c rs =
        m.unlogged c + Int64.ofNat ((act.counts k).count (k, c)) := ticks.logged c
    rw [here, tally_append]
    rcases entries c ent found with ⟨old, before, owner, count⟩ | ⟨missing, -, count⟩
    · have total := fits.mine c old before (owner ▸ mine)
      rw [count, total]
      grind
    · have owner := ticks.owned c (created c ent missing found)
      have absent : rowCount c (p.all k) = 0 := by
        by_contra present
        exact fits.live c present missing
      have uncounted : (act.counts k).count (k, c) = 0 := by
        rw [List.count_eq_zero]
        exact fun member => Member.lives_peer.mp (ticks.served c member) missing
      obtain ⟨nothing, unlogged⟩ := unnoted c absent owner
      rw [unlogged, uncounted] at logged
      rw [count, nothing]
      have zero : Int64.ofNat 0 = 0 := rfl
      grind
  · intro c stored
    rcases ticks.noted c stored with before | live
    · exact rewrites.hasRow (fits.noted c before)
    · exact lives c live

theorem Kept.act {p p' : Pool} (kept : p.Kept) {k : Inst} {m : Member} (up : p.members k = some m)
    {act : Act} {j : Journal} {rs : List Rec} (ticks : Ticks k m.peer act j rs)
    (own : ∀ r ∈ rs, r.Own k)
    (entries : ∀ c ent, j.index.lookup c = some ent →
      (∃ old, m.index.lookup c = some old ∧ ent.i = old.i ∧
        ent.oh = old.oh + Int64.ofNat ((act.counts k).count (k, c))) ∨
        (m.index.lookup c = none ∧ ent.i = k.i32 ∧ ent.oh = 0))
    (members : p'.members = Function.update p.members k (some (m.did j)))
    (snaps : p'.snaps = p.snaps) (recs : p'.recs = Function.update p.recs k (p.recs k ++ rs))
    (served : p'.served = p.served ++ act.counts k) : p'.Kept := by
  have rewrites := rewrites_grown snaps recs
  have fits := kept.fits k m up
  have here : p'.all k = p.all k ++ rs := by
    rw [all, all, snaps, recs, Function.update_self, List.append_assoc]
  have written : ∀ i, ∀ r ∈ p'.all i, r ∈ p.all i ∨ (i = k ∧ r ∈ rs) := by
    intro i r member
    by_cases same : i = k
    · subst same
      rw [here] at member
      exact (List.mem_append.mp member).imp id fun new => ⟨rfl, new⟩
    · rw [rewrites.others i same] at member
      exact Or.inl member
  have lives : ∀ c, m.peer.view.lives c ≠ 0 → p'.HasRow c := by
    intro c live
    obtain ⟨ent, found⟩ := Option.ne_none_iff_exists'.mp (Member.lives_peer.mp live)
    obtain ⟨i, -, row⟩ := fits.rows c ent found
    exact ⟨i, rewrites.rows row⟩
  -- A new row is the first of its code.
  have fresh : ∀ c, rowCount c rs ≠ 0 → rowCount c (p.all k) = 0 := by
    intro c new
    have after := (m.peer.did j).view.lives_le c
    rw [ticks.lives c] at after
    by_contra present
    have live := Member.lives_peer.mpr (fits.live c present)
    omega
  refine ⟨?_, ?_, ?_, ?_, ?_, ?_, ?_, ?_, ?_⟩
  · intro i r member
    rcases written i r member with old | ⟨-, new⟩
    · exact kept.noDel i r old
    · exact ticks.noDel r new
  · intro i r member
    rcases written i r member with old | ⟨same, new⟩
    · exact kept.own i r old
    · exact same ▸ own r new
  · rw [snaps]
    exact kept.snapped
  · intro i c present
    by_cases same : i = k
    · subst same
      rw [here, rowCount_append] at present
      by_cases new : rowCount c rs = 0
      · exact kept.owned i c (by omega)
      · exact ticks.owned c new
    · rw [rewrites.others i same] at present
      exact kept.owned i c present
  · intro i c
    by_cases same : i = k
    · subst same
      rw [here, rowCount_append]
      by_cases new : rowCount c rs = 0
      · rw [new]
        exact kept.once i c
      · have after := (m.peer.did j).view.lives_le c
        rw [ticks.lives c] at after
        rw [fresh c new]
        omega
    · rw [rewrites.others i same]
      exact kept.once i c
  · intro i r member
    rcases written i r member with old | ⟨-, new⟩
    · exact rewrites.hasRow (kept.named i r old)
    · rcases ticks.named r new with row | stored
      · exact ⟨k, by rw [here, rowCount_append]; omega⟩
      · exact rewrites.hasRow (fits.noted _ stored)
  · intro i c member
    rw [served] at member
    rcases List.mem_append.mp member with old | new
    · exact rewrites.hasRow (kept.resolved i c old)
    · obtain rfl := Act.eq_of_mem_counts new
      exact lives c (ticks.served c new)
  · intro i q running
    rw [members] at running
    obtain ⟨rfl, rfl⟩ | ⟨other, running⟩ := update_eq_some running
    · refine fits.act rewrites here ticks entries lives fun c absent owner => ?_
      have none : ¬ p.HasRow c := fun row => kept.row_of_owner row owner absent
      exact ⟨kept.tally_of_none none i, kept.unlogged_of_none none up⟩
    · exact rewrites.fits other (kept.fits i q running)
  · intro i c
    by_cases same : i = k
    · subst same
      have before := kept.served i c
      have unlogged : p'.unlogged i c = (m.did j).unlogged c := by
        simp [Pool.unlogged, members]
      have unlogged₀ : p.unlogged i c = m.peer.unlogged c := by
        simp [Pool.unlogged, up, Member.unlogged, Peer.unlogged, Member.peer]
      rw [unlogged₀] at before
      rw [here, served, unlogged]
      exact ticks.served_append before
    · have unchanged : p'.unlogged i c = p.unlogged i c := by
        simp [Pool.unlogged, members, same]
      rw [rewrites.others i same, served, unchanged, List.count_append,
        Act.count_counts_of_ne same]
      exact kept.served i c

end Pool

/-! ## Snapshots -/

/-- The rows of a snapshot carry the own hits of their entries. -/
theorem counts_snapshotRows {l : List (String × Entry)} (distinct : (l.map Prod.fst).Nodup)
    {c : String} {ent : Entry} (member : (c, ent) ∈ l) :
    rowCount c (l.map Inner.snapshotRow) = 1 ∧ tally c (l.map Inner.snapshotRow) = ent.oh := by
  induction l with
  | nil => cases member
  | cons ce l ih =>
      obtain ⟨absent, distinct⟩ := List.nodup_cons.mp distinct
      rw [List.map_cons, rowCount_cons, tally_cons]
      rcases List.mem_cons.mp member with rfl | later
      · have others : ∀ r ∈ l.map Inner.snapshotRow, r.code ≠ c := by
          intro r listed same
          obtain ⟨ce', member', rfl⟩ := List.mem_map.mp listed
          exact absent (List.mem_map.mpr ⟨ce', member', same⟩)
        rw [tally_other others, rowCount_eq_zero others]
        simp [Inner.snapshotRow, rowCount, isRow, recTally]
      · obtain ⟨rows, hits⟩ := ih distinct later
        have other : (Inner.snapshotRow ce).code ≠ c := fun same =>
          absent (List.mem_map.mpr ⟨(c, ent), later, same.symm⟩)
        rw [rows, hits, rowCount_other other, recTally_other other]
        exact ⟨rfl, Int64.zero_add _⟩

section Snapshot

variable {k : Inst} {ord : IterOrder String Entry} {index : Index} {c : String}

variable (ord) in
/-- An own link is in the snapshot once, with its own hits. -/
theorem counts_snapshotOf {ent : Entry} (found : index.lookup c = some ent) (mine : ent.i = k.i32) :
    rowCount c (snapshotOf k (ord.iter index)) = 1 ∧
      tally c (snapshotOf k (ord.iter index)) = ent.oh := by
  apply counts_snapshotRows (ord.nodup_keys_filter index _)
  exact List.mem_filter.mpr ⟨ord.mem_iter_iff.mpr found, by simpa using mine⟩

/-- A row of the snapshot is an own link. -/
theorem mem_snapshotOf {r : Rec} (member : r ∈ snapshotOf k (ord.iter index)) :
    ∃ ent, index.lookup r.code = some ent ∧ ent.i = k.i32 ∧ r.Own k ∧ r ≠ .del r.code := by
  obtain ⟨⟨c, ent⟩, listed, rfl⟩ := List.mem_map.mp member
  obtain ⟨stored, mine⟩ := List.mem_filter.mp listed
  have owner : ent.i = k.i32 := by simpa using mine
  refine ⟨ent, ord.mem_iter_iff.mp stored, owner, ?_, nofun⟩
  change ent.i.toInt64 = k.i64
  rw [owner]
  rfl

end Snapshot

namespace Pool

/-- The own links are those with a row in the own records. -/
theorem Kept.own_entry {p : Pool} (kept : p.Kept) {k : Inst} {m : Member}
    (up : p.members k = some m) (c : String) :
    rowCount c (p.all k) ≠ 0 ↔ ∃ ent, m.index.lookup c = some ent ∧ ent.i = k.i32 := by
  have fits := kept.fits k m up
  constructor
  · intro present
    obtain ⟨ent, found⟩ := Option.ne_none_iff_exists'.mp (fits.live c present)
    obtain ⟨j, owner, row⟩ := fits.rows c ent found
    have same : j = k := Option.some.inj
      ((kept.owned j c row).symm.trans (kept.owned k c present))
    exact ⟨ent, found, same ▸ owner⟩
  · rintro ⟨ent, found, mine⟩
    obtain ⟨j, owner, row⟩ := fits.rows c ent found
    have same : j = k := Inst.i32_injective (owner.symm.trans mine)
    exact same ▸ row

/-- A snapshot that drops no hit on a link of another instance carries what the
records did. -/
theorem Kept.counts_saved {p : Pool} (kept : p.Kept) {k : Inst} {m : Member}
    (up : p.members k = some m) (idle : m.dirty = ∅) (ord : IterOrder String Entry)
    (owned : ∀ r ∈ p.recs k, ownerOf r.code = some k) (c : String) :
    rowCount c (snapshotOf k (ord.iter m.index)) = rowCount c (p.all k) ∧
      tally c (snapshotOf k (ord.iter m.index)) = tally c (p.all k) := by
  by_cases present : rowCount c (p.all k) = 0
  · have absent : ∀ r ∈ snapshotOf k (ord.iter m.index), r.code ≠ c := by
      rintro r member rfl
      obtain ⟨ent, found, mine, -⟩ := mem_snapshotOf member
      exact (kept.own_entry up r.code).mpr ⟨ent, found, mine⟩ present
    have silent : ∀ r ∈ p.all k, r.code ≠ c := by
      rintro r member rfl
      refine kept.row_of_owner (kept.named k r member) ?_ present
      exact (List.mem_append.mp member).elim (kept.snapped k r) (owned r)
    rw [rowCount_eq_zero absent, tally_other absent, present, tally_other silent]
    exact ⟨rfl, rfl⟩
  · obtain ⟨ent, found, mine⟩ := (kept.own_entry up c).mp present
    have total := (kept.fits k m up).mine c ent found mine
    have logged : m.unlogged c = 0 := by
      simp [Member.unlogged, idle]
    obtain ⟨rows, hits⟩ := counts_snapshotOf ord found mine
    rw [logged, Int64.add_zero] at total
    have once := kept.once k c
    exact ⟨by omega, hits.trans total⟩

theorem Kept.save {p : Pool} (kept : p.Kept) {k : Inst} {m : Member} (up : p.members k = some m)
    (idle : m.dirty = ∅) (ord : IterOrder String Entry)
    (owned : ∀ r ∈ p.recs k, ownerOf r.code = some k) :
    Kept { p with
      snaps := Function.update p.snaps k (snapshotOf k (ord.iter m.index))
      recs := Function.update p.recs k [] } := by
  have counts := kept.counts_saved up idle ord owned
  generalize same : { p with
    snaps := Function.update p.snaps k (snapshotOf k (ord.iter m.index))
    recs := Function.update p.recs k [] } = p'
  have here : p'.all k = snapshotOf k (ord.iter m.index) := by
    simp [← same, all]
  have others : ∀ i, i ≠ k → p'.all i = p.all i := by
    intro i other
    simp [← same, all, other]
  have rowsSame : ∀ i c, rowCount c (p'.all i) = rowCount c (p.all i) := by
    intro i c
    by_cases saved : i = k
    · rw [saved, here]
      exact (counts c).1
    · rw [others i saved]
  have tallySame : ∀ i c, tally c (p'.all i) = tally c (p.all i) := by
    intro i c
    by_cases saved : i = k
    · rw [saved, here]
      exact (counts c).2
    · rw [others i saved]
  have rewrites : Rewrites k p p' := ⟨others, fun c present => by rwa [rowsSame]⟩
  have members : p'.members = p.members := by rw [← same]
  have served : p'.served = p.served := by rw [← same]
  have rowOf : ∀ r ∈ p'.all k, rowCount r.code (p.all k) ≠ 0 := by
    intro r member
    rw [here] at member
    obtain ⟨ent, found, mine, -⟩ := mem_snapshotOf member
    exact (kept.own_entry up r.code).mpr ⟨ent, found, mine⟩
  refine ⟨?_, ?_, ?_, ?_, ?_, ?_, ?_, ?_, ?_⟩
  · intro i r member c deleted
    by_cases saved : i = k
    · rw [saved, here] at member
      obtain ⟨-, -, -, -, row⟩ := mem_snapshotOf member
      subst deleted
      exact row rfl
    · rw [others i saved] at member
      exact kept.noDel i r member c deleted
  · intro i r member
    by_cases saved : i = k
    · rw [saved, here] at member
      obtain ⟨-, -, -, own, -⟩ := mem_snapshotOf member
      exact saved ▸ own
    · rw [others i saved] at member
      exact kept.own i r member
  · intro i r member
    by_cases saved : i = k
    · subst saved
      exact kept.owned i r.code (rowOf r (List.mem_append_left _ member))
    · rw [← same] at member
      simp only [Function.update_of_ne saved] at member
      exact kept.snapped i r member
  · intro i c present
    rw [rowsSame] at present
    exact kept.owned i c present
  · intro i c
    rw [rowsSame]
    exact kept.once i c
  · intro i r member
    by_cases saved : i = k
    · subst saved
      exact rewrites.hasRow ⟨i, rowOf r member⟩
    · rw [others i saved] at member
      exact rewrites.hasRow (kept.named i r member)
  · intro i c member
    rw [served] at member
    exact rewrites.hasRow (kept.resolved i c member)
  · intro i q running
    rw [members] at running
    have fits := kept.fits i q running
    refine ⟨fun c ent found => ?_, fun c present => ?_, fun c ent found mine => ?_,
      fun c stored => rewrites.hasRow (fits.noted c stored)⟩
    · obtain ⟨j, owner, row⟩ := fits.rows c ent found
      exact ⟨j, owner, rewrites.rows row⟩
    · rw [rowsSame] at present
      exact fits.live c present
    · rw [tallySame]
      exact fits.mine c ent found mine
  · intro i c
    have unlogged : p'.unlogged i c = p.unlogged i c := by
      rw [Pool.unlogged, Pool.unlogged, members]
    rw [tallySame, unlogged, served]
    exact kept.served i c

/-! ## Reads, openings and closings -/

theorem Kept.hear {p : Pool} (kept : p.Kept) (sound : p.Sound) {k j : Inst} {m : Member}
    (up : p.members k = some m) (other : j ≠ k) (env : Env) {new : List Rec}
    (written : ∀ r ∈ new, r ∈ p.recs j) :
    Kept { p with members := Function.update p.members k (some (m.hear env k new)) } := by
  have fits := kept.fits k m up
  have listed : ∀ r ∈ new, r ∈ p.all j := fun r member =>
    List.mem_append_right _ (written r member)
  have ok : AllOk new := fun r member => sound.okRecs j r (written r member)
  have noDel : NoDel new := fun r member => kept.noDel j r (listed r member)
  refine kept.replace (fun q booted => ?_) fun c => ?_
  · cases booted
    refine ⟨fun c ent found => ?_, fun c present => ?_, fun c ent found mine => ?_, fits.noted⟩
    · rcases owner_replay env k ok noDel found with ⟨-, old, before, owner⟩ | ⟨r, member, row, owner⟩
      · obtain ⟨i, same, row⟩ := fits.rows c old before
        exact ⟨i, owner.symm.trans same, row⟩
      · exact ⟨j, owner j (sound.own j r (written r member)), rowCount_ne_zero (listed r member) row⟩
    · exact live_replay env k ok noDel (Or.inl (fits.live c present))
    · rcases owner_replay env k ok noDel found with ⟨none, old, before, owner⟩ | ⟨r, member, row, owner⟩
      · have unchanged := oh_replay_foreign env k ok
          (fun r member => ⟨j, other, sound.own j r (written r member)⟩) none noDel before found
        rw [unchanged]
        exact fits.mine c old before (owner.trans mine)
      · have named := owner j (sound.own j r (written r member))
        exact absurd (Inst.i32_injective (named.symm.trans mine)) other
  · rw [Pool.unlogged, up]
    rfl

theorem Kept.stop {p : Pool} (kept : p.Kept) {k : Inst} {m : Member} (up : p.members k = some m)
    (idle : m.dirty = ∅) : Kept { p with members := Function.update p.members k none } := by
  refine kept.replace (fun q none => by cases none) fun c => ?_
  simp [Pool.unlogged, up, Member.unlogged, idle]

theorem Kept.boot {p : Pool} (kept : p.Kept) (sound : p.Sound) {k : Inst}
    (down : p.members k = none) (env : Env) {js : List Inst} (others : ∀ j ∈ js, j ≠ k)
    (room : View.Roomy env k .empty
      ((p.snaps k ++ p.recs k ++ js.flatMap p.snaps).map Rec.op)) :
    Kept { p with
      members := Function.update p.members k
        (some (.booted env k (p.snaps k ++ p.recs k ++ js.flatMap p.snaps))) } := by
  change View.Roomy env k .empty ((p.all k ++ js.flatMap p.snaps).map Rec.op) at room
  have okAll : AllOk (p.all k) := (sound.okSnaps k).append (sound.okRecs k)
  have ok : AllOk (js.flatMap p.snaps) := sound.okSnapshots js
  have noDel : NoDel (js.flatMap p.snaps) := by
    intro r member
    obtain ⟨j, -, here⟩ := List.mem_flatMap.mp member
    exact kept.noDel j r (List.mem_append_left _ here)
  have foreign : ∀ r ∈ js.flatMap p.snaps, ∃ j, j ≠ k ∧ r.Own j := by
    intro r member
    obtain ⟨j, listed, here⟩ := List.mem_flatMap.mp member
    exact ⟨j, others j listed, kept.own j r (List.mem_append_left _ here)⟩
  have folded : replay env k .empty (p.snaps k ++ p.recs k ++ js.flatMap p.snaps) =
      replay env k (replay env k .empty (p.all k)) (js.flatMap p.snaps) := replay_append _ _ _ _ _
  have mineAll := mine_replay env k (mine_empty k) okAll (kept.own k)
  rw [List.map_append] at room
  have roomAll := (View.Roomy.append.mp room).1
  refine kept.replace (fun q booted => ?_) fun c => ?_
  · cases booted
    refine ⟨fun c ent found => ?_, fun c present => ?_, fun c ent found mine => ?_,
      fun c stored => absurd rfl stored⟩
    · rw [Member.booted, folded] at found
      rcases owner_replay env k ok noDel found with ⟨-, old, before, owner⟩ | ⟨r, member, row, owner⟩
      · rcases owner_replay env k okAll (kept.noDel k) before with
          ⟨-, none, missing, -⟩ | ⟨r, member, row, owner'⟩
        · cases missing
        · exact ⟨k, owner.symm.trans (owner' k (kept.own k r member)), rowCount_ne_zero member row⟩
      · obtain ⟨j, -, here⟩ := List.mem_flatMap.mp member
        have listed : r ∈ p.all j := List.mem_append_left _ here
        exact ⟨j, owner j (kept.own j r listed), rowCount_ne_zero listed row⟩
    · rw [Member.booted, folded]
      exact live_replay env k ok noDel
        (Or.inl (live_replay env k okAll (kept.noDel k) (Or.inr present)))
    · rw [Member.booted, folded] at found
      change ent.oh = tally c (p.all k) + 0
      rcases owner_replay env k ok noDel found with
        ⟨none, old, before, owner⟩ | ⟨r, member, row, owner⟩
      · have counted := (count_replay env k roomAll okAll (kept.noDel k) (kept.onceEmpty k c)).1
        rw [View.count, before] at counted
        have hits : old.h = old.oh := (mineAll.entries c old before).2.hits
        rw [oh_replay_foreign env k ok foreign none noDel before found, ← hits, Int64.add_zero]
        exact counted.trans (Int64.zero_add _)
      · obtain ⟨j, other, own⟩ := foreign r member
        exact absurd (Inst.i32_injective ((owner j own).symm.trans mine)) other
  · rw [Pool.unlogged, down]
    rfl

theorem Kept.step {p p' : Pool} (kept : p.Kept) (sound : p.Sound)
    (step : Step Rules.counting p p') : p'.Kept := by
  cases step with
  | @act k m act j up step checked runs counts =>
      obtain ⟨⟨rs, grown, -, own⟩, -⟩ :=
        step.grows runs (sound.plain k m up) (sound.dirtyPlain k m up)
      obtain ⟨rs', grown', ticks⟩ := Pool.ticks step counts
      obtain rfl : rs = rs' := List.append_cancel_left (grown.symm.trans grown')
      exact kept.act up ticks own (fun c ent found => step.oh counts found) rfl rfl
        (by rw [grown']) rfl
  | save up idle ord owned => exact kept.save up idle ord owned
  | hear up other env written => exact kept.hear sound up other env written
  | boot down env others room => exact kept.boot sound down env others room
  | stop up idle => exact kept.stop up idle

/-- No step loses a row. -/
theorem Kept.hasRow_step {p p' : Pool} (kept : p.Kept) (step : Step Rules.counting p p')
    {c : String} (row : p.HasRow c) : p'.HasRow c := by
  obtain ⟨i, present⟩ := row
  cases step with
  | @act k m act j up step checked runs counts =>
      obtain ⟨rs, grown, -⟩ := Pool.ticks step counts
      have recs : Function.update p.recs k j.recs = Function.update p.recs k (p.recs k ++ rs) := by
        rw [grown]
      refine Rewrites.hasRow (rewrites_grown ?_ recs) ⟨i, present⟩
      rfl
  | @save k m up idle ord owned =>
      refine ⟨i, ?_⟩
      by_cases saved : i = k
      · subst saved
        have same := (kept.counts_saved up idle ord owned c).1
        simpa [all, same] using present
      · simpa [all, saved] using present
  | hear up other env written => exact ⟨i, present⟩
  | boot down env others room => exact ⟨i, present⟩
  | stop up idle => exact ⟨i, present⟩

/-- What runs of the pool keep. -/
theorem Kept.steps {p p' : Pool} (kept : p.Kept) (sound : p.Sound)
    (steps : Steps Rules.counting p p') :
    p'.Kept ∧ ∀ c, p.HasRow c → p'.HasRow c := by
  suffices all : p'.Sound ∧ p'.Kept ∧ ∀ c, p.HasRow c → p'.HasRow c from all.2
  induction steps with
  | refl => exact ⟨sound, kept, fun _ row => row⟩
  | tail _ last ih =>
      obtain ⟨sound, kept, rows⟩ := ih
      exact ⟨sound.step last, kept.step sound last, fun c row => kept.hasRow_step last (rows c row)⟩

end Pool

end Shrt.Store
