import Mathlib.Data.Fintype.BigOperators
import Mathlib.Data.List.Basic
import Shrt.Lib.Deltas
import Shrt.Store.Mesh

/-!
# Counting hits in records

Without tombstones and with at most one row of a code, the hits that an index
or its stray map holds for the code are the sum of what the records carry,
whether they came before the row or after it.
-/

namespace Shrt.Store

open Shrt.Codec Shrt.Lib

def recTally (c : String) : Rec → Int64
  | .row c' _ _ _ _ n => if c' = c then n else 0
  | .hit c' d _ => if c' = c then d else 0
  | .del _ => 0

def tally (c : String) (rs : List Rec) : Int64 :=
  (rs.map (recTally c)).sum

def isRow (c : String) : Rec → Bool
  | .row c' _ _ _ _ _ => c' == c
  | _ => false

def rowCount (c : String) (rs : List Rec) : Nat :=
  rs.countP (isRow c)

def NoDel (rs : List Rec) : Prop :=
  ∀ r ∈ rs, ∀ c, r ≠ .del c

@[simp] theorem tally_nil (c : String) : tally c [] = 0 := rfl

theorem tally_cons (c : String) (r : Rec) (rs : List Rec) :
    tally c (r :: rs) = recTally c r + tally c rs := by
  simp [tally]

theorem tally_append (c : String) (first second : List Rec) :
    tally c (first ++ second) = tally c first + tally c second := by
  simp [tally]

@[simp] theorem rowCount_nil (c : String) : rowCount c [] = 0 := rfl

theorem rowCount_append (c : String) (first second : List Rec) :
    rowCount c (first ++ second) = rowCount c first + rowCount c second :=
  List.countP_append

theorem rowCount_cons (c : String) (r : Rec) (rs : List Rec) :
    rowCount c (r :: rs) = rowCount c [r] + rowCount c rs :=
  rowCount_append c [r] rs

theorem rowCount_le {c : String} {first all : List Rec} (within : first <+: all) :
    rowCount c first ≤ rowCount c all :=
  within.sublist.countP_le

theorem recTally_other {c : String} {r : Rec} (other : r.code ≠ c) : recTally c r = 0 := by
  cases r <;> simp_all [recTally, Rec.code]

theorem rowCount_other {c : String} {r : Rec} (other : r.code ≠ c) : rowCount c [r] = 0 := by
  cases r <;> simp_all [rowCount, isRow, Rec.code]

/-- Records that do not name the code carry nothing for it. -/
theorem tally_other {c : String} {rs : List Rec} (other : ∀ r ∈ rs, r.code ≠ c) :
    tally c rs = 0 := by
  induction rs with
  | nil => rfl
  | cons r rs ih =>
      rw [tally_cons, recTally_other (other r List.mem_cons_self),
        ih fun s member => other s (List.mem_cons_of_mem _ member)]
      rfl

theorem rowCount_eq_zero {c : String} {rs : List Rec} (other : ∀ r ∈ rs, r.code ≠ c) :
    rowCount c rs = 0 := by
  rw [rowCount, List.countP_eq_zero]
  intro r member row
  have none := rowCount_other (other r member)
  simp [rowCount, row] at none

theorem rowCount_ne_zero {c : String} {rs : List Rec} {r : Rec} (member : r ∈ rs)
    (row : isRow c r = true) : rowCount c rs ≠ 0 :=
  Nat.pos_iff_ne_zero.mp (List.countP_pos_iff.mpr ⟨r, member, row⟩)

theorem tally_hitRecs (c : String) (inst : Inst) (counts : List (String × Int64)) :
    tally c (hitRecs inst counts) = hitSum c (hitRecs inst counts) := by
  induction counts with
  | nil => rfl
  | cons kd counts ih =>
      simp only [hitRecs, List.map_cons] at ih ⊢
      rw [tally_cons, hitSum_cons, ih]
      rfl

theorem rowCount_hitRecs (c : String) (inst : Inst) (counts : List (String × Int64)) :
    rowCount c (hitRecs inst counts) = 0 := by
  rw [rowCount, List.countP_eq_zero]
  intro r member
  obtain ⟨kd, -, rfl⟩ := List.mem_map.mp member
  simp [isRow]

/-! ## The count of a view -/

/-- The hits that a view holds for a code, with its row or waiting for it. -/
def View.count (v : View) (c : String) : Int64 :=
  match v.index.lookup c with
  | some ent => ent.h
  | none => (v.waiting c).t

/-- One for a live code. -/
def View.lives (v : View) (c : String) : Nat :=
  if (v.index.lookup c).isSome then 1 else 0

theorem evict_roomy (env : Env) {stray : StrayMap} (room : stray.entries.length < MAX_STRAY_HITS) :
    evict env stray = stray := by
  rw [evict, if_neg (Nat.not_le.mpr room)]

section Fold

variable (env : Env) (inst : Inst)

/-- A record leaves the stray hits of other codes alone while there is room. -/
theorem waiting_apply_roomy {v : View} (room : v.stray.entries.length < MAX_STRAY_HITS) {r : Rec}
    (ok : r.Ok) {c : String} (other : c ≠ r.code) :
    (apply env inst v r.op).waiting c = v.waiting c := by
  cases r with
  | row k u a e i n =>
      change c ≠ k at other
      rw [apply_row env inst ok, View.waiting, Map.lookup_erase_eq, if_neg other]
      rfl
  | del k =>
      change c ≠ k at other
      rw [apply_del env inst ok, View.waiting, Map.lookup_erase_eq, if_neg other]
      rfl
  | hit k d i =>
      change c ≠ k at other
      cases found : v.index.lookup k with
      | some ent =>
          rw [apply_hit_live env inst ok found]
          rfl
      | none =>
          rw [apply_hit_stray env inst ok found, evict_roomy env room, View.waiting,
            Map.lookup_insert_eq, if_neg other]
          rfl

/-- One record that is no tombstone, with room for stray hits. -/
theorem count_apply {v : View} (room : v.stray.entries.length < MAX_STRAY_HITS) {r : Rec}
    (ok : r.Ok) {c : String} (kept : r ≠ .del c) (once : v.lives c + rowCount c [r] ≤ 1) :
    (apply env inst v r.op).count c = v.count c + recTally c r ∧
      (apply env inst v r.op).lives c = v.lives c + rowCount c [r] := by
  by_cases same : c = r.code
  · subst same
    cases r with
    | del c => exact absurd rfl kept
    | row c u a e i n =>
        have missing : v.index.lookup c = none := by
          by_contra live
          rw [← ne_eq, Option.ne_none_iff_isSome] at live
          simp [View.lives, Rec.code, live, rowCount, isRow] at once
        simp only [View.count, View.lives, Rec.code, apply_row env inst ok, Map.lookup_insert_eq,
          if_true, missing]
        simp [recTally, rowCount, isRow, Int64.add_comm]
    | hit c d i =>
        cases found : v.index.lookup c with
        | some ent =>
            simp [View.count, View.lives, Rec.code, apply_hit_live env inst ok found, found,
              recTally, rowCount, isRow]
        | none =>
            rw [apply_hit_stray env inst ok found, evict_roomy env room]
            simp [View.count, View.lives, View.waiting, Rec.code, found, recTally, rowCount, isRow]
  · have index := lookup_apply_other env inst ok same v
    have waiting := waiting_apply_roomy env inst room ok same
    rw [View.count, View.lives, index, waiting, recTally_other (Ne.symm same),
      rowCount_other (Ne.symm same), Int64.add_zero, Nat.add_zero]
    exact ⟨rfl, rfl⟩

/-- Records without tombstones, at most one of them a row of the code. -/
theorem count_replay {rs : List Rec} {v : View} (room : v.Roomy env inst (rs.map Rec.op))
    (ok : AllOk rs) (kept : NoDel rs) {c : String} (once : v.lives c + rowCount c rs ≤ 1) :
    (replay env inst v rs).count c = v.count c + tally c rs ∧
      (replay env inst v rs).lives c = v.lives c + rowCount c rs := by
  induction rs generalizing v with
  | nil => simp
  | cons r rs ih =>
      obtain ⟨here, later⟩ := room
      rw [rowCount_cons, ← Nat.add_assoc] at once
      obtain ⟨count, lives⟩ := count_apply env inst here (ok r List.mem_cons_self)
        (kept r List.mem_cons_self c) (Nat.le_trans (Nat.le_add_right _ _) once)
      obtain ⟨total, live⟩ := ih later (fun s member => ok s (List.mem_cons_of_mem _ member))
        (fun s member => kept s (List.mem_cons_of_mem _ member)) (by rw [lives]; exact once)
      rw [replay_cons, total, live, count, lives, tally_cons, rowCount_cons c r rs]
      exact ⟨Int64.add_assoc _ _ _, Nat.add_assoc _ _ _⟩

end Fold

/-! ## Sums over the instances -/

/-- The sum after one instance's records were extended. -/
theorem sum_update_append {M : Type} [AddCommMonoid M] {f : List Rec → M}
    (additive : ∀ first second, f (first ++ second) = f first + f second)
    (known : Inst → List Rec) (k : Inst) (rs : List Rec) :
    ∑ j, f (Function.update known k (known k ++ rs) j) = (∑ j, f (known j)) + f rs := by
  have summand : (fun j => f (Function.update known k (known k ++ rs) j)) =
      Function.update (fun j => f (known j)) k (f (known k) + f rs) := by
    funext j
    by_cases same : j = k
    · subst same
      simp [additive]
    · simp [same]
  rw [summand, Finset.sum_update_of_mem (Finset.mem_univ k),
    Finset.sum_eq_add_sum_sdiff_singleton_of_mem (Finset.mem_univ k) fun j => f (known j),
    add_right_comm]

/-- The sum when only one instance's records are known. -/
theorem sum_update_nil {M : Type} [AddCommMonoid M] {f : List Rec → M} (nothing : f [] = 0)
    (k : Inst) (rs : List Rec) :
    ∑ j, f (Function.update (fun _ => []) k rs j) = f rs := by
  rw [Finset.sum_eq_single k]
  · rw [Function.update_self]
  · intro j _ other
    rw [Function.update_of_ne other, nothing]
  · intro absent
    exact absurd (Finset.mem_univ k) absent

end Shrt.Store
