import Mathlib.Algebra.BigOperators.Group.List.Basic
import Shrt.Lib.HashMap

/-!
# Deltas by key

Keyed deltas add up, key by key, to sums that do not depend on their order.
Draining a map into a list of deltas keeps what every key counts.
-/

namespace Shrt.Lib

/-- Counts are added modulo `2 ^ 64`. -/
instance instAddCommMonoidInt64 : AddCommMonoid Int64 where
  add_assoc := Int64.add_assoc
  zero_add := Int64.zero_add
  add_zero := Int64.add_zero
  add_comm := Int64.add_comm
  nsmul := nsmulRec

/-- A natural number as a count. -/
def countHom : ℕ →+ Int64 where
  toFun := Int64.ofNat
  map_zero' := rfl
  map_add' := Int64.ofNat_add

variable {κ M : Type} [DecidableEq κ] [AddCommMonoid M]

/-- What the deltas of a key add up to. -/
def deltaSum (k : κ) (deltas : List (κ × M)) : M :=
  (deltas.map fun kd => if kd.1 = k then kd.2 else 0).sum

@[simp] theorem deltaSum_nil (k : κ) : deltaSum k ([] : List (κ × M)) = 0 := rfl

@[simp] theorem deltaSum_cons (k : κ) (kd : κ × M) (deltas : List (κ × M)) :
    deltaSum k (kd :: deltas) = (if kd.1 = k then kd.2 else 0) + deltaSum k deltas := by
  simp [deltaSum]

theorem deltaSum_eq_zero {k : κ} {deltas : List (κ × M)} (absent : k ∉ deltas.map Prod.fst) :
    deltaSum k deltas = 0 := by
  induction deltas with
  | nil => rfl
  | cons kd deltas ih =>
      rw [List.map_cons, List.mem_cons, not_or] at absent
      rw [deltaSum_cons, if_neg (Ne.symm absent.1), ih absent.2, add_zero]

/-- Where every key occurs once, its sum is its only delta. -/
theorem deltaSum_of_mem {k : κ} {d : M} {deltas : List (κ × M)}
    (distinct : (deltas.map Prod.fst).Nodup) (member : (k, d) ∈ deltas) :
    deltaSum k deltas = d := by
  induction deltas with
  | nil => cases member
  | cons kd deltas ih =>
      rw [List.map_cons, List.nodup_cons] at distinct
      rcases List.mem_cons.mp member with rfl | later
      · rw [deltaSum_cons, if_pos rfl, deltaSum_eq_zero distinct.1, add_zero]
      · have other : kd.1 ≠ k := fun same =>
          distinct.1 (same ▸ List.mem_map_of_mem (f := Prod.fst) later)
        rw [deltaSum_cons, if_neg other, ih distinct.2 later, zero_add]

/-- A map that is drained gives back what it counts. -/
theorem deltaSum_iter (ord : IterOrder κ M) (m : Map κ M) (k : κ) :
    deltaSum k (ord.iter m) = (m.lookup k).getD 0 := by
  cases found : m.lookup k with
  | none =>
      refine deltaSum_eq_zero fun member => ?_
      obtain ⟨⟨k', d⟩, stored, rfl⟩ := List.mem_map.mp member
      rw [ord.mem_iter_iff, found] at stored
      cases stored
  | some d => exact deltaSum_of_mem (ord.nodup_keys m) (ord.mem_iter_iff.mpr found)

/-! ## Deltas without overflow -/

/-- The deltas of a key are natural numbers that add up to `n`. -/
inductive Carries (k : κ) : List (κ × Int64) → Nat → Prop
  | nil : Carries k [] 0
  | here (n : Nat) {m : Nat} {deltas : List (κ × Int64)} :
      Carries k deltas m → Carries k ((k, Int64.ofNat n) :: deltas) (n + m)
  | other {k' : κ} {d : Int64} {m : Nat} {deltas : List (κ × Int64)} :
      k' ≠ k → Carries k deltas m → Carries k ((k', d) :: deltas) m

namespace Carries

variable {k : κ} {deltas more : List (κ × Int64)} {n m : Nat}

theorem sum (carries : Carries k deltas n) : deltaSum k deltas = Int64.ofNat n := by
  induction carries with
  | nil => rfl
  | here n _ ih =>
      rw [deltaSum_cons, if_pos rfl, ih]
      exact (Int64.ofNat_add _ _).symm
  | other differs _ ih =>
      rw [deltaSum_cons, if_neg differs, ih]
      exact Int64.zero_add _

omit [DecidableEq κ] in
theorem append (first : Carries k deltas n) (second : Carries k more m) :
    Carries k (deltas ++ more) (n + m) := by
  induction first with
  | nil =>
      rw [Nat.zero_add]
      exact second
  | here n _ ih =>
      rw [Nat.add_assoc]
      exact .here n ih
  | other differs _ ih => exact .other differs ih

/-- The first delta and the rest. -/
theorem split {k' : κ} {d : Int64} (carries : Carries k ((k', d) :: deltas) n) :
    ∃ first rest, first + rest = n ∧ (if k' = k then d else 0) = Int64.ofNat first ∧
      Carries k deltas rest := by
  cases carries with
  | here first rest => exact ⟨first, _, rfl, if_pos rfl, rest⟩
  | other differs rest => exact ⟨0, n, Nat.zero_add n, if_neg differs, rest⟩

omit [DecidableEq κ] in
theorem of_absent (absent : k ∉ deltas.map Prod.fst) : Carries k deltas 0 := by
  induction deltas with
  | nil => exact .nil
  | cons kd deltas ih =>
      rw [List.map_cons, List.mem_cons, not_or] at absent
      exact .other (Ne.symm absent.1) (ih absent.2)

omit [DecidableEq κ] in
/-- Where every key occurs once, its only delta is carried. -/
theorem of_mem (distinct : (deltas.map Prod.fst).Nodup) (member : (k, Int64.ofNat n) ∈ deltas) :
    Carries k deltas n := by
  induction deltas with
  | nil => cases member
  | cons kd deltas ih =>
      rw [List.map_cons, List.nodup_cons] at distinct
      rcases List.mem_cons.mp member with rfl | later
      · exact .here n (of_absent distinct.1)
      · have differs : kd.1 ≠ k := fun same =>
          distinct.1 (same ▸ List.mem_map_of_mem (f := Prod.fst) later)
        exact .other differs (ih distinct.2 later)

end Carries

end Shrt.Lib
