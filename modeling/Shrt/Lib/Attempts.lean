import Mathlib.Data.Nat.Init

/-!
# Attempts until one succeeds

A loop that numbers its attempts and leaves with the first that succeeds.  It
ends after finitely many attempts exactly if one of them succeeds.
-/

namespace Shrt.Lib

variable {α : Type}

/-- The first success among `fuel` attempts from the number `k` on. -/
def tryUntil (attempt : Nat → Option α) : Nat → Nat → Option α
  | _, 0 => none
  | k, fuel + 1 => (attempt k).or (tryUntil attempt (k + 1) fuel)

/-- The loop ends with one of the attempts it is given. -/
theorem tryUntil_isSome_iff (attempt : Nat → Option α) (k fuel : Nat) :
    (tryUntil attempt k fuel).isSome ↔ ∃ j, k ≤ j ∧ j < k + fuel ∧ (attempt j).isSome := by
  induction fuel generalizing k with
  | zero =>
      simp only [tryUntil, Option.isSome_none, Bool.false_eq_true, false_iff]
      rintro ⟨j, from_k, below, -⟩
      omega
  | succ fuel ih =>
      rw [tryUntil, Option.isSome_or, Bool.or_eq_true, ih]
      constructor
      · rintro (now | ⟨j, later, below, made⟩)
        · exact ⟨k, Nat.le_refl k, by omega, now⟩
        · exact ⟨j, by omega, by omega, made⟩
      · rintro ⟨j, from_k, below, made⟩
        rcases Nat.eq_or_lt_of_le from_k with rfl | later
        · exact Or.inl made
        · exact Or.inr ⟨j, later, by omega, made⟩

/-- Some number of attempts is enough exactly if an attempt succeeds. -/
theorem exists_tryUntil_iff (attempt : Nat → Option α) :
    (∃ fuel, (tryUntil attempt 0 fuel).isSome) ↔ ∃ k, (attempt k).isSome := by
  constructor
  · rintro ⟨fuel, ended⟩
    obtain ⟨j, -, -, made⟩ := (tryUntil_isSome_iff attempt 0 fuel).mp ended
    exact ⟨j, made⟩
  · rintro ⟨k, made⟩
    exact ⟨k + 1, (tryUntil_isSome_iff attempt 0 _).mpr ⟨k, Nat.zero_le k, by omega, made⟩⟩

/-- Attempts may be numbered from anywhere. -/
theorem tryUntil_succ (attempt : Nat → Option α) (k fuel : Nat) :
    tryUntil attempt (k + 1) fuel = tryUntil (fun j => attempt (j + 1)) k fuel := by
  induction fuel generalizing k with
  | zero => rfl
  | succ fuel ih => rw [tryUntil, tryUntil, ih]

/-- Only the attempts that are made count. -/
theorem tryUntil_congr {attempt other : Nat → Option α} {k fuel : Nat}
    (same : ∀ j, k ≤ j → j < k + fuel → attempt j = other j) :
    tryUntil attempt k fuel = tryUntil other k fuel := by
  induction fuel generalizing k with
  | zero => rfl
  | succ fuel ih =>
      rw [tryUntil, tryUntil, same k (Nat.le_refl k) (by omega),
        ih fun j from_k below => same j (by omega) (by omega)]

end Shrt.Lib
