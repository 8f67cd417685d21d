import Mathlib.Algebra.BigOperators.Group.List.Basic
import Mathlib.Algebra.Group.Hom.Defs
import Mathlib.Algebra.GroupWithZero.Nat
import Mathlib.Data.List.Forall2

/-!
# Ledgers

A ledger writes a natural number beside every part of a list.  When one part
changes, one number does, and the sum changes by as much.
-/

namespace Shrt.Lib.Ledger

variable {α : Type} {R : α → Nat → Prop}

/-- The number beside a part, and what a new part with a new number does to the
ledger. -/
theorem exchange {parts : List α} {numbers : List Nat} (ledger : List.Forall₂ R parts numbers)
    {i : Nat} {a : α} (there : parts[i]? = some a) :
    ∃ n, R a n ∧ n ≤ numbers.sum ∧ ∀ a' n', R a' n' →
      ∃ numbers', List.Forall₂ R (parts.set i a') numbers' ∧
        numbers'.sum + n = numbers.sum + n' := by
  induction ledger generalizing i with
  | nil => cases there
  | @cons b n parts numbers beside rest ih =>
      cases i with
      | zero =>
          cases there
          refine ⟨n, beside, ?_, fun a' n' beside' => ?_⟩
          · rw [List.sum_cons]
            omega
          · refine ⟨n' :: numbers, .cons beside' rest, ?_⟩
            simp only [List.sum_cons]
            omega
      | succ i =>
          obtain ⟨m, there', within, change⟩ := ih there
          refine ⟨m, there', ?_, fun a' n' beside' => ?_⟩
          · rw [List.sum_cons]
            omega
          · obtain ⟨numbers', changed, sums⟩ := change a' n' beside'
            refine ⟨n :: numbers', .cons beside changed, ?_⟩
            simp only [List.sum_cons]
            omega

/-- A new part starts with nothing. -/
theorem extend {parts : List α} {numbers : List Nat} (ledger : List.Forall₂ R parts numbers)
    {a : α} (nothing : R a 0) :
    List.Forall₂ R (parts ++ [a]) (numbers ++ [0]) ∧ (numbers ++ [0]).sum = numbers.sum := by
  refine ⟨List.rel_append ledger (.cons nothing .nil), ?_⟩
  simp

/-- Parts that all start with nothing. -/
theorem zeros {parts : List α} (nothing : ∀ a ∈ parts, R a 0) :
    ∃ numbers, List.Forall₂ R parts numbers ∧ numbers.sum = 0 := by
  induction parts with
  | nil => exact ⟨[], .nil, rfl⟩
  | cons a parts ih =>
      obtain ⟨numbers, rest, sums⟩ := ih fun b member => nothing b (List.mem_cons_of_mem _ member)
      refine ⟨0 :: numbers, .cons (nothing a List.mem_cons_self) rest, ?_⟩
      rw [List.sum_cons, sums]

/-- Values that are the images of the numbers add up to the image of the sum. -/
theorem sum_map {M : Type} [AddCommMonoid M] (φ : ℕ →+ M) {g : α → M} {parts : List α}
    {numbers : List Nat} (ledger : List.Forall₂ (fun a n => g a = φ n) parts numbers) :
    (parts.map g).sum = φ numbers.sum := by
  induction ledger with
  | nil => exact (map_zero φ).symm
  | cons beside _ ih => rw [List.map_cons, List.sum_cons, List.sum_cons, map_add, beside, ih]

end Shrt.Lib.Ledger
