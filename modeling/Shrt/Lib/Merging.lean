import Mathlib.Algebra.BigOperators.Group.List.Basic
import Mathlib.Logic.Relation

/-!
# Merge operators

A merge operator folds operands into a value.  The server of a merge operator
may fold some operands that stand together among themselves first, or fold the
first ones into the value, and go on with the results, as often as it likes.
Where the operator adds what its inputs stand for, none of this shows in the end.
-/

namespace Shrt.Lib.Merging

variable {V M : Type}

/-- One partial merge of a value and the operands behind it. -/
inductive Partial (merge : Option V → List V → V) :
    Option V × List V → Option V × List V → Prop where
  /-- Operands are replaced by what they come to among themselves. -/
  | operands (base : Option V) (front group back : List V) :
      Partial merge (base, front ++ group ++ back) (base, front ++ merge none group :: back)
  /-- The first operands go into the value. -/
  | base (base : Option V) (group back : List V) :
      Partial merge (base, group ++ back) (some (merge base group), back)

/-- Any number of partial merges. -/
abbrev Merged (merge : Option V → List V → V) :
    Option V × List V → Option V × List V → Prop :=
  Relation.ReflTransGen (Partial merge)

variable [AddMonoid M]

def total (read : V → M) (base : Option V) (operands : List V) : M :=
  base.elim 0 read + (operands.map read).sum

/-- The operator writes the total of what it is given, and what is written reads as
it was. -/
structure Additive (merge : Option V → List V → V) (read : V → M) (write : M → V) : Prop where
  merge_eq : ∀ base operands, merge base operands = write (total read base operands)
  read_write : ∀ m, read (write m) = m

namespace Additive

variable {merge : Option V → List V → V} {read : V → M} {write : M → V}

theorem read_merge (additive : Additive merge read write) (base : Option V) (operands : List V) :
    read (merge base operands) = total read base operands := by
  rw [additive.merge_eq, additive.read_write]

/-- The step lemma: a partial merge keeps the total. -/
theorem total_partial (additive : Additive merge read write) {before after : Option V × List V}
    (step : Partial merge before after) :
    total read after.1 after.2 = total read before.1 before.2 := by
  cases step with
  | operands base front group back =>
      simp only [total, List.map_append, List.map_cons, List.sum_append, List.sum_cons,
        additive.read_merge, Option.elim_none, zero_add, add_assoc]
  | base base group back =>
      simp only [total, List.map_append, List.sum_append, Option.elim_some, additive.read_merge,
        add_assoc]

/-- The run lemma. -/
theorem total_merged (additive : Additive merge read write) {before after : Option V × List V}
    (merged : Merged merge before after) :
    total read after.1 after.2 = total read before.1 before.2 := by
  induction merged with
  | refl => rfl
  | tail _ step ih => exact (additive.total_partial step).trans ih

/-- Whatever was merged before, the last merge comes to the same value. -/
theorem merge_merged (additive : Additive merge read write) {before after : Option V × List V}
    (merged : Merged merge before after) : merge after.1 after.2 = merge before.1 before.2 := by
  rw [additive.merge_eq, additive.merge_eq, additive.total_merged merged]

/-- A value stays as it is, with operands still to come, or was written. -/
theorem written (additive : Additive merge read write) {before after : Option V × List V}
    (merged : Merged merge before after) :
    (before.2 ≠ [] → after.2 ≠ []) ∨ ∃ m, after.1 = some (write m) := by
  induction merged with
  | refl => exact Or.inl id
  | tail _ step ih =>
      cases step with
      | operands base front group back =>
          rcases ih with - | ⟨m, same⟩
          · exact Or.inl fun _ => by simp
          · exact Or.inr ⟨m, same⟩
      | base base group back => exact Or.inr ⟨_, congrArg some (additive.merge_eq base group)⟩

/-- When all operands have gone into the value it is what one merge of them gives. -/
theorem settled (additive : Additive merge read write) {base value : Option V}
    {operands : List V} (some_operands : operands ≠ [])
    (merged : Merged merge (base, operands) (value, [])) : value = some (merge base operands) := by
  have same := additive.total_merged merged
  rcases additive.written merged with kept | ⟨m, rfl⟩
  · exact absurd rfl (kept some_operands)
  · simp only [total, Option.elim_some, additive.read_write, List.map_nil, List.sum_nil,
      add_zero] at same
    rw [additive.merge_eq, same, total]

end Additive

/-- Operands that go into the value one by one. -/
theorem merged_foldl (merge : Option V → List V → V) (base : Option V) (operands : List V) :
    Merged merge (base, operands)
      (operands.foldl (fun base operand => some (merge base [operand])) base, []) := by
  induction operands generalizing base with
  | nil => exact .refl
  | cons operand operands ih =>
      exact .head (.base base [operand] operands) (ih _)

end Shrt.Lib.Merging
