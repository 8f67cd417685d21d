import Mathlib.Order.Notation

/-!
# Deferred deletion

A sweeper finds a cell dead and deletes it later, without looking again.  What
it deletes is still dead if in between nothing but dead values was written to
the cell.
-/

namespace Shrt.Lib.Deferred

variable {σ κ ν τ : Type}

/-- How a store is looked at: its cells, the cells that are about to be deleted,
and the values that are dead at a time. -/
structure Sight (σ κ ν τ : Type) where
  cell : σ → κ → Option ν
  pending : σ → κ → Prop
  dead : τ → ν → Prop

variable (sight : Sight σ κ ν τ)

/-- Whatever is about to be deleted is dead. -/
def Safe (now : τ) (s : σ) : Prop :=
  ∀ k, sight.pending s k → ∀ v, sight.cell s k = some v → sight.dead now v

/-- A step that is made at a time: it leaves a value, or writes one where no
deletion is pending, or writes a dead one; and it marks dead cells only. -/
structure Careful (now : τ) (s s' : σ) : Prop where
  cells : ∀ k v, sight.cell s' k = some v →
    sight.cell s k = some v ∨ ¬ sight.pending s k ∨ sight.dead now v
  marks : ∀ k, sight.pending s' k →
    sight.pending s k ∨ ∀ v, sight.cell s' k = some v → sight.dead now v

variable {sight}

theorem Safe.step [LE τ] (dies : ∀ {now later : τ}, now ≤ later → ∀ v, sight.dead now v → sight.dead later v)
    {now later : τ} {s s' : σ} (safe : Safe sight now s) (le : now ≤ later)
    (careful : Careful sight later s s') : Safe sight later s' := by
  intro k marked v there
  rcases careful.marks k marked with before | dead
  · rcases careful.cells k v there with same | unmarked | dead
    · exact dies le v (safe k before v same)
    · exact absurd before unmarked
    · exact dead
  · exact dead v there

end Shrt.Lib.Deferred
