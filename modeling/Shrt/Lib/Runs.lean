import Mathlib.Data.List.Basic

/-!
# Runs of a step function

A run folds a step function over a list of actions.  What every guarded step
preserves holds after every run whose steps all meet the guard.
-/

namespace Shrt.Lib.Runs

variable {σ α : Type*} (step : σ → α → σ)

/-- Every action of the run meets the guard in the state it finds. -/
def Along (guard : σ → α → Prop) : σ → List α → Prop
  | _, [] => True
  | s, a :: as => guard s a ∧ Along guard (step s a) as

instance Along.decidable (guard : σ → α → Prop) [∀ s a, Decidable (guard s a)] :
    ∀ s as, Decidable (Along step guard s as)
  | _, [] => isTrue trivial
  | s, a :: as =>
      have := Along.decidable guard (step s a) as
      inferInstanceAs (Decidable (guard s a ∧ Along step guard (step s a) as))

variable {step}

theorem Along.append {guard : σ → α → Prop} {s : σ} {first second : List α} :
    Along step guard s (first ++ second) ↔
      Along step guard s first ∧ Along step guard (first.foldl step s) second := by
  induction first generalizing s with
  | nil => simp [Along]
  | cons a as ih => simp [Along, ih, and_assoc]

theorem Along.mono {guard guard' : σ → α → Prop} {as : List α}
    (weaker : ∀ a ∈ as, ∀ s, guard s a → guard' s a) {s : σ} (along : Along step guard s as) :
    Along step guard' s as := by
  induction as generalizing s with
  | nil => trivial
  | cons a as ih =>
      exact ⟨weaker a List.mem_cons_self s along.1,
        ih (fun b member => weaker b (List.mem_cons_of_mem _ member)) along.2⟩

/-- A guard that every action meets in every state. -/
theorem Along.of_forall {guard : σ → α → Prop} {as : List α} (meets : ∀ a ∈ as, ∀ s, guard s a)
    (s : σ) : Along step guard s as := by
  induction as generalizing s with
  | nil => trivial
  | cons a as ih =>
      exact ⟨meets a List.mem_cons_self s,
        ih (fun b member => meets b (List.mem_cons_of_mem _ member)) _⟩

/-- The invariant rule. -/
theorem Along.invariant {guard : σ → α → Prop} {Inv : σ → Prop}
    (keep : ∀ s a, Inv s → guard s a → Inv (step s a)) {s : σ} {as : List α}
    (start : Inv s) (along : Along step guard s as) : Inv (as.foldl step s) := by
  induction as generalizing s with
  | nil => exact start
  | cons a as ih =>
      obtain ⟨here, later⟩ := along
      exact ih (keep s a start here) later

/-- The invariant rule for steps that need no guard. -/
theorem invariant {Inv : σ → Prop} (keep : ∀ s a, Inv s → Inv (step s a)) {s : σ}
    (start : Inv s) (as : List α) : Inv (as.foldl step s) := by
  induction as generalizing s with
  | nil => exact start
  | cons a as ih => exact ih (keep s a start)

/-- What the invariant and the guard give at every step of a run. -/
theorem Along.establish {guard claim : σ → α → Prop} {Inv : σ → Prop}
    (keep : ∀ s a, Inv s → guard s a → claim s a ∧ Inv (step s a)) {s : σ} {as : List α}
    (start : Inv s) (along : Along step guard s as) : Along step claim s as := by
  induction as generalizing s with
  | nil => trivial
  | cons a as ih =>
      obtain ⟨here, later⟩ := along
      obtain ⟨claimed, next⟩ := keep s a start here
      exact ⟨claimed, ih next later⟩

/-! ## Counting along a run -/

/-- How many actions of the run meet the test in the state they find. -/
def count (step : σ → α → σ) (test : σ → α → Bool) : σ → List α → Nat
  | _, [] => 0
  | s, a :: as => (test s a).toNat + count step test (step s a) as

/-- The rule for an invariant that counts. -/
theorem Along.counts {guard : σ → α → Prop} {test : σ → α → Bool} {Inv : Nat → σ → Prop}
    (keep : ∀ n s a, Inv n s → guard s a → Inv (n + (test s a).toNat) (step s a)) {n : Nat} {s : σ}
    {as : List α} (start : Inv n s) (along : Along step guard s as) :
    Inv (n + count step test s as) (as.foldl step s) := by
  induction as generalizing n s with
  | nil => exact start
  | cons a as ih =>
      obtain ⟨here, later⟩ := along
      rw [count, ← Nat.add_assoc]
      exact ih (keep n s a start here) later

end Shrt.Lib.Runs
