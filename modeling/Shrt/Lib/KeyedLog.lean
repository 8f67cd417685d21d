import Mathlib.Data.List.Basic
import Mathlib.Data.List.Nodup
import Mathlib.Logic.Function.Basic

/-!
# Logs of keyed assignments

An event assigns one key, or leaves everything as it is.  Replaying a log
applies its events in order; what a key ends up with is the last assignment
to it, or its initial value when there is none.  Everything else follows from
that: logs replayed twice, and events moved past events on other keys.
-/

namespace Shrt.Lib.KeyedLog

variable {κ ν : Type} [DecidableEq κ]

/-- Assign a key a value or its absence, or do nothing. -/
inductive Event (κ ν : Type) where
  | set (k : κ) (v : Option ν)
  | keep

abbrev State (κ ν : Type) := κ → Option ν

def step (m : State κ ν) : Event κ ν → State κ ν
  | .set k v => Function.update m k v
  | .keep => m

def run (m : State κ ν) (es : List (Event κ ν)) : State κ ν :=
  es.foldl step m

/-- The assignment an event makes to a key. -/
def Event.on (k : κ) : Event κ ν → Option (Option ν)
  | .set k' v => if k' = k then some v else none
  | .keep => none

/-- The last assignment of a log to a key. -/
def last (k : κ) : List (Event κ ν) → Option (Option ν)
  | [] => none
  | e :: es => (last k es).or (e.on k)

theorem step_apply (m : State κ ν) (e : Event κ ν) (k : κ) :
    step m e k = (e.on k).getD (m k) := by
  cases e with
  | keep => rfl
  | set k' v =>
      by_cases same : k' = k
      · subst same
        simp [step, Event.on]
      · simp [step, Event.on, same, Function.update_of_ne (Ne.symm same)]

theorem run_append (m : State κ ν) (first second : List (Event κ ν)) :
    run m (first ++ second) = run (run m first) second :=
  List.foldl_append

/-- A key ends up with its last assignment. -/
theorem run_apply (m : State κ ν) (es : List (Event κ ν)) (k : κ) :
    run m es k = (last k es).getD (m k) := by
  induction es generalizing m with
  | nil => rfl
  | cons e es ih =>
      have tail := ih (step m e)
      simp only [run, List.foldl_cons] at tail ⊢
      rw [tail, step_apply]
      cases hlast : last k es <;> simp [last, hlast]

theorem last_append (k : κ) (first second : List (Event κ ν)) :
    last k (first ++ second) = (last k second).or (last k first) := by
  induction first with
  | nil => simp [last]
  | cons e es ih => simp [last, ih, Option.or_assoc]

/-- The last assignment is one of the log. -/
theorem mem_of_last {k : κ} {es : List (Event κ ν)} {v : Option ν} (found : last k es = some v) :
    Event.set k v ∈ es := by
  induction es with
  | nil => cases found
  | cons e es ih =>
      rw [last] at found
      cases later : last k es with
      | some w =>
          rw [later] at found
          cases found
          exact List.mem_cons_of_mem _ (ih later)
      | none =>
          rw [later, Option.none_or] at found
          cases e with
          | keep => cases found
          | set k' v' =>
              simp only [Event.on] at found
              split at found
              · rename_i same
                cases found
                rw [same]
                exact List.mem_cons_self
              · cases found

/-- A value that a key ends up with was there before, or the log assigns it. -/
theorem run_eq_some {m : State κ ν} {es : List (Event κ ν)} {k : κ} {v : ν}
    (found : run m es k = some v) : m k = some v ∨ Event.set k (some v) ∈ es := by
  rw [run_apply] at found
  cases assigned : last k es with
  | none =>
      rw [assigned] at found
      exact Or.inl found
  | some w =>
      rw [assigned] at found
      obtain rfl : w = some v := found
      exact Or.inr (mem_of_last assigned)

theorem last_eq_none {k : κ} {es : List (Event κ ν)} (silent : ∀ e ∈ es, e.on k = none) :
    last k es = none := by
  induction es with
  | nil => rfl
  | cons e es ih =>
      have tail := ih fun f hf => silent f (List.mem_cons_of_mem _ hf)
      simp [last, silent e List.mem_cons_self, tail]

/-- A log that assigns a key nothing at last never does. -/
theorem silent_of_last {k : κ} {es : List (Event κ ν)} (unset : last k es = none) :
    ∀ e ∈ es, e.on k = none := by
  induction es with
  | nil =>
      intro e member
      cases member
  | cons e es ih =>
      rw [last, Option.or_eq_none_iff] at unset
      intro f member
      rcases List.mem_cons.mp member with rfl | later
      · exact unset.2
      · exact ih unset.1 f later

/-- What a key ends up with depends on its own initial value only. -/
theorem run_congr {m m' : State κ ν} {k : κ} (same : m k = m' k) (es : List (Event κ ν)) :
    run m es k = run m' es k := by
  rw [run_apply, run_apply, same]

theorem run_silent {k : κ} {es : List (Event κ ν)} (silent : ∀ e ∈ es, e.on k = none)
    (m : State κ ν) : run m es k = m k := by
  rw [run_apply, last_eq_none silent]
  rfl

/-- Replaying a log on top of its own result changes nothing. -/
theorem run_run_self (m : State κ ν) (es : List (Event κ ν)) :
    run (run m es) es = run m es := by
  funext k
  rw [run_apply, run_apply]
  cases last k es <;> rfl

/-- An event moves in front of events that leave its keys alone. -/
theorem run_move {e : Event κ ν} {before : List (Event κ ν)}
    (apart : ∀ f ∈ before, ∀ k, e.on k = none ∨ f.on k = none)
    (m : State κ ν) (after : List (Event κ ν)) :
    run m (before ++ e :: after) = run m (e :: before ++ after) := by
  funext k
  rw [run_apply, run_apply]
  congr 1
  rw [last_append, List.cons_append, last, last, last_append]
  by_cases silent : e.on k = none
  · simp [silent]
  · have untouched : last k before = none :=
      last_eq_none fun f hf => (apart f hf k).resolve_left silent
    simp [untouched]

end Shrt.Lib.KeyedLog
