import Mathlib.Data.Int.LeastGreatest
import Mathlib.Data.List.Count
import Mathlib.Data.List.Induction
import Mathlib.Logic.Function.Iterate

/-!
# Rings of counters

Events are counted by their time in few slots, each of which serves many times.
The slots of the times that pass between two events are cleared when the second
one comes.  So a slot counts the events of the latest time that it serves, however
the times are laid out on the slots.  A counter is anything that starts somewhere and
goes up by a step, which may wrap.
-/

namespace Shrt.Lib.SlotRing

variable {κ α : Type} (slot : Int → κ) (zero : α) (up : α → α)

/-- `t` is the latest time of its slot up to `cur`. -/
def Latest (cur t : Int) : Prop :=
  t ≤ cur ∧ ∀ t', t < t' → t' ≤ cur → slot t' ≠ slot t

variable {slot} in
/-- Every time has a latest one in its slot. -/
theorem exists_latest {cur t : Int} (past : t ≤ cur) :
    ∃ l, Latest slot cur l ∧ t ≤ l ∧ slot l = slot t := by
  obtain ⟨l, ⟨within, same⟩, greatest⟩ := Int.exists_greatest_of_bdd
    (P := fun t' => t' ≤ cur ∧ slot t' = slot t) ⟨cur, fun _ served => served.1⟩ ⟨t, past, rfl⟩
  refine ⟨l, ⟨within, ?_⟩, greatest t ⟨past, rfl⟩, same⟩
  intro t' later within' again
  exact absurd (greatest t' ⟨within', again.trans same⟩) (not_le.mpr later)

/-- Every slot counts the events of the latest time that it serves. -/
structure Exact (cur : Int) (counts : κ → α) (events : List Int) : Prop where
  past : ∀ t ∈ events, t ≤ cur
  counts : ∀ t, Latest slot cur t → counts (slot t) = Nat.iterate up (events.count t) zero

variable {slot zero up} {cur s : Int} {counts : κ → α} {events : List Int}

/-- Without events and counts any time may be the current one. -/
theorem exact_zero (cur : Int) : Exact slot zero up cur (fun _ => zero) [] where
  past t among := by cases among
  counts _ _ := rfl

/-- What a slot holds that serves a time: the events of the latest time it serves. -/
theorem Exact.exists_count (exact_now : Exact slot zero up cur counts events) {t : Int}
    (past : t ≤ cur) : ∃ l, t ≤ l ∧ l ≤ cur ∧ slot l = slot t ∧
      counts (slot t) = Nat.iterate up (events.count l) zero := by
  obtain ⟨l, latest, after, same⟩ := exists_latest past
  exact ⟨l, after, latest.1, same, same ▸ exact_now.counts l latest⟩

section Events

variable (slot zero up) [DecidableEq κ]

def clear (counts : κ → α) (t : Int) : Nat → κ → α
  | 0 => counts
  | n + 1 => clear (Function.update counts (slot t) zero) (t + 1) n

def count (counts : κ → α) (s : Int) : κ → α :=
  Function.update counts (slot s) (up (counts (slot s)))

variable {slot zero up}

theorem clear_eq (counts : κ → α) (t : Int) (n : Nat) (j : κ) :
    clear slot zero counts t n j = if ∃ i < n, slot (t + i) = j then zero else counts j := by
  induction n generalizing counts t with
  | zero => simp [clear]
  | succ n ih =>
      have split : (∃ i < n + 1, slot (t + i) = j) ↔
          j = slot t ∨ ∃ i < n, slot (t + 1 + i) = j := by
        constructor
        · rintro ⟨i, few, same⟩
          cases i with
          | zero => exact Or.inl (by rw [← same, Nat.cast_zero, add_zero])
          | succ i => exact Or.inr ⟨i, by omega, by rw [← same]; congr 1; omega⟩
        · rintro (rfl | ⟨i, few, same⟩)
          · exact ⟨0, Nat.succ_pos n, by rw [Nat.cast_zero, add_zero]⟩
          · exact ⟨i + 1, by omega, by rw [← same]; congr 1; omega⟩
      rw [clear, ih]
      simp only [split]
      by_cases later : ∃ i < n, slot (t + 1 + i) = j
      · rw [if_pos later, if_pos (Or.inr later)]
      · rw [if_neg later]
        by_cases here : j = slot t
        · rw [if_pos (Or.inl here), here, Function.update_self]
        · rw [if_neg (not_or.mpr ⟨here, later⟩), Function.update_of_ne here]

/-- When the slots up to a later time are cleared they are exact at that time. -/
theorem Exact.clear (before : Exact slot zero up cur counts events) (later : cur ≤ s) :
    Exact slot zero up s (clear slot zero counts (cur + 1) (s - cur).toNat) events where
  past t among := (before.past t among).trans later
  counts t latest := by
    obtain ⟨past, alone⟩ := latest
    rw [clear_eq]
    by_cases old : t ≤ cur
    · rw [if_neg]
      · exact before.counts t ⟨old, fun t' after within => alone t' after (within.trans later)⟩
      · rintro ⟨i, few, same⟩
        exact alone _ (by omega) (by omega) same
    · have absent : t ∉ events := fun among => old (before.past t among)
      rw [if_pos ⟨(t - cur - 1).toNat, by omega, congrArg slot (by omega)⟩,
        List.count_eq_zero_of_not_mem absent, Function.iterate_zero, id]

/-- An event is counted at its time, which is the latest in its slot. -/
theorem Exact.count (before : Exact slot zero up s counts events) :
    Exact slot zero up s (count slot up counts s) (events ++ [s]) where
  past t among := by
    rcases List.mem_append.mp among with old | new
    · exact before.past t old
    · exact (List.mem_singleton.mp new).le
  counts t latest := by
    rw [SlotRing.count, List.count_append]
    by_cases same : t = s
    · rw [same, Function.update_self, before.counts s (same ▸ latest), List.count_singleton_self,
        Function.iterate_succ_apply']
    · have other : slot t ≠ slot s := fun shared =>
        latest.2 s (lt_of_le_of_ne latest.1 same) le_rfl shared.symm
      rw [Function.update_of_ne other, before.counts t latest, List.count_singleton,
        if_neg (by simpa using Ne.symm same), Nat.add_zero]

end Events

end Shrt.Lib.SlotRing
