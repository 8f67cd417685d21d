import Mathlib.Data.List.TakeWhile

/-!
# Reading through a position

Imperative scanners read a buffer through a position that they move.  Every
access is checked here: reading at a position, or taking a slice, fails outside of
the buffer, and so does a loop that is given too few turns.  What lies ahead of the
position says how each of them ends.
-/

namespace Shrt.Lib.Cursor

/-- What ends a scan before its time. -/
inductive Fault where
  | outOfBounds
  | outOfFuel
  deriving DecidableEq, Repr

variable {α : Type}

/-- The element at a position: `b[pos]`. -/
def read (b : List α) (pos : Nat) : Except Fault α :=
  match b[pos]? with
  | some x => .ok x
  | none => .error .outOfBounds

/-- The elements between two positions: `&b[start..stop]`. -/
def slice (b : List α) (start stop : Nat) : Except Fault (List α) :=
  if start ≤ stop ∧ stop ≤ b.length then .ok ((b.take stop).drop start)
  else .error .outOfBounds

/-- `while pos < b.len() && p(b[pos]) { pos += 1 }`. -/
def skipWhile (p : α → Bool) (b : List α) : Nat → Nat → Except Fault Nat
  | 0, _ => .error .outOfFuel
  | fuel + 1, pos =>
      if pos < b.length then
        (read b pos).bind fun x => if p x then skipWhile p b fuel (pos + 1) else .ok pos
      else .ok pos

/-- What is left of the buffer from a position on; nothing behind its end. -/
def Ahead (b : List α) (pos : Nat) (rest : List α) : Prop :=
  b.drop pos = rest

namespace Ahead

variable {b rest : List α} {pos : Nat} {x : α}

theorem start (b : List α) : Ahead b 0 b :=
  List.drop_zero

theorem length (ahead : Ahead b pos rest) : rest.length = b.length - pos := by
  rw [← ahead, List.length_drop]

theorem nil_iff : Ahead b pos [] ↔ b.length ≤ pos :=
  List.drop_eq_nil_iff

theorem lt (ahead : Ahead b pos (x :: rest)) : pos < b.length := by
  have size := ahead.length
  rw [List.length_cons] at size
  omega

theorem move {front : List α} (ahead : Ahead b pos (front ++ rest)) :
    Ahead b (pos + front.length) rest := by
  rw [Ahead, ← List.drop_drop, ahead, List.drop_left]

theorem tail (ahead : Ahead b pos (x :: rest)) : Ahead b (pos + 1) rest := by
  have first : Ahead b pos ([x] ++ rest) := ahead
  exact first.move

theorem next (ahead : Ahead b pos rest) : Ahead b (pos + 1) (rest.drop 1) := by
  rw [Ahead, ← List.drop_drop, ahead]

theorem read (ahead : Ahead b pos (x :: rest)) : read b pos = .ok x := by
  have here : b[pos]? = some x := by
    rw [← List.head?_drop, ahead, List.head?_cons]
  rw [Cursor.read, here]

/-- A slice that starts at the position is what lies ahead. -/
theorem slice {front : List α} (ahead : Ahead b pos (front ++ rest)) (within : pos ≤ b.length) :
    slice b pos (pos + front.length) = .ok front := by
  have size := ahead.length
  rw [List.length_append] at size
  have bounds : pos ≤ pos + front.length ∧ pos + front.length ≤ b.length := by omega
  rw [Cursor.slice, if_pos bounds, List.drop_take, ahead, Nat.add_sub_cancel_left, List.take_left]

theorem skipWhile_eq (ahead : Ahead b pos rest) (p : α → Bool) {fuel : Nat}
    (enough : rest.length < fuel) :
    skipWhile p b fuel pos = .ok (pos + (rest.takeWhile p).length) := by
  induction fuel generalizing pos rest with
  | zero => cases enough
  | succ fuel ih =>
      cases rest with
      | nil =>
          rw [Cursor.skipWhile, if_neg (Nat.not_lt.mpr (nil_iff.mp ahead))]
          rfl
      | cons x rest =>
          rw [Cursor.skipWhile, if_pos ahead.lt, ahead.read, Except.bind]
          cases passed : p x with
          | true =>
              rw [if_pos rfl, ih ahead.tail (Nat.lt_of_succ_lt_succ enough),
                List.takeWhile_cons_of_pos passed, List.length_cons, Nat.add_assoc, Nat.add_comm 1]
          | false =>
              rw [if_neg Bool.false_ne_true, List.takeWhile_cons_of_neg (by rw [passed]; decide)]
              rfl

/-- As many turns as the buffer has elements are enough: the loop ends at the first
element that it does not pass, and those it passed can be sliced out. -/
theorem skipWhile (ahead : Ahead b pos rest) (p : α → Bool) :
    ∃ pos', skipWhile p b (b.length + 1) pos = .ok pos' ∧ Ahead b pos' (rest.dropWhile p) ∧
      pos ≤ pos' ∧ (pos ≤ b.length →
        pos' ≤ b.length ∧ Cursor.slice b pos pos' = .ok (rest.takeWhile p)) := by
  have split : Ahead b pos (rest.takeWhile p ++ rest.dropWhile p) := by
    rwa [List.takeWhile_append_dropWhile]
  have size := split.length
  rw [List.length_append] at size
  have enough : rest.length < b.length + 1 := by
    rw [ahead.length]
    omega
  refine ⟨_, ahead.skipWhile_eq p enough, split.move, Nat.le_add_right _ _, fun within => ?_⟩
  exact ⟨by omega, split.slice within⟩

end Ahead

end Shrt.Lib.Cursor
