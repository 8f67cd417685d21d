import Mathlib.Data.List.Basic
import Mathlib.Tactic.Linarith
import Mathlib.Tactic.NormNum
import Shrt.Lib.Utf8

/-!
# Decimal integers

Digits are produced from the right into a buffer of fixed room and read from
the left.  Signed 64-bit numbers are read with an optional sign and a range
check, as the standard library's `parse` does.
-/

namespace Shrt.Lib.Decimal

open Shrt.Lib.Utf8

/-- Write the digits of `v` in front of `acc`; `room` bounds their number. -/
def writeDigits : Nat → Nat → List UInt8 → List UInt8
  | 0, _, acc => acc
  | room + 1, v, acc =>
      let acc := UInt8.ofNat (48 + v % 10) :: acc
      if v / 10 = 0 then acc else writeDigits room (v / 10) acc

def digit? (c : Char) : Option Nat :=
  if '0' ≤ c ∧ c ≤ '9' then some (c.toNat - 48) else none

def readDigits : Nat → List Char → Option Nat
  | acc, [] => some acc
  | acc, c :: cs => (digit? c).bind fun d => readDigits (10 * acc + d) cs

/-- A number needs at least one digit. -/
def readNat? (cs : List Char) : Option Nat :=
  if cs = [] then none else readDigits 0 cs

/-- The integer as a signed 64-bit value, when it fits. -/
def fit64? (n : Int) : Option Int64 :=
  if -2 ^ 63 ≤ n ∧ n < 2 ^ 63 then some (Int64.ofInt n) else none

def parseI64? (s : String) : Option Int64 :=
  match s.toList with
  | '-' :: cs => (readNat? cs).bind fun v => fit64? (-(v : Int))
  | '+' :: cs => (readNat? cs).bind fun v => fit64? v
  | cs => (readNat? cs).bind fun v => fit64? v

theorem digit?_asciiChar {d : Nat} (small : d < 10) :
    digit? (asciiChar (UInt8.ofNat (48 + d))) = some d := by
  revert small
  revert d
  decide

theorem writeDigits_append (room v : Nat) (acc tail : List UInt8) :
    writeDigits room v (acc ++ tail) = writeDigits room v acc ++ tail := by
  induction room generalizing v acc with
  | zero => rfl
  | succ room ih =>
      simp only [writeDigits]
      split
      · rfl
      · exact ih (v / 10) (_ :: acc)

/-- Every byte written is an ASCII digit. -/
theorem writeDigits_digit (room v : Nat) {b : UInt8}
    (hb : b ∈ writeDigits room v []) : 48 ≤ b ∧ b ≤ 57 := by
  induction room generalizing v with
  | zero => simp [writeDigits] at hb
  | succ room ih =>
      have last : (48 : UInt8) ≤ UInt8.ofNat (48 + v % 10) ∧
          UInt8.ofNat (48 + v % 10) ≤ 57 := by
        have small : v % 10 < 10 := Nat.mod_lt _ (by omega)
        generalize v % 10 = d at small
        revert d
        decide
      simp only [writeDigits] at hb
      split at hb
      · rw [List.mem_singleton] at hb
        exact hb ▸ last
      · rw [← List.nil_append [_], writeDigits_append, List.mem_append,
          List.mem_singleton] at hb
        rcases hb with hb | hb
        · exact ih (v / 10) hb
        · exact hb ▸ last

theorem writeDigits_ne_nil (room v : Nat) :
    writeDigits (room + 1) v [] ≠ [] := by
  simp only [writeDigits]
  split
  · simp
  · rw [← List.nil_append [_], writeDigits_append]
    simp

theorem readDigits_append (acc : Nat) (first second : List Char) :
    readDigits acc (first ++ second) =
      (readDigits acc first).bind fun v => readDigits v second := by
  induction first generalizing acc with
  | nil => rfl
  | cons c cs ih =>
      simp only [List.cons_append, readDigits]
      cases digit? c with
      | none => rfl
      | some d => exact ih (10 * acc + d)

/-- Reading undoes writing when the room suffices. -/
theorem readDigits_writeDigits {room v : Nat} (fits : v < 10 ^ room)
    (positive : 0 < room) :
    readDigits 0 ((writeDigits room v []).map asciiChar) = some v := by
  induction room generalizing v with
  | zero => omega
  | succ room ih =>
      have last := digit?_asciiChar (Nat.mod_lt v (show 0 < 10 by omega))
      simp only [writeDigits]
      split
      · rename_i single
        simp only [List.map_cons, List.map_nil, readDigits, last]
        simp
        omega
      · rename_i more
        have quotient : v / 10 < 10 ^ room := by
          rw [Nat.div_lt_iff_lt_mul (by omega)]
          rwa [pow_succ] at fits
        have roomPositive : 0 < room := by
          rcases Nat.eq_zero_or_pos room with zero | pos
          · subst zero
            simp at quotient
            omega
          · exact pos
        have front := ih quotient roomPositive
        rw [← List.nil_append [UInt8.ofNat (48 + v % 10)], writeDigits_append,
          List.map_append, readDigits_append, front]
        simp only [Option.bind_some, List.map_cons, List.map_nil, readDigits,
          last]
        simp
        omega

theorem parseI64?_negative (cs : List Char) :
    parseI64? (String.ofList ('-' :: cs)) =
      (readNat? cs).bind fun v => fit64? (-(v : Int)) := by
  rw [parseI64?, String.toList_ofList]
  rfl

theorem parseI64?_unsigned {c : Char} (noDash : c ≠ '-') (noPlus : c ≠ '+')
    (cs : List Char) :
    parseI64? (String.ofList (c :: cs)) =
      (readNat? (c :: cs)).bind fun v => fit64? v := by
  rw [parseI64?, String.toList_ofList]
  split
  · simp_all
  · simp_all
  · rfl

theorem fit64?_toInt (n : Int64) : fit64? n.toInt = some n := by
  have low := n.le_toInt
  have high := n.toInt_lt
  rw [fit64?, if_pos ⟨low, high⟩, Int64.ofInt_toInt]

/-! ## Numbers cut short -/

theorem le_of_readDigits {acc v : Nat} {cs : List Char} (read : readDigits acc cs = some v) :
    acc ≤ v := by
  induction cs generalizing acc with
  | nil =>
      cases read
      exact Nat.le_refl v
  | cons c cs ih =>
      obtain ⟨d, -, later⟩ := Option.bind_eq_some_iff.mp read
      have grown := ih later
      omega

/-- No number but zero starts with the digit 0. -/
theorem exists_head_writeDigits {room v : Nat} (fits : v < 10 ^ room) (positive : 0 < v) :
    ∃ d tail, 0 < d ∧ d < 10 ∧ writeDigits room v [] = UInt8.ofNat (48 + d) :: tail := by
  induction room generalizing v with
  | zero => omega
  | succ room ih =>
      simp only [writeDigits]
      split
      · exact ⟨v % 10, [], by omega, by omega, rfl⟩
      · rename_i more
        have quotient : v / 10 < 10 ^ room := by
          rw [Nat.div_lt_iff_lt_mul (by omega)]
          rwa [pow_succ] at fits
        obtain ⟨d, tail, low, high, front⟩ := ih quotient (by omega)
        refine ⟨d, tail ++ [UInt8.ofNat (48 + v % 10)], low, high, ?_⟩
        rw [← List.nil_append [UInt8.ofNat (48 + v % 10)], writeDigits_append, front]
        rfl

/-- The first digits of a number are those of a smaller number, which is zero
only if the number is. -/
theorem exists_readNat?_take {room v j : Nat} (fits : v < 10 ^ (room + 1)) (some_left : 0 < j) :
    ∃ m, m ≤ v ∧ (0 < v → 0 < m) ∧
      readNat? (((writeDigits (room + 1) v []).take j).map asciiChar) = some m := by
  have nonempty : ((writeDigits (room + 1) v []).take j).map asciiChar ≠ [] := by
    have digits := writeDigits_ne_nil room v
    simp [digits, Nat.ne_of_gt some_left]
  have whole := readDigits_writeDigits fits (Nat.succ_pos room)
  rw [← List.take_append_drop j (writeDigits (room + 1) v []), List.map_append,
    readDigits_append] at whole
  obtain ⟨m, front, behind⟩ := Option.bind_eq_some_iff.mp whole
  refine ⟨m, le_of_readDigits behind, fun positive => ?_, by rw [readNat?, if_neg nonempty, front]⟩
  obtain ⟨d, tail, low, high, digits⟩ := exists_head_writeDigits fits positive
  obtain ⟨j, rfl⟩ := Nat.exists_eq_succ_of_ne_zero (Nat.ne_of_gt some_left)
  rw [digits, List.take_succ_cons, List.map_cons, readDigits, digit?_asciiChar high,
    Option.bind_some, Nat.mul_zero, Nat.zero_add] at front
  exact Nat.lt_of_lt_of_le low (le_of_readDigits front)

theorem parseI64?_of_digits {cs : List Char} {m : Nat} (read : readNat? cs = some m)
    (range : m < 2 ^ 63) : parseI64? (String.ofList cs) = some (Int64.ofInt m) := by
  cases cs with
  | nil => cases read
  | cons c cs =>
      have first : '0' ≤ c ∧ c ≤ '9' := by
        rw [readNat?, if_neg (by simp), readDigits] at read
        by_contra bad
        simp [digit?, bad] at read
      have noDash : c ≠ '-' := by
        rintro rfl
        exact absurd first (by decide)
      have noPlus : c ≠ '+' := by
        rintro rfl
        exact absurd first (by decide)
      rw [parseI64?_unsigned noDash noPlus, read, Option.bind_some, fit64?, if_pos (by omega)]

/-- The first digits of a number that fits are read as a number again. -/
theorem exists_parseI64?_take {v j : Nat} (range : v < 2 ^ 63) (some_left : 0 < j) :
    ∃ m, m ≤ v ∧ (0 < v → 0 < m) ∧
      parseI64? (String.ofList (((writeDigits 20 v []).take j).map asciiChar)) =
        some (Int64.ofInt m) := by
  have fits : v < 10 ^ (19 + 1) := by
    norm_num
    omega
  obtain ⟨m, below, positive, read⟩ := exists_readNat?_take fits some_left
  exact ⟨m, below, positive, parseI64?_of_digits read (by omega)⟩

theorem parseI64?_writeDigits {v : Nat} (range : v < 2 ^ 63) :
    parseI64? (String.ofList ((writeDigits 20 v []).map asciiChar)) = some (Int64.ofInt v) := by
  have fits : v < 10 ^ 20 := by
    norm_num
    omega
  have nonempty := writeDigits_ne_nil 19 v
  have whole := readDigits_writeDigits fits (by omega)
  refine parseI64?_of_digits ?_ range
  rw [readNat?, if_neg (by simpa using nonempty), whole]

theorem encode_digitChar {d : Nat} (small : d < 10) :
    encode (String.singleton d.digitChar) = [UInt8.ofNat (48 + d)] := by
  revert small
  revert d
  decide

/-- With enough room the digits written are those of `toString`. -/
theorem writeDigits_eq_encode {room v : Nat} (fits : v < 10 ^ room) (positive : 0 < room) :
    writeDigits room v [] = encode (toString v) := by
  induction room generalizing v with
  | zero => omega
  | succ room ih =>
      have last := encode_digitChar (Nat.mod_lt v (show 0 < 10 by omega))
      rw [Nat.toString_eq_repr]
      unfold writeDigits
      split
      · rename_i single
        have digit : v < 10 := by omega
        rw [Nat.repr_of_lt digit, ← last, Nat.mod_eq_of_lt digit]
      · rename_i more
        have quotient : v / 10 < 10 ^ room := by
          rw [Nat.div_lt_iff_lt_mul (by omega)]
          rwa [pow_succ] at fits
        have roomPositive : 0 < room := by
          apply Nat.pos_of_ne_zero
          rintro rfl
          omega
        have front := ih quotient roomPositive
        rw [Nat.toString_eq_repr] at front
        rw [Nat.repr_of_ge (by omega), encode_append, last, ← front, ← writeDigits_append,
          List.nil_append]

end Shrt.Lib.Decimal
