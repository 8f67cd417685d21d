import Mathlib.Data.Nat.Digits.Lemmas
import Shrt.Codes

/-!
# Base62 numerals

A number is written from the back of a buffer of eleven bytes, one digit for
every division by 62.  A 64-bit number has no more digits than that, and what is
written are its digits in base 62.
-/

namespace Shrt.Base62

open Shrt.Codec Shrt.Lib

def digit (d : Nat) : UInt8 :=
  ALPHABET.getD d 0

/-- The loop of `encode`: the digits of `n` in front of the index `i`.  `none`
where the index would fall below zero. -/
def fill : Nat → UInt64 → Bytes → Option (Nat × Bytes)
  | 0, n, buf => if n = 0 then some (0, buf) else none
  | i + 1, n, buf =>
      if n = 0 then some (i + 1, buf)
      else fill i (n / 62) (buf.set i (digit (n % 62).toNat))

/-- `encode`; `none` also where the bytes are no text, which the source does not
check. -/
def encode (n : UInt64) : Option String :=
  if n = 0 then some "0"
  else (fill 11 n (List.replicate 11 0)).bind fun done => Utf8.decode? (done.2.drop done.1)

def value (numeral : Bytes) : Nat :=
  numeral.foldl (fun acc b => 62 * acc + ALPHABET.idxOf b) 0

def digits (n : Nat) : Bytes :=
  (Nat.digits 62 n).reverse.map digit

/-! ## Digits -/

/-- The alphabet is 62 different letters. -/
theorem alphabet_spec : ALPHABET.length = 62 ∧ ALPHABET.Nodup ∧ ∀ b ∈ ALPHABET, b < 128 := by
  have apart : (ALPHABET.map UInt8.toNat).Nodup := by decide +kernel
  have ascii : (ALPHABET.all fun b => decide (b < 128)) = true := by decide +kernel
  refine ⟨by decide +kernel, apart.of_map, fun b among => ?_⟩
  exact of_decide_eq_true (List.all_eq_true.mp ascii b among)

theorem digit_eq {d : Nat} (inside : d < ALPHABET.length) : digit d = ALPHABET[d] := by
  rw [digit, List.getD_eq_getElem?_getD, List.getElem?_eq_getElem inside, Option.getD_some]

theorem digit_mem {d : Nat} (small : d < 62) : digit d ∈ ALPHABET := by
  rw [← alphabet_spec.1] at small
  rw [digit_eq small]
  exact List.getElem_mem _

theorem idxOf_digit {d : Nat} (small : d < 62) : ALPHABET.idxOf (digit d) = d := by
  rw [← alphabet_spec.1] at small
  rw [digit_eq small]
  exact alphabet_spec.2.1.idxOf_getElem d _

theorem mem_of_mem_digits {n : Nat} {b : UInt8} (member : b ∈ digits n) : b ∈ ALPHABET := by
  obtain ⟨d, among, rfl⟩ := List.mem_map.mp member
  exact digit_mem (Nat.digits_lt_base (by decide) (List.mem_reverse.mp among))

theorem length_digits_le {n width : Nat} (small : n < 62 ^ width) : (digits n).length ≤ width := by
  rw [digits, List.length_map, List.length_reverse]
  exact (Nat.digits_length_le_iff (by decide) n).mpr small

/-- A numeral reads back to its number. -/
theorem value_digits (n : Nat) : value (digits n) = n := by
  have read : ∀ ds : List Nat, (∀ d ∈ ds, d < 62) →
      value (ds.reverse.map digit) = Nat.ofDigits 62 ds := by
    intro ds small
    induction ds with
    | nil => rfl
    | cons d ds ih =>
        have rest := ih fun d' among => small d' (List.mem_cons_of_mem _ among)
        rw [value] at rest
        rw [value, List.reverse_cons, List.map_append, List.foldl_append, rest, List.map_singleton,
          List.foldl_cons, List.foldl_nil, idxOf_digit (small d List.mem_cons_self),
          Nat.ofDigits_cons]
        exact Nat.add_comm _ _
  rw [digits, read _ fun d among => Nat.digits_lt_base (by decide) among, Nat.ofDigits_digits]

/-- No numeral starts with a zero. -/
theorem head?_digits (n : Nat) : (digits n).head? ≠ some 48 := by
  intro leading
  rw [digits, List.head?_map, List.head?_reverse, Option.map_eq_some_iff] at leading
  obtain ⟨d, last, zero⟩ := leading
  have among := List.mem_of_getLast? last
  have nonzero : n ≠ 0 := by
    rintro rfl
    cases among
  have first : d = 0 := by
    rw [← idxOf_digit (Nat.digits_lt_base (by decide) among), zero]
    decide
  rw [List.getLast?_eq_getLast_of_ne_nil (Nat.digits_ne_nil_iff_ne_zero.mpr nonzero),
    Option.some.injEq, first] at last
  exact Nat.getLast_digit_ne_zero 62 nonzero last

/-! ## The loop -/

/-- The loop writes the numeral in front of what the buffer holds behind the index. -/
theorem fill_eq {i : Nat} {n : UInt64} {buf : Bytes} (inside : i ≤ buf.length)
    (small : n.toNat < 62 ^ i) :
    ∃ j buf', fill i n buf = some (j, buf') ∧ buf'.drop j = digits n.toNat ++ buf.drop i := by
  induction i generalizing n buf with
  | zero =>
      obtain rfl : n = 0 := UInt64.toNat_inj.mp (by simpa using small)
      exact ⟨0, buf, if_pos rfl, rfl⟩
  | succ i ih =>
      by_cases done : n = 0
      · subst done
        exact ⟨i + 1, buf, if_pos rfl, rfl⟩
      · have positive : 0 < n.toNat :=
          Nat.pos_of_ne_zero fun zero => done (UInt64.toNat_inj.mp zero)
        have quotient : (n / 62).toNat = n.toNat / 62 := UInt64.toNat_div n 62
        have remainder : (n % 62).toNat = n.toNat % 62 := UInt64.toNat_mod n 62
        have fewer : (n / 62).toNat < 62 ^ i := by
          rw [quotient]
          exact Nat.div_lt_of_lt_mul (by rwa [Nat.pow_succ'] at small)
        have shorter : i ≤ (buf.set i (digit (n % 62).toNat)).length := by
          rw [List.length_set]
          omega
        obtain ⟨j, buf', filled, written⟩ := ih shorter fewer
        refine ⟨j, buf', ?_, ?_⟩
        · rw [fill, if_neg done, filled]
        · have behind : (buf.set i (digit (n % 62).toNat)).drop i =
              digit (n.toNat % 62) :: buf.drop (i + 1) := by
            rw [remainder, List.drop_set, if_neg (Nat.lt_irrefl i), Nat.sub_self,
              List.drop_eq_getElem_cons inside, List.set_cons_zero]
          rw [written, behind, quotient, digits, digits, Nat.digits_def' (by decide) positive,
            List.reverse_cons, List.map_append, List.append_assoc]
          rfl

/-- Eleven digits are enough for every number of the type. -/
theorem encode_eq {n : UInt64} (positive : n ≠ 0) :
    ∃ s, encode n = some s ∧ Utf8.encode s = digits n.toNat := by
  have small : n.toNat < 62 ^ 11 := n.toNat_lt.trans (by decide)
  have ascii : ∀ b ∈ digits n.toNat, b < 128 :=
    fun b among => alphabet_spec.2.2 b (mem_of_mem_digits among)
  have whole : 11 ≤ (List.replicate 11 (0 : UInt8)).length := Nat.le_refl _
  obtain ⟨j, buf, filled, written⟩ := fill_eq whole small
  have room : (List.replicate 11 0 : Bytes).drop 11 = [] := rfl
  rw [room, List.append_nil] at written
  refine ⟨String.ofList ((digits n.toNat).map Utf8.asciiChar), ?_, Utf8.encode_ascii ascii⟩
  rw [encode, if_neg positive, filled, Option.bind_some, written, Utf8.decode?_ascii ascii]

/-- Every number is rendered as its shortest numeral, within the buffer, and no two
alike. -/
theorem encode_exact :
    (∀ n : UInt64, ∃ s, encode n = some s ∧ (∀ b ∈ Utf8.encode s, b ∈ ALPHABET) ∧
        ((Utf8.encode s).head? = some 48 → n = 0) ∧ value (Utf8.encode s) = n.toNat ∧
        (Utf8.encode s).length ≤ 11) ∧
      Function.Injective encode := by
  have rendered : ∀ n : UInt64, ∃ s, encode n = some s ∧ (∀ b ∈ Utf8.encode s, b ∈ ALPHABET) ∧
      ((Utf8.encode s).head? = some 48 → n = 0) ∧ value (Utf8.encode s) = n.toNat ∧
      (Utf8.encode s).length ≤ 11 := by
    intro n
    by_cases zero : n = 0
    · subst zero
      have listed : ∀ b ∈ Utf8.encode "0", b ∈ ALPHABET := by
        rw [show Utf8.encode "0" = [48] by decide, List.forall_mem_singleton]
        decide
      exact ⟨"0", rfl, listed, fun _ => rfl, by decide, by decide⟩
    · obtain ⟨s, same, numeral⟩ := encode_eq zero
      refine ⟨s, same, ?_⟩
      rw [numeral]
      exact ⟨fun b => mem_of_mem_digits, fun leading => absurd leading (head?_digits _),
        value_digits _, length_digits_le (n.toNat_lt.trans (by decide))⟩
  refine ⟨rendered, fun n m same => ?_⟩
  obtain ⟨s, first, -, -, number, -⟩ := rendered n
  obtain ⟨s', second, -, -, number', -⟩ := rendered m
  obtain rfl : s = s' := Option.some.inj (first.symm.trans (same.trans second))
  exact UInt64.toNat_inj.mp (number.symm.trans number')

example : [0, 1, 61, 62, 3843].map encode = ["0", "1", "Z", "10", "ZZ"].map some := by
  decide +kernel

end Shrt.Base62
