import Mathlib.Data.List.Basic
import Shrt.Codec.RoundTrip

/-!
# Stored values

A link is stored outside the process as `v1|{e}|{c}|{u}`: expiry, creation time
and url.  Older rows without the version tag, and without the creation time,
are still read.
-/

namespace Shrt.Kv

open Shrt.Codec Shrt.Lib.Utf8 Shrt.Lib.Decimal

def pipe : UInt8 := 124

def TAG : Bytes := encode "v1|"

structure Row where
  e : Int64
  c : Int64
  u : String
  deriving DecidableEq, Repr

def encVal (e c : Int64) (u : String) : Bytes :=
  TAG ++ itoa [] e ++ [pipe] ++ itoa [] c ++ [pipe] ++ encode u

/-- The bytes in front of the first `|` and those behind it. -/
def splitPipe : Bytes → Option (Bytes × Bytes)
  | [] => none
  | b :: bs =>
      if b = pipe then some ([], bs)
      else (splitPipe bs).map fun parts => (b :: parts.1, parts.2)

/-- `std::str::from_utf8(..).ok()?.parse().ok()?`. -/
def parseField (b : Bytes) : Option Int64 :=
  (decode? b).bind parseI64?

def decVal (v : Bytes) : Option Row :=
  let v := if TAG.isPrefixOf v then v.drop 3 else v
  (splitPipe v).bind fun parts =>
    (parseField parts.1).bind fun e =>
      match splitPipe parts.2 with
      | some rest =>
          (parseField rest.1).bind fun c => (decode? rest.2).map fun u => ⟨e, c, u⟩
      | none => (decode? parts.2).map fun u => ⟨e, 0, u⟩

/-! ## Reading back -/

theorem splitPipe_append {first : Bytes} (solid : pipe ∉ first) (rest : Bytes) :
    splitPipe (first ++ pipe :: rest) = some (first, rest) := by
  induction first with
  | nil => simp [splitPipe]
  | cons b first ih =>
      rw [List.mem_cons, not_or] at solid
      rw [List.cons_append, splitPipe, if_neg (Ne.symm solid.1), ih solid.2]
      rfl

theorem splitPipe_eq_none {bs : Bytes} (solid : pipe ∉ bs) : splitPipe bs = none := by
  induction bs with
  | nil => rfl
  | cons b bs ih =>
      rw [List.mem_cons, not_or] at solid
      rw [splitPipe, if_neg (Ne.symm solid.1), ih solid.2]
      rfl

theorem pipe_mem_encode_iff {s : String} : pipe ∈ encode s ↔ '|' ∈ s.toList :=
  mem_encode_iff (by decide)

/-- The first bar of a text is the first bar byte of its encoding. -/
theorem splitPipe_encode {s : String} (barred : '|' ∈ s.toList) :
    ∃ rest, splitPipe (encode s) =
      some (encode (String.ofList (s.toList.takeWhile (· != '|'))), rest) := by
  have stop : s.toList.dropWhile (· != '|') ≠ [] := by
    intro none_left
    have all := List.dropWhile_eq_nil_iff.mp none_left '|' barred
    exact absurd all (by decide)
  obtain ⟨c, cs, behind⟩ := List.exists_cons_of_ne_nil stop
  have bar : c = '|' := by
    have head := List.head_dropWhile_not (p := (· != '|')) stop
    simpa [behind] using head
  rw [bar] at behind
  have split : s = String.ofList (s.toList.takeWhile (· != '|')) ++ String.ofList ('|' :: cs) := by
    apply String.toList_inj.mp
    rw [String.toList_append, String.toList_ofList, String.toList_ofList, ← behind,
      List.takeWhile_append_dropWhile]
  have solid : pipe ∉ encode (String.ofList (s.toList.takeWhile (· != '|'))) := by
    rw [pipe_mem_encode_iff, String.toList_ofList]
    intro inside
    exact absurd (List.mem_takeWhile_imp inside) (by decide)
  have bytes : encode (String.ofList ('|' :: cs)) = pipe :: encode (String.ofList cs) := by
    rw [encode, String.toList_ofList, List.flatMap_cons, encode, String.toList_ofList]
    rfl
  refine ⟨encode (String.ofList cs), ?_⟩
  conv_lhs => rw [split, encode_append, bytes]
  exact splitPipe_append solid _

theorem pipe_not_mem_itoa (n : Int64) : pipe ∉ itoa [] n := by
  intro member
  have := itoa_numberByte member
  revert this
  decide

theorem parseField_itoa (n : Int64) : parseField (itoa [] n) = some n := by
  have ascii : ∀ b ∈ itoa [] n, b < 128 := fun b member =>
    (numberByte_spec (itoa_numberByte member)).2.2.2.2.1
  rw [parseField, decode?_ascii ascii, Option.bind_some, parseI64?_itoa]

/-- The fields behind the tag, as older versions stored them alone. -/
def untaggedVal (e c : Int64) (u : String) : Bytes :=
  itoa [] e ++ [pipe] ++ itoa [] c ++ [pipe] ++ encode u

theorem encVal_eq (e c : Int64) (u : String) : encVal e c u = TAG ++ untaggedVal e c u := by
  simp [encVal, untaggedVal]

theorem drop_encVal (e c : Int64) (u : String) : (encVal e c u).drop 3 = untaggedVal e c u := by
  rw [encVal_eq]
  exact List.drop_left' (by decide)

/-- A number is not taken for the version tag. -/
theorem not_tag_itoa (n : Int64) (rest : Bytes) :
    TAG.isPrefixOf (itoa [] n ++ rest) = false := by
  cases shape : itoa [] n with
  | nil => exact absurd shape (itoa_ne_nil n)
  | cons b bs =>
      have number : numberByte b = true := itoa_numberByte (n := n) (shape ▸ List.mem_cons_self)
      have other : (118 : UInt8) ≠ b := by
        rintro rfl
        revert number
        decide
      rw [show TAG = [118, 49, 124] by decide, List.cons_append, List.isPrefixOf,
        beq_false_of_ne other, Bool.false_and]

theorem decVal_untaggedVal (e c : Int64) (u : String) :
    decVal (untaggedVal e c u) = some ⟨e, c, u⟩ := by
  have shape : untaggedVal e c u = itoa [] e ++ pipe :: (itoa [] c ++ pipe :: encode u) := by
    simp [untaggedVal]
  rw [decVal, shape, not_tag_itoa]
  simp only [Bool.false_eq_true, if_false, splitPipe_append (pipe_not_mem_itoa e),
    splitPipe_append (pipe_not_mem_itoa c), Option.bind_some, parseField_itoa, decode?_encode,
    Option.map_some]

/-- A tag in front of the fields changes nothing. -/
theorem decVal_tagged (e c : Int64) (u : String) :
    decVal (encVal e c u) = decVal (untaggedVal e c u) := by
  have tagged : TAG.isPrefixOf (encVal e c u) = true := by
    rw [List.isPrefixOf_iff_prefix, encVal_eq]
    exact List.prefix_append _ _
  have bare : TAG.isPrefixOf (untaggedVal e c u) = false := by
    rw [untaggedVal, List.append_assoc, List.append_assoc, List.append_assoc]
    exact not_tag_itoa e _
  rw [decVal, decVal, tagged, bare, if_pos rfl, if_neg (by simp), drop_encVal]

theorem decVal_encVal (e c : Int64) (u : String) : decVal (encVal e c u) = some ⟨e, c, u⟩ := by
  rw [decVal_tagged, decVal_untaggedVal]

/-- Stored values are read back, with the version tag and without it. -/
theorem stored_values_round_trip :
    (∀ (e c : Int64) (u : String), decVal (encVal e c u) = some ⟨e, c, u⟩ ∧
      decVal ((encVal e c u).drop 3) = some ⟨e, c, u⟩) ∧
    ∀ (e c e' c' : Int64) (u u' : String),
      encVal e c u = encVal e' c' u' → e = e' ∧ c = c' ∧ u = u' := by
  constructor
  · intro e c u
    exact ⟨decVal_encVal e c u, by rw [drop_encVal, decVal_untaggedVal]⟩
  · intro e c e' c' u u' same
    have rows := congrArg decVal same
    rw [decVal_encVal, decVal_encVal] at rows
    cases rows
    exact ⟨rfl, rfl, rfl⟩

/-- A value without a bar is no row. -/
theorem decVal_eq_none {v : Bytes} (solid : pipe ∉ v) : decVal v = none := by
  have untagged : TAG.isPrefixOf v = false := by
    by_contra tagged
    rw [Bool.not_eq_false, List.isPrefixOf_iff_prefix] at tagged
    exact solid (tagged.subset (by decide))
  simp [decVal, untagged, splitPipe_eq_none solid]

end Shrt.Kv
