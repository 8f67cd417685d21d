import Mathlib.Data.List.Basic
import Shrt.Kv.Value

/-!
# Rows of the oldest format

The first rows held an expiry and a url, without a creation time.  The decoder
tells them from later ones by a second bar, and a url may hold one: then its
front is read as the creation time that is not there.
-/

namespace Shrt.Kv

open Shrt.Codec Shrt.Lib.Utf8 Shrt.Lib.Decimal

/-- A url that starts with `http://` or `https://`, in any letter case. -/
def webUrl (u : String) : Bool :=
  "http://".toList.isPrefixOf (u.toList.map Char.toLower) ||
    "https://".toList.isPrefixOf (u.toList.map Char.toLower)

/-- The oldest value of a link, `{e}|{u}`. -/
def oldestVal (e : Int64) (u : String) : Bytes :=
  itoa [] e ++ pipe :: encode u

theorem letter_of_toLower {c : Char} (lower : c.toLower = 'h') : c = 'h' ∨ c = 'H' := by
  unfold Char.toLower at lower
  split at lower
  · right
    have value : c.val + ('a'.val - 'A'.val) = 'h'.val := congrArg Char.val lower
    apply Char.ext
    calc c.val = c.val + ('a'.val - 'A'.val) - ('a'.val - 'A'.val) := by simp
      _ = 'H'.val := by rw [value]; decide
  · exact Or.inl lower

/-- A web url starts with a letter. -/
theorem exists_letter {u : String} (web : webUrl u = true) :
    ∃ c cs, (c = 'h' ∨ c = 'H') ∧ u.toList = c :: cs := by
  rw [webUrl, Bool.or_eq_true, List.isPrefixOf_iff_prefix, List.isPrefixOf_iff_prefix] at web
  have front : ∃ rest, u.toList.map Char.toLower = 'h' :: rest := by
    rcases web with ⟨rest, same⟩ | ⟨rest, same⟩
    · exact ⟨_, same.symm⟩
    · exact ⟨_, same.symm⟩
  obtain ⟨rest, lowered⟩ := front
  obtain ⟨c, cs, split, lower, -⟩ := List.map_eq_cons_iff.mp lowered
  exact ⟨c, cs, letter_of_toLower lower, split⟩

/-- A number starts with a digit or a sign. -/
theorem parseI64?_letter {c : Char} (letter : c = 'h' ∨ c = 'H') (cs : List Char) :
    parseI64? (String.ofList (c :: cs)) = none := by
  have noDigit : digit? c = none ∧ c ≠ '-' ∧ c ≠ '+' := by
    rcases letter with rfl | rfl
    · decide
    · decide
  rw [parseI64?_unsigned noDigit.2.1 noDigit.2.2, readNat?, if_neg (by simp), readDigits, noDigit.1]
  rfl

theorem decVal_oldestVal (e : Int64) (u : String) :
    decVal (oldestVal e u) =
      (splitPipe (encode u)).elim (some ⟨e, 0, u⟩) fun rest =>
        (parseField rest.1).bind fun c => (decode? rest.2).map fun v => ⟨e, c, v⟩ := by
  rw [oldestVal, decVal, not_tag_itoa]
  simp only [Bool.false_eq_true, if_false, splitPipe_append (pipe_not_mem_itoa e),
    Option.bind_some, parseField_itoa, decode?_encode, Option.map_some]
  cases splitPipe (encode u) with
  | none => rfl
  | some rest => rfl

/-- The oldest rows are read back exactly when their url holds no bar. -/
theorem oldest_decodes_iff (e : Int64) {u : String} (web : webUrl u = true) :
    decVal (oldestVal e u) = some ⟨e, 0, u⟩ ↔ '|' ∉ u.toList := by
  rw [decVal_oldestVal]
  constructor
  · intro read barred
    obtain ⟨c, cs, letter, split⟩ := exists_letter web
    have kept : (c != '|') = true := by
      rcases letter with rfl | rfl
      · decide
      · decide
    obtain ⟨behind, parts⟩ := splitPipe_encode barred
    have noTime : parseField (encode (String.ofList (u.toList.takeWhile (· != '|')))) = none := by
      rw [parseField, decode?_encode, Option.bind_some, split, List.takeWhile_cons, if_pos kept]
      exact parseI64?_letter letter _
    rw [parts, Option.elim_some, noTime] at read
    cases read
  · intro solid
    rw [splitPipe_eq_none (mt pipe_mem_encode_iff.mp solid), Option.elim_none]

theorem oldest_decodes_example :
    decVal (oldestVal 111 "https://x.example") = some ⟨111, 0, "https://x.example"⟩ :=
  (oldest_decodes_iff 111 (by decide)).mpr (by decide)

/-- A bar in the query makes the row unreadable. -/
theorem barred_url_unread :
    ¬ ∀ (e : Int64) (u : String), webUrl u = true → decVal (oldestVal e u) = some ⟨e, 0, u⟩ := by
  intro every
  have read := every 111 "https://x.example?a|b" (by decide)
  have unread : decVal (oldestVal 111 "https://x.example?a|b") = none := by decide +kernel
  rw [unread] at read
  cases read

end Shrt.Kv
