import Mathlib.Algebra.BigOperators.Group.List.Basic
import Mathlib.Algebra.GroupWithZero.Nat
import Mathlib.Data.List.Basic

/-!
# Slices of text by byte offsets

A text is cut at a byte offset only between two characters; an offset inside a
character or behind the end has no slices.
-/

namespace Shrt.Lib.Slices

def utf8Length (cs : List Char) : Nat :=
  (cs.map Char.utf8Size).sum

theorem utf8Length_append (first second : List Char) :
    utf8Length (first ++ second) = utf8Length first + utf8Length second := by
  rw [utf8Length, List.map_append, List.sum_append, utf8Length, utf8Length]

/-- The characters in front of a byte offset and those behind it. -/
def splitAt? : List Char → Nat → Option (List Char × List Char)
  | cs, 0 => some ([], cs)
  | [], _ + 1 => none
  | c :: cs, i + 1 =>
      if c.utf8Size ≤ i + 1 then
        (splitAt? cs (i + 1 - c.utf8Size)).map fun parts => (c :: parts.1, parts.2)
      else none

/-- `&s[..i]`. -/
def sliceTo? (s : String) (i : Nat) : Option String :=
  (splitAt? s.toList i).map fun parts => String.ofList parts.1

/-- `&s[i..]`. -/
def sliceFrom? (s : String) (i : Nat) : Option String :=
  (splitAt? s.toList i).map fun parts => String.ofList parts.2

/-- `s.find(c)`: the byte offset of the first such character. -/
def findByte? (c : Char) : List Char → Option Nat
  | [] => none
  | d :: ds => if d = c then some 0 else (findByte? c ds).map (d.utf8Size + ·)

/-- Between two parts a text can be cut. -/
theorem splitAt?_append (first second : List Char) :
    splitAt? (first ++ second) (utf8Length first) = some (first, second) := by
  induction first with
  | nil =>
      rw [utf8Length, List.map_nil, List.sum_nil, List.nil_append, splitAt?]
  | cons c first ih =>
      have size := c.utf8Size_pos
      have total : utf8Length (c :: first) = c.utf8Size + utf8Length first := by
        simp [utf8Length]
      obtain ⟨i, next⟩ : ∃ i, c.utf8Size + utf8Length first = i + 1 := ⟨_, (Nat.sub_add_cancel
        (by omega)).symm⟩
      have left : i + 1 - c.utf8Size = utf8Length first := by omega
      rw [total, next, List.cons_append, splitAt?, if_pos (by omega), left, ih]
      rfl

theorem sliceTo?_of_append {s : String} {first second : List Char}
    (whole : s.toList = first ++ second) :
    sliceTo? s (utf8Length first) = some (String.ofList first) := by
  rw [sliceTo?, whole, splitAt?_append]
  rfl

theorem sliceFrom?_of_append {s : String} {first second : List Char}
    (whole : s.toList = first ++ second) :
    sliceFrom? s (utf8Length first) = some (String.ofList second) := by
  rw [sliceFrom?, whole, splitAt?_append]
  rfl

/-- The first occurrence is behind the characters that differ. -/
theorem findByte?_eq (c : Char) (cs : List Char) :
    findByte? c cs =
      if c ∈ cs then some (utf8Length (cs.takeWhile fun d => decide (d ≠ c))) else none := by
  induction cs with
  | nil => rfl
  | cons d cs ih =>
      rw [findByte?, ih]
      by_cases first : d = c
      · subst first
        simp [utf8Length]
      · by_cases later : c ∈ cs
        · simp [first, later, utf8Length]
        · simp [first, later, Ne.symm first]

/-- The slice behind the first byte. -/
theorem sliceFrom?_one (s : String) :
    sliceFrom? s 1 = match s.toList with
      | [] => none
      | c :: cs => if c.utf8Size = 1 then some (String.ofList cs) else none := by
  rw [sliceFrom?]
  cases s.toList with
  | nil => rfl
  | cons c cs =>
      have size := c.utf8Size_pos
      rw [splitAt?]
      by_cases single : c.utf8Size = 1
      · rw [if_pos (by omega)]
        simp [splitAt?, single]
      · rw [if_neg (by omega)]
        simp [single]

end Shrt.Lib.Slices
