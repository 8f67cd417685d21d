import Mathlib.Data.List.Basic
import Mathlib.Data.List.TakeDrop
import Shrt.Lib.Decimal
import Shrt.Lib.Pull

/-!
# Messages with a head and a body

A message is a start line, fields and a body.  Every line of the head ends with CR
LF and an empty line closes it; a field tells the length of the body, and some
messages have none whatever the field says.  Messages in a row are read one by one,
so long as their lines hold no CR and their lengths are told right.
-/

namespace Shrt.Lib.Messages

open Shrt.Lib.Utf8 Shrt.Lib.Decimal

/-- A message as it is read: names in lower case, values without blanks around. -/
structure Message where
  start : List UInt8
  fields : List (List UInt8 × List UInt8)
  body : List UInt8
  deriving DecidableEq

/-- A reader of bytes that fails where it finds too little. -/
abbrev Incoming (α : Type) := Pull UInt8 Unit α

def crlf : List UInt8 :=
  [13, 10]

def splitLine : List UInt8 → Option (List UInt8 × List UInt8)
  | [] => none
  | [_] => none
  | b :: b' :: rest =>
      if b = 13 ∧ b' = 10 then some ([], rest)
      else (splitLine (b' :: rest)).map fun r => (b :: r.1, r.2)

def line : Incoming (List UInt8) := fun input =>
  match splitLine input with
  | some r => .ok r
  | none => .error ()

def blank (b : UInt8) : Bool :=
  b == 32 || b == 9

def trim (value : List UInt8) : List UInt8 :=
  ((value.dropWhile blank).reverse.dropWhile blank).reverse

def lower (b : UInt8) : UInt8 :=
  if 65 ≤ b ∧ b ≤ 90 then b + 32 else b

def readField (line : List UInt8) : List UInt8 × List UInt8 :=
  let parts := line.span (· ≠ 58)
  (parts.1.map lower, trim (parts.2.drop 1))

def value? (fields : List (List UInt8 × List UInt8)) (name : List UInt8) : Option (List UInt8) :=
  (fields.find? fun field => field.1 == name).map Prod.snd

/-- The lines up to the empty one; the fuel bounds their number. -/
def fieldsFuel : Nat → Incoming (List (List UInt8 × List UInt8))
  | 0 => throw ()
  | fuel + 1 => do
      let l ← line
      if l = [] then return []
      else
        let fields ← fieldsFuel fuel
        return readField l :: fields

/-- No head has more lines than bytes. -/
def fields : Incoming (List (List UInt8 × List UInt8)) := fun input =>
  (fieldsFuel (input.length + 1)).run input

def exactly (n : Nat) : Incoming (List UInt8) := fun input =>
  if n ≤ input.length then .ok (input.take n, input.drop n) else .error ()

/-- The length that a head tells; none for a message without a body. -/
def bodyLength (bodyless : List UInt8 → Bool) (start : List UInt8)
    (fields : List (List UInt8 × List UInt8)) : Nat :=
  if bodyless start then 0
  else
    (((value? fields (encode "content-length")).bind decode?).bind fun s =>
      readNat? s.toList).getD 0

def message (bodyless : List UInt8 → Bool) : Incoming Message := do
  let start ← line
  let fields ← fields
  let body ← exactly (bodyLength bodyless start fields)
  return ⟨start, fields, body⟩

def wire (start : List UInt8) (lines : List (List UInt8)) (body : List UInt8) : List UInt8 :=
  start ++ crlf ++ (lines.flatMap (· ++ crlf) ++ crlf) ++ body

/-! ## Reading what was written -/

theorem splitLine_append {l : List UInt8} (clean : 13 ∉ l) (rest : List UInt8) :
    splitLine (l ++ crlf ++ rest) = some (l, rest) := by
  induction l with
  | nil => rfl
  | cons b l ih =>
      rw [List.mem_cons, not_or] at clean
      have later := ih clean.2
      cases more : l ++ crlf ++ rest with
      | nil =>
          rw [more] at later
          cases later
      | cons b' tail =>
          rw [more] at later
          rw [List.cons_append, List.cons_append, more, splitLine,
            if_neg fun both => clean.1 both.1.symm, later]
          rfl

theorem line_reads {l : List UInt8} (clean : 13 ∉ l) : line.Reads (l ++ crlf) l := by
  intro rest
  change line (l ++ crlf ++ rest) = _
  rw [line, splitLine_append clean]

theorem exactly_reads (body : List UInt8) : (exactly body.length).Reads body body := by
  intro rest
  change exactly body.length (body ++ rest) = _
  rw [exactly, if_pos (by simp), List.take_left, List.drop_left]

theorem fieldsFuel_reads {lines : List (List UInt8)} (clean : ∀ l ∈ lines, l ≠ [] ∧ 13 ∉ l)
    {fuel : Nat} (enough : lines.length < fuel) :
    (fieldsFuel fuel).Reads (lines.flatMap (· ++ crlf) ++ crlf) (lines.map readField) := by
  induction lines generalizing fuel with
  | nil =>
      obtain ⟨fuel, rfl⟩ := Nat.exists_eq_succ_of_ne_zero (Nat.ne_of_gt enough)
      intro rest
      have read : line.run (crlf ++ rest) = .ok ([], rest) := line_reads List.not_mem_nil rest
      change (fieldsFuel (fuel + 1)).run (crlf ++ rest) = _
      rw [fieldsFuel, Pull.run_bind_of_ok read, if_pos rfl]
      rfl
  | cons l lines ih =>
      obtain ⟨fuel, rfl⟩ := Nat.exists_eq_succ_of_ne_zero (Nat.ne_of_gt (Nat.zero_lt_of_lt enough))
      obtain ⟨full, plain⟩ := clean l List.mem_cons_self
      have later := ih (fun l' among => clean l' (List.mem_cons_of_mem _ among))
        (Nat.lt_of_succ_lt_succ enough)
      rw [List.flatMap_cons, List.append_assoc, fieldsFuel, List.map_cons]
      refine (line_reads plain).bind ?_
      rw [if_neg full]
      exact later.map _

theorem fields_reads {lines : List (List UInt8)} (clean : ∀ l ∈ lines, l ≠ [] ∧ 13 ∉ l) :
    fields.Reads (lines.flatMap (· ++ crlf) ++ crlf) (lines.map readField) := by
  intro rest
  have few : lines.length ≤ (lines.flatMap (· ++ crlf)).length := by
    induction lines with
    | nil => exact Nat.le_refl _
    | cons l lines ih =>
        have later := ih fun l' among => clean l' (List.mem_cons_of_mem _ among)
        rw [List.flatMap_cons, List.length_append, List.length_append, List.length_cons]
        have two : crlf.length = 2 := rfl
        omega
  refine fieldsFuel_reads clean ?_ rest
  rw [List.length_append, List.length_append]
  omega

/-- A message whose lines hold no CR, and whose head tells the length of its body, is read
as it is, and nothing else with it. -/
theorem message_reads {bodyless : List UInt8 → Bool} {start body : List UInt8}
    {lines : List (List UInt8)} (plain : 13 ∉ start) (clean : ∀ l ∈ lines, l ≠ [] ∧ 13 ∉ l)
    (length : bodyLength bodyless start (lines.map readField) = body.length) :
    (message bodyless).Reads (wire start lines body) ⟨start, lines.map readField, body⟩ := by
  rw [message, wire, List.append_assoc]
  refine (line_reads plain).bind ((fields_reads clean).bind ?_)
  rw [length]
  exact (exactly_reads body).map _

/-! ## Fields -/

theorem trim_of_solid {value : List UInt8} (solid : ∀ b ∈ value, blank b = false) :
    trim value = value := by
  have kept : ∀ l : List UInt8, (∀ b ∈ l, blank b = false) → l.dropWhile blank = l := by
    intro l plain
    cases l with
    | nil => rfl
    | cons b l => rw [List.dropWhile_cons_of_neg (by simp [plain b List.mem_cons_self])]
  rw [trim, kept value solid, kept _ fun b among => solid b (List.mem_reverse.mp among),
    List.reverse_reverse]

/-- A line of a name, a colon, a blank and a value. -/
theorem readField_line {name : List UInt8} (plain : 58 ∉ name) (value : List UInt8) :
    readField (name ++ 58 :: 32 :: value) = (name.map lower, trim value) := by
  have cut : (name ++ 58 :: 32 :: value).span (· ≠ 58) = (name, 58 :: 32 :: value) := by
    have inside : ∀ b ∈ name, (decide (b ≠ 58)) = true :=
      fun b among => decide_eq_true fun same => plain (same ▸ among)
    rw [List.span_eq_takeWhile_dropWhile, List.takeWhile_append_of_pos inside,
      List.dropWhile_append_of_pos inside]
    simp
  have dropped : trim (32 :: value) = trim value := by
    rw [trim, trim, List.dropWhile_cons_of_pos (by decide)]
  rw [readField, cut]
  exact congrArg (name.map lower, ·) dropped

theorem value?_cons (name value : List UInt8) (fields : List (List UInt8 × List UInt8))
    (asked : List UInt8) :
    value? ((name, value) :: fields) asked =
      if name = asked then some value else value? fields asked := by
  rw [value?, value?]
  by_cases same : name = asked
  · rw [List.find?_cons_of_pos (by simpa using same), if_pos same]
    rfl
  · rw [List.find?_cons_of_neg (by simpa using same), if_neg same]

/-- The decimal form of a length is read back. -/
theorem readNat?_toString (n : Nat) :
    ((decode? (encode (toString n))).bind fun s => readNat? s.toList) = some n := by
  have room : n < 10 ^ (n + 1) :=
    Nat.lt_trans (Nat.lt_succ_self n) (Nat.lt_pow_self (by decide))
  have digits := writeDigits_eq_encode room (Nat.succ_pos n)
  have ascii : ∀ b ∈ writeDigits (n + 1) n [], b < 128 :=
    fun b among => Nat.lt_of_le_of_lt (writeDigits_digit _ _ among).2 (by decide)
  have filled : (writeDigits (n + 1) n []).map asciiChar ≠ [] := by
    simpa using writeDigits_ne_nil n n
  rw [← digits, decode?_ascii ascii, Option.bind_some, String.toList_ofList, readNat?,
    if_neg filled, readDigits_writeDigits room (Nat.succ_pos n)]

theorem solid_toString (n : Nat) : ∀ b ∈ encode (toString n), blank b = false := by
  have room : n < 10 ^ (n + 1) :=
    Nat.lt_trans (Nat.lt_succ_self n) (Nat.lt_pow_self (by decide))
  rw [← writeDigits_eq_encode room (Nat.succ_pos n)]
  intro b among
  obtain ⟨low, -⟩ := writeDigits_digit _ _ among
  have space : b ≠ 32 := fun same => absurd low (same ▸ by decide)
  have tab : b ≠ 9 := fun same => absurd low (same ▸ by decide)
  simp [blank, space, tab]

end Shrt.Lib.Messages
