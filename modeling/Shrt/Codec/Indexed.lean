import Shrt.Codec.RoundTrip
import Shrt.Lib.Cursor

/-!
# The scanner through its positions

The scanner and the unescaping once more, now with the positions and slices of the
source, each checked against the bounds of the line.  They never fail, on any bytes,
and come to what they come to on the unread suffixes.  The position moves in every
turn, and passes the end by two bytes at most.
-/

namespace Shrt.Codec.Indexed

open Shrt.Lib.Utf8 Shrt.Lib.Cursor

/-! ## Unescaping -/

def hexChar? : Bytes → Option Char
  | [h1, h2, h3, h4] => Codec.hexChar? h1 h2 h3 h4
  | _ => none

/-- What the byte behind a backslash stands for, and the position behind it. -/
def unescapeByte (b : Bytes) (i : Nat) : Except Fault (Nat × Bytes) :=
  (read b i).bind fun c =>
    if c = 110 then .ok (i + 1, [NL])
    else if c = 114 then .ok (i + 1, [13])
    else if c = 116 then .ok (i + 1, [9])
    else if c = 98 then .ok (i + 1, [0x08])
    else if c = 102 then .ok (i + 1, [0x0c])
    else if c = 117 then
      if i + 4 < b.length then
        (slice b (i + 1) (i + 5)).bind fun h =>
          match hexChar? h with
          | some ch => .ok (i + 4 + 1, String.utf8EncodeChar ch)
          | none => .ok (i + 1, [117])
      else .ok (i + 1, [117])
    else .ok (i + 1, [c])

/-- One turn of the loop of `unescape`: the next position and the bytes put out. -/
def unescapeTurn (b : Bytes) (i : Nat) : Except Fault (Nat × Bytes) :=
  (read b i).bind fun c =>
    if c ≠ backslash ∨ b.length ≤ i + 1 then .ok (i + 1, [c])
    else unescapeByte b (i + 1)

def unescapeLoop (b : Bytes) : Nat → Nat → Bytes → Except Fault Bytes
  | 0, _, _ => .error .outOfFuel
  | fuel + 1, i, out =>
      if i < b.length then
        (unescapeTurn b i).bind fun next => unescapeLoop b fuel next.1 (out ++ next.2)
      else .ok out

def unescape (b : Bytes) : Except Fault String :=
  (unescapeLoop b (b.length + 1) 0 []).map decodeLossy

/-! ## Parsing -/

/-- The loop over a string value: the position of its closing quote, or behind the
end, and whether it holds an escape. -/
def stringEnd (b : Bytes) : Nat → Nat → Bool → Except Fault (Nat × Bool)
  | 0, _, _ => .error .outOfFuel
  | fuel + 1, pos, escapes =>
      if pos < b.length then
        (read b pos).bind fun c =>
          if c = backslash then stringEnd b fuel (pos + 2) true
          else if c = quote then .ok (pos, escapes)
          else stringEnd b fuel (pos + 1) escapes
      else .ok (pos, escapes)

/-- What one turn of the outer loop comes to, by positions. -/
inductive Turn where
  | stop
  | fail
  | more (pos : Nat) (o : Op)
  deriving DecidableEq, Repr

def readString (b key : Bytes) (vs : Nat) (o : Op) : Except Fault Turn :=
  (stringEnd b (b.length + 1) vs false).bind fun found =>
    (slice b vs (min found.1 b.length)).bind fun val =>
      (if found.2 then unescape val else .ok (decodeLossy val)).bind fun s =>
        .ok (.more (found.1 + 1) (o.setString key.head? s))

def readNumber (b key : Bytes) (vs : Nat) (o : Op) : Except Fault Turn :=
  (skipWhile inNumber b (b.length + 1) vs).bind fun pos =>
    (slice b vs pos).bind fun num =>
      .ok (.more pos (o.setNumber key.head? (numberText num)))

def readValue (b key : Bytes) (pos : Nat) (o : Op) : Except Fault Turn :=
  (skipWhile isBlank b (b.length + 1) pos).bind fun pos =>
    if b.length ≤ pos then .ok .fail
    else
      (read b pos).bind fun v =>
        if v = quote then readString b key (pos + 1) o else readNumber b key pos o

def turn (b : Bytes) (pos : Nat) (o : Op) : Except Fault Turn :=
  (skipWhile (· != quote) b (b.length + 1) pos).bind fun pos =>
    if b.length ≤ pos then .ok .stop
    else
      let ks := pos + 1
      (skipWhile (· != quote) b (b.length + 1) ks).bind fun pos =>
        if b.length ≤ pos then .ok .fail
        else
          (slice b ks pos).bind fun key =>
            (skipWhile (· != colon) b (b.length + 1) (pos + 1)).bind fun pos =>
              if b.length ≤ pos then .ok .fail
              else readValue b key (pos + 1) o

/-- The outer loop: what `parse_op` returns, and the op it leaves. -/
def parseLoop (b : Bytes) : Nat → Nat → Op → Except Fault (Bool × Op)
  | 0, _, _ => .error .outOfFuel
  | fuel + 1, pos, o =>
      if pos < b.length then
        (turn b pos o).bind fun
          | .stop => .ok (o.named, o)
          | .fail => .ok (false, o)
          | .more pos o => parseLoop b fuel pos o
      else .ok (o.named, o)

def parseOp (b : Bytes) : Except Fault (Bool × Op) :=
  parseLoop b (b.length + 1) 0 {}

/-! ## What unescaping comes to -/

variable {b rest : Bytes}

/-- From a position where `rest` lies ahead, a turn of the loop has moved on and put out
what the unescaped rest begins with. -/
def Puts (b : Bytes) (i : Nat) (rest : Bytes) (next : Nat × Bytes) : Prop :=
  i < next.1 ∧ ∃ later, Ahead b next.1 later ∧
    unescapeBytes rest = next.2 ++ unescapeBytes later

theorem unescapeByte_unicode {i : Nat} (ahead : Ahead b i (117 :: rest)) :
    ∃ next, unescapeByte b i = .ok next ∧ Puts b i (backslash :: 117 :: rest) next := by
  have size := ahead.length
  rw [List.length_cons] at size
  simp only [unescapeByte, ahead.read, Except.bind]
  by_cases room : i + 4 < b.length
  · rcases rest with _ | ⟨h1, _ | ⟨h2, _ | ⟨h3, _ | ⟨h4, tail⟩⟩⟩⟩
    case cons.cons.cons.cons =>
      have within : i + 1 ≤ b.length := by omega
      have four : Ahead b (i + 1) ([h1, h2, h3, h4] ++ tail) := ahead.tail
      have digits : slice b (i + 1) (i + 5) = .ok [h1, h2, h3, h4] := four.slice within
      have behind : Ahead b (i + 1 + 4) tail := four.move
      rw [if_pos room, digits]
      simp only [hexChar?, Puts, unescapeBytes.eq_def (backslash :: _), ne_eq, not_true, if_false]
      cases read : Codec.hexChar? h1 h2 h3 h4 with
      | some ch => exact ⟨_, rfl, by omega, tail, behind, rfl⟩
      | none => exact ⟨_, rfl, Nat.lt_succ_self i, _, ahead.tail, rfl⟩
    all_goals
      simp only [List.length_cons, List.length_nil] at size
      omega
  · refine ⟨(i + 1, [117]), ?_, Nat.lt_succ_self i, rest, ahead.tail, ?_⟩
    · exact if_neg room
    · rw [unescapeBytes]
      · rfl
      · rintro h1 h2 h3 h4 tail rfl
        simp only [List.length_cons] at size
        omega

theorem unescapeByte_spec {c : UInt8} {i : Nat} (ahead : Ahead b i (c :: rest)) :
    ∃ next, unescapeByte b i = .ok next ∧ Puts b i (backslash :: c :: rest) next := by
  by_cases unicode : c = 117
  · subst unicode
    exact unescapeByte_unicode ahead
  · simp only [unescapeByte, ahead.read, Except.bind, Puts, unescapeBytes.eq_def (backslash :: _),
      ne_eq, not_true, if_false, if_neg unicode]
    split_ifs
    · exact ⟨_, rfl, Nat.lt_succ_self i, rest, ahead.tail, rfl⟩
    · exact ⟨_, rfl, Nat.lt_succ_self i, rest, ahead.tail, rfl⟩
    · exact ⟨_, rfl, Nat.lt_succ_self i, rest, ahead.tail, rfl⟩
    · exact ⟨_, rfl, Nat.lt_succ_self i, rest, ahead.tail, rfl⟩
    · exact ⟨_, rfl, Nat.lt_succ_self i, rest, ahead.tail, rfl⟩
    · exact ⟨_, rfl, Nat.lt_succ_self i, rest, ahead.tail, rfl⟩

/-- Every turn stays within its bounds and moves on. -/
theorem unescapeTurn_spec {c : UInt8} {i : Nat} (ahead : Ahead b i (c :: rest)) :
    ∃ next, unescapeTurn b i = .ok next ∧ Puts b i (c :: rest) next := by
  have size := ahead.length
  rw [unescapeTurn, ahead.read, Except.bind]
  by_cases plain : c ≠ backslash
  · refine ⟨(i + 1, [c]), if_pos (Or.inl plain), Nat.lt_succ_self i, rest, ahead.tail, ?_⟩
    rw [unescapeBytes.eq_def]
    exact if_pos plain
  · rw [not_not] at plain
    subst plain
    cases rest with
    | nil =>
        have last : b.length ≤ i + 1 := Ahead.nil_iff.mp ahead.tail
        exact ⟨(i + 1, [backslash]), if_pos (Or.inr last), Nat.lt_succ_self i, [], ahead.tail, rfl⟩
    | cons c rest =>
        obtain ⟨next, taken, moved, puts⟩ := unescapeByte_spec ahead.tail
        have more : ¬ b.length ≤ i + 1 := Nat.not_le.mpr ahead.tail.lt
        refine ⟨next, ?_, Nat.lt_of_succ_lt moved, puts⟩
        simpa [more] using taken

/-- The loop of `unescape` ends, within its bounds. -/
theorem unescapeLoop_eq {fuel i : Nat} (ahead : Ahead b i rest) (enough : rest.length < fuel)
    (out : Bytes) :
    unescapeLoop b fuel i out = .ok (out ++ unescapeBytes rest) := by
  induction fuel generalizing i rest out with
  | zero => omega
  | succ fuel ih =>
      cases rest with
      | nil =>
          rw [unescapeLoop, if_neg (Nat.not_lt.mpr (Ahead.nil_iff.mp ahead)), unescapeBytes,
            List.append_nil]
      | cons c rest =>
          obtain ⟨next, taken, moved, later, behind, puts⟩ := unescapeTurn_spec ahead
          rw [unescapeLoop, if_pos ahead.lt, taken, puts, ← List.append_assoc]
          have shorter : later.length < fuel := by
            have before := ahead.length
            have after := behind.length
            rw [List.length_cons] at before enough
            omega
          exact ih behind shorter (out ++ next.2)

theorem unescape_eq (b : Bytes) : unescape b = .ok (Codec.unescape b) := by
  rw [unescape, unescapeLoop_eq (.start b) (Nat.lt_succ_self _)]
  rfl

/-! ## What a turn comes to -/

theorem scanString_append (b : Bytes) : (scanString b).1 ++ (scanString b).2.2 = b := by
  fun_induction scanString b with
  | case1 => rfl
  | case2 => rfl
  | case3 => rfl
  | case4 => rfl
  | case5 c rest next ih => simpa [next] using ih
  | case6 => rfl
  | case7 b c rest hb hq next ih => simpa [next] using ih

/-- The loop over a string value ends, at the quote that closes it or behind the end. -/
theorem stringEnd_spec {fuel pos : Nat} (ahead : Ahead b pos rest) (enough : rest.length < fuel)
    (within : pos ≤ b.length + 1) (escapes : Bool) :
    ∃ pos', stringEnd b fuel pos escapes = .ok (pos', escapes || (scanString rest).2.1) ∧
      Ahead b pos' (scanString rest).2.2 ∧ pos ≤ pos' ∧ pos' ≤ b.length + 1 := by
  induction fuel generalizing pos rest escapes with
  | zero => cases enough
  | succ fuel ih =>
      cases rest with
      | nil =>
          have past := Nat.not_lt.mpr (Ahead.nil_iff.mp ahead)
          refine ⟨pos, ?_, ahead, Nat.le_refl _, within⟩
          rw [stringEnd, if_neg past, scanString, Bool.or_false]
      | cons c rest =>
          rw [List.length_cons] at enough
          have here := ahead.lt
          rw [stringEnd, if_pos here, ahead.read, Except.bind]
          by_cases escape : c = backslash
          · subst escape
            rw [if_pos rfl]
            cases rest with
            | nil =>
                have past : Ahead b (pos + 2) [] := Ahead.nil_iff.mpr (by
                  have last := Ahead.nil_iff.mp ahead.tail
                  omega)
                obtain ⟨pos', ended, behind, later, bound⟩ :=
                  ih past (Nat.lt_of_succ_lt_succ enough) (Nat.succ_le_succ here) true
                have cut : scanString [backslash] = ([backslash], true, []) := rfl
                rw [cut]
                exact ⟨pos', by rw [ended, Bool.true_or, Bool.or_true], behind, by omega, bound⟩
            | cons c rest =>
                rw [List.length_cons] at enough
                obtain ⟨pos', ended, behind, later, bound⟩ :=
                  ih ahead.tail.tail (by omega) (Nat.succ_le_succ here) true
                rw [scanString_escape]
                exact ⟨pos', by rw [ended, Bool.true_or, Bool.or_true], behind, by omega, bound⟩
          · rw [if_neg escape]
            by_cases closes : c = quote
            · subst closes
              rw [if_pos rfl, scanString_quote, Bool.or_false]
              exact ⟨pos, rfl, ahead, Nat.le_refl _, within⟩
            · obtain ⟨pos', ended, behind, later, bound⟩ :=
                ih ahead.tail (Nat.lt_of_succ_lt_succ enough) (by omega) escapes
              rw [if_neg closes, scanString_plain closes escape]
              exact ⟨pos', ended, behind, by omega, bound⟩

/-- A cut escape takes the position behind the end. -/
example : stringEnd [backslash] 2 0 false = .ok (2, true) := rfl

/-- A turn by positions and the turn on the unread bytes come to the same, and a turn
that goes on has moved, past the end by two at most. -/
inductive Comes (b : Bytes) (start : Nat) : Turn → Codec.Turn → Prop
  | stop : Comes b start .stop .stop
  | fail : Comes b start .fail .fail
  | more {pos : Nat} {rest : Bytes} (o : Op) (ahead : Ahead b pos rest) (moved : start < pos)
      (within : pos ≤ b.length + 2) : Comes b start (.more pos o) (.more rest o)

theorem readString_spec {start vs : Nat} (ahead : Ahead b vs rest) (within : vs ≤ b.length)
    (later : start < vs) (key : Bytes) (o : Op) :
    ∃ t, readString b key vs o = .ok t ∧
      Comes b start t (.more ((scanString rest).2.2.drop 1)
        (o.setString key.head? (stringValue (scanString rest).1 (scanString rest).2.1))) := by
  have enough : rest.length < b.length + 1 := by
    have size := ahead.length
    omega
  obtain ⟨pos, ended, behind, moved, bound⟩ :=
    stringEnd_spec ahead enough (Nat.le_succ_of_le within) false
  have whole : Ahead b vs ((scanString rest).1 ++ (scanString rest).2.2) := by
    rwa [scanString_append]
  have stop : min pos b.length = vs + (scanString rest).1.length := by
    have before := whole.length
    have after := behind.length
    rw [List.length_append] at before
    omega
  have value := whole.slice within
  rw [← stop] at value
  have text : (if (scanString rest).2.1 = true then unescape (scanString rest).1
      else .ok (decodeLossy (scanString rest).1)) =
      .ok (stringValue (scanString rest).1 (scanString rest).2.1) := by
    rw [unescape_eq, stringValue]
    split
    · rfl
    · rfl
  refine ⟨.more (pos + 1) _, ?_, .more _ behind.next (by omega) (by omega)⟩
  simp only [readString, ended, Except.bind, Bool.false_or, value, text]

theorem readNumber_spec {start vs : Nat} (ahead : Ahead b vs rest) (within : vs ≤ b.length)
    (later : start < vs) (key : Bytes) (o : Op) :
    ∃ t, readNumber b key vs o = .ok t ∧
      Comes b start t (.more (rest.dropWhile inNumber)
        (o.setNumber key.head? (numberText (rest.takeWhile inNumber)))) := by
  obtain ⟨pos, ended, behind, moved, sliced⟩ := ahead.skipWhile inNumber
  obtain ⟨bound, value⟩ := sliced within
  refine ⟨.more pos _, ?_, .more _ behind (by omega) (by omega)⟩
  simp only [readNumber, ended, Except.bind, value]

theorem readValue_spec {start pos : Nat} (ahead : Ahead b pos rest) (later : start < pos)
    (key : Bytes) (o : Op) :
    ∃ t, readValue b key pos o = .ok t ∧ Comes b start t (Codec.readValue key rest o) := by
  obtain ⟨pos', blanks, behind, moved, -⟩ := ahead.skipWhile isBlank
  rw [readValue, blanks, Except.bind, Codec.readValue]
  cases after : rest.dropWhile isBlank with
  | nil =>
      rw [after] at behind
      exact ⟨.fail, if_pos (Ahead.nil_iff.mp behind), .fail⟩
  | cons v rest =>
      rw [after] at behind
      have here := behind.lt
      rw [if_neg (Nat.not_le.mpr here), behind.read]
      dsimp only
      by_cases string : v = quote
      · rw [if_pos string, Except.bind, if_pos string]
        exact readString_spec behind.tail here (by omega) key o
      · rw [if_neg string, Except.bind, if_neg string]
        exact readNumber_spec behind here.le (by omega) key o

/-- Every turn stays within its bounds, moves on, and reads what the turn on the unread
bytes reads. -/
theorem turn_spec {pos : Nat} (ahead : Ahead b pos rest) (o : Op) :
    ∃ t, turn b pos o = .ok t ∧ Comes b pos t (Codec.turn rest o) := by
  obtain ⟨opening, first, atOpening, moved₁, -⟩ := ahead.skipWhile (· != quote)
  rw [turn, first, Except.bind, Codec.turn]
  cases after : rest.dropWhile (· != quote) with
  | nil =>
      rw [after] at atOpening
      exact ⟨.stop, if_pos (Ahead.nil_iff.mp atOpening), .stop⟩
  | cons q₁ rest₁ =>
      rw [after] at atOpening
      have inside := atOpening.lt
      obtain ⟨closing, second, atClosing, moved₂, sliced⟩ :=
        atOpening.tail.skipWhile (· != quote)
      rw [if_neg (Nat.not_le.mpr inside)]
      dsimp only
      rw [second]
      dsimp only [Except.bind]
      cases after₁ : rest₁.dropWhile (· != quote) with
      | nil =>
          rw [after₁] at atClosing
          exact ⟨.fail, if_pos (Ahead.nil_iff.mp atClosing), .fail⟩
      | cons q₂ rest₂ =>
          rw [after₁] at atClosing
          obtain ⟨separator, third, atSeparator, moved₃, -⟩ :=
            atClosing.tail.skipWhile (· != colon)
          rw [if_neg (Nat.not_le.mpr atClosing.lt), (sliced inside).2]
          dsimp only
          rw [third]
          dsimp only
          cases after₂ : rest₂.dropWhile (· != colon) with
          | nil =>
              rw [after₂] at atSeparator
              exact ⟨.fail, if_pos (Ahead.nil_iff.mp atSeparator), .fail⟩
          | cons q₃ rest₃ =>
              rw [after₂] at atSeparator
              rw [if_neg (Nat.not_le.mpr atSeparator.lt)]
              exact readValue_spec atSeparator.tail (by omega) _ o

/-! ## What a line comes to -/

theorem named_iff (o : Op) : o.named = true ↔ o.c ≠ "" ∨ o.h ≠ "" ∨ o.x ≠ "" := by
  simp [Op.named, or_assoc]

/-- The outer loop ends within its bounds, with the op that the unread bytes parse to. -/
theorem parseLoop_spec {fuel pos : Nat} (ahead : Ahead b pos rest) (enough : rest.length < fuel)
    (o : Op) :
    ∃ accepted o', parseLoop b fuel pos o = .ok (accepted, o') ∧
      (parse rest o).filter Op.named = if accepted then some o' else none := by
  induction fuel generalizing pos rest o with
  | zero => cases enough
  | succ fuel ih =>
      rw [parseLoop]
      by_cases inside : pos < b.length
      · obtain ⟨t, taken, comes⟩ := turn_spec ahead o
        rw [if_pos inside, taken, Except.bind]
        generalize step : Codec.turn rest o = t' at comes
        cases comes with
        | stop =>
            rw [parse_stop step, Option.filter_some]
            exact ⟨o.named, o, rfl, rfl⟩
        | fail =>
            rw [parse_fail step]
            exact ⟨false, o, rfl, rfl⟩
        | more o' behind moved within =>
            rw [parse_more step]
            have shorter := turn_length step
            exact ih behind (by omega) o'
      · have done := Ahead.nil_iff.mpr (Nat.not_lt.mp inside)
        cases done.symm.trans ahead
        rw [if_neg inside, parse_of_no_quote o List.not_mem_nil, Option.filter_some]
        exact ⟨o.named, o, rfl, rfl⟩

/-- The scanner through its positions refines the one on the unread bytes. -/
theorem parseOp_refines (b : Bytes) :
    ∃ accepted o, parseOp b = .ok (accepted, o) ∧
      Codec.parseOp b = if accepted then some o else none :=
  parseLoop_spec (.start b) (Nat.lt_succ_self _) {}

/-- On any bytes, the scanner and the unescaping end, and every index and slice on the
way is within bounds; every turn moves the position on, past the end by two bytes at
most; and what is accepted names a code, a hit or a tombstone. -/
theorem scan_safe (b : Bytes) :
    (∃ accepted o, parseOp b = .ok (accepted, o) ∧
        (accepted = true → o.c ≠ "" ∨ o.h ≠ "" ∨ o.x ≠ "")) ∧
      (∀ pos o, ∃ t, turn b pos o = .ok t ∧
        ∀ pos' o', t = .more pos' o' → pos < pos' ∧ pos' ≤ b.length + 2) ∧
      (∃ s, unescape b = .ok s) ∧
      ∀ i < b.length, ∃ next, unescapeTurn b i = .ok next ∧ i < next.1 := by
  refine ⟨?_, fun pos o => ?_, ⟨_, unescape_eq b⟩, fun i inside => ?_⟩
  · obtain ⟨accepted, o, parsed, same⟩ := parseOp_refines b
    refine ⟨accepted, o, parsed, fun accept => ?_⟩
    rw [accept, if_pos rfl, Codec.parseOp, Option.filter_eq_some_iff] at same
    exact (named_iff o).mp same.2
  · have ahead : Ahead b pos (b.drop pos) := rfl
    obtain ⟨t, taken, comes⟩ := turn_spec ahead o
    refine ⟨t, taken, ?_⟩
    rintro pos' o' rfl
    generalize Codec.turn (b.drop pos) o = t' at comes
    cases comes with
    | more o' behind moved within => exact ⟨moved, within⟩
  · obtain ⟨next, taken, moved, -⟩ := unescapeTurn_spec (List.drop_eq_getElem_cons inside)
    exact ⟨next, taken, moved⟩

end Shrt.Codec.Indexed
