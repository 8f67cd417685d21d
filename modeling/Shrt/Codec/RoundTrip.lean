import Mathlib.Data.List.TakeWhile
import Shrt.Codes
import Shrt.Lib.Framing

/-!
# The codec reads back what it writes

The scanner's loop is unrolled one field at a time: a field in front of the
unread bytes is read exactly, whatever stands after it.  The three kinds of
line are sequences of such fields.  No line holds a raw newline, so a log of
terminated lines is framed.
-/

namespace Shrt.Codec

open Shrt.Lib.Utf8 Shrt.Lib.Decimal Shrt.Lib.Framing

/-! ## The loop -/

/-- The scanner on the unread bytes, with enough fuel. -/
def parse (b : Bytes) (o : Op) : Option Op :=
  parseLoop (b.length + 1) b o

theorem scanString_rest_length_le (b : Bytes) :
    (scanString b).2.2.length ≤ b.length := by
  fun_induction scanString b with
  | case1 => simp
  | case2 => simp
  | case3 => simp
  | case4 => simp
  | case5 c rest next ih => simp [next]; omega
  | case6 => simp
  | case7 b c rest hb hq next ih => simp [next] at *; omega

theorem readValue_length {key b : Bytes} {o o' : Op} {r : Bytes}
    (h : readValue key b o = .more r o') : r.length ≤ b.length := by
  unfold readValue at h
  have skipped := (List.dropWhile_suffix (l := b) isBlank).length_le
  split at h
  · cases h
  · rename_i v rest blank
    rw [blank] at skipped
    split at h
    · cases h
      have := scanString_rest_length_le rest
      simp at *
      omega
    · cases h
      have := (List.dropWhile_suffix (l := v :: rest) inNumber).length_le
      omega

/-- Every turn that reads a field drops at least one byte. -/
theorem turn_length {b : Bytes} {o o' : Op} {r : Bytes}
    (h : turn b o = .more r o') : r.length < b.length := by
  unfold turn at h
  have first := (List.dropWhile_suffix (l := b) (· != quote)).length_le
  split at h
  · cases h
  · rename_i q1 r1 opened
    have second := (List.dropWhile_suffix (l := r1) (· != quote)).length_le
    rw [opened] at first
    dsimp only at h
    split at h
    · cases h
    · rename_i q2 r2 closed
      have third := (List.dropWhile_suffix (l := r2) (· != colon)).length_le
      rw [closed] at second
      split at h
      · cases h
      · rename_i q3 r3 separated
        rw [separated] at third
        have last := readValue_length h
        simp at *
        omega

/-- Any two amounts of fuel above the length agree. -/
theorem parseLoop_agree {first second : Nat} {b : Bytes} (o : Op)
    (hfirst : b.length < first) (hsecond : b.length < second) :
    parseLoop first b o = parseLoop second b o := by
  induction first generalizing second b o with
  | zero => omega
  | succ first ih =>
      cases second with
      | zero => omega
      | succ second =>
          rw [parseLoop, parseLoop]
          cases step : turn b o with
          | stop => rfl
          | fail => rfl
          | more r o' =>
              have shorter := turn_length step
              exact ih o' (by omega) (by omega)

theorem parse_more {b r : Bytes} {o o' : Op} (step : turn b o = .more r o') :
    parse b o = parse r o' := by
  have shorter := turn_length step
  rw [parse, parseLoop, step]
  exact parseLoop_agree o' (by omega) (by omega)

theorem parse_stop {b : Bytes} {o : Op} (step : turn b o = .stop) :
    parse b o = some o := by
  rw [parse, parseLoop, step]

theorem parse_fail {b : Bytes} {o : Op} (step : turn b o = .fail) :
    parse b o = none := by
  rw [parse, parseLoop, step]

/-- Bytes without a quote end the scan. -/
theorem parse_of_no_quote {b : Bytes} (o : Op) (free : quote ∉ b) :
    parse b o = some o := by
  apply parse_stop
  have all : b.dropWhile (· != quote) = [] := by
    rw [List.dropWhile_eq_nil_iff]
    intro x hx
    have : x ≠ quote := fun h => free (h ▸ hx)
    simpa using this
  simp [turn, all]

/-- Bytes without a quote in front of a line are skipped. -/
theorem parse_skip (lead : Bytes) (free : quote ∉ lead) (rest : Bytes) (o : Op) :
    parse (lead ++ rest) o = parse rest o := by
  have all : ∀ b ∈ lead, (b != quote) = true := by
    intro b member
    have : b ≠ quote := fun same => free (same ▸ member)
    simpa using this
  have same : turn (lead ++ rest) o = turn rest o := by
    rw [turn, turn, List.dropWhile_append_of_pos all]
  cases step : turn rest o with
  | stop => rw [parse_stop step, parse_stop (same.trans step)]
  | fail => rw [parse_fail step, parse_fail (same.trans step)]
  | more r o' => rw [parse_more step, parse_more (same.trans step)]

theorem parseOp_eq (b : Bytes) : parseOp b = (parse b {}).filter Op.named := rfl

/-! ## One field -/

theorem bne_of_not_mem {stop : UInt8} {lead : Bytes} (free : stop ∉ lead) :
    ∀ b ∈ lead, (b != stop) = true := by
  intro b member
  rw [bne_iff_ne]
  rintro rfl
  exact free member

theorem dropWhile_ne_append {stop : UInt8} {lead : Bytes} (free : stop ∉ lead)
    (rest : Bytes) :
    (lead ++ stop :: rest).dropWhile (· != stop) = stop :: rest := by
  rw [List.dropWhile_append_of_pos (bne_of_not_mem free)]
  simp

theorem takeWhile_ne_append {stop : UInt8} {lead : Bytes} (free : stop ∉ lead)
    (rest : Bytes) :
    (lead ++ stop :: rest).takeWhile (· != stop) = lead := by
  rw [List.takeWhile_append_of_pos (bne_of_not_mem free)]
  simp

/-- A key in front of its colon is recognized whatever precedes its quotes. -/
theorem turn_key {lead : Bytes} (key gap : Bytes) (leadFree : quote ∉ lead)
    (keyFree : quote ∉ key) (gapFree : colon ∉ gap) (rest : Bytes) (o : Op) :
    turn (lead ++ quote :: (key ++ quote :: (gap ++ colon :: rest))) o =
      readValue key rest o := by
  unfold turn
  rw [dropWhile_ne_append leadFree]
  dsimp only
  rw [dropWhile_ne_append keyFree, takeWhile_ne_append keyFree]
  dsimp only
  rw [dropWhile_ne_append gapFree]

/-- A string value is stored up to its closing quote. -/
theorem readValue_string {key body rest : Bytes} {escapes : Bool} (o : Op)
    (scanned : scanString (body ++ quote :: rest) =
      (body, escapes, quote :: rest)) :
    readValue key (quote :: (body ++ quote :: rest)) o =
      .more rest (o.setString key.head? (stringValue body escapes)) := by
  have blank : (quote :: (body ++ quote :: rest)).dropWhile isBlank =
      quote :: (body ++ quote :: rest) := by
    simp [List.dropWhile, isBlank, quote]
  simp [readValue, blank, scanned]

/-- What is not a string runs up to the comma or brace behind it. -/
theorem readValue_run {key num rest : Bytes} {v stop : UInt8} (o : Op)
    (notBlank : isBlank v = false) (notQuote : v ≠ quote)
    (run : ∀ b ∈ v :: num, inNumber b = true) (stops : inNumber stop = false) :
    readValue key (v :: (num ++ stop :: rest)) o =
      .more (stop :: rest) (o.setNumber key.head? (numberText (v :: num))) := by
  have after : (v :: num ++ stop :: rest).dropWhile inNumber = stop :: rest := by
    rw [List.dropWhile_append_of_pos run]
    simp [stops]
  have before : (v :: num ++ stop :: rest).takeWhile inNumber = v :: num := by
    rw [List.takeWhile_append_of_pos run]
    simp [stops]
  have blank : (v :: num ++ stop :: rest).dropWhile isBlank = v :: (num ++ stop :: rest) := by
    simp [notBlank]
  simp only [List.cons_append] at after before blank
  simp [readValue, blank, notQuote, after, before]

/-- A number is stored up to the comma or brace behind it. -/
theorem readValue_number {key num rest : Bytes} {stop : UInt8} (o : Op)
    (nonempty : num ≠ []) (digits : ∀ b ∈ num, inNumber b = true ∧
      isBlank b = false ∧ b ≠ quote) (stops : inNumber stop = false) :
    readValue key (num ++ stop :: rest) o =
      .more (stop :: rest) (o.setNumber key.head? (numberText num)) := by
  cases num with
  | nil => exact absurd rfl nonempty
  | cons v num =>
      obtain ⟨-, notBlank, notQuote⟩ := digits v List.mem_cons_self
      exact readValue_run o notBlank notQuote (fun b hb => (digits b hb).1) stops

/-! ## String values -/

theorem scanString_quote (bs : Bytes) :
    scanString (quote :: bs) = ([], false, quote :: bs) := by
  cases bs <;> simp [scanString, quote, backslash]

theorem scanString_escape (c : UInt8) (bs : Bytes) :
    scanString (backslash :: c :: bs) =
      (backslash :: c :: (scanString bs).1, true, (scanString bs).2.2) := by
  simp [scanString]

theorem scanString_plain {b : UInt8} (hq : b ≠ quote) (hb : b ≠ backslash)
    (bs : Bytes) :
    scanString (b :: bs) =
      (b :: (scanString bs).1, (scanString bs).2.1, (scanString bs).2.2) := by
  cases bs <;> simp [scanString, hq, hb]

/-- A value without quotes and backslashes runs to the closing quote. -/
theorem scanString_of_plain {body : Bytes} (hq : quote ∉ body)
    (hb : backslash ∉ body) (rest : Bytes) :
    scanString (body ++ quote :: rest) = (body, false, quote :: rest) := by
  induction body with
  | nil => exact scanString_quote rest
  | cons b body ih =>
      have bq : b ≠ quote := fun h => hq (h ▸ List.mem_cons_self)
      have bb : b ≠ backslash := fun h => hb (h ▸ List.mem_cons_self)
      have tail := ih (fun h => hq (List.mem_cons_of_mem _ h))
        (fun h => hb (List.mem_cons_of_mem _ h))
      rw [List.cons_append, scanString_plain bq bb, tail]

/-- The three shapes of an escaped byte, with what undoes each. -/
inductive Escaped (c : UInt8) : Bytes → Bool → Prop where
  | raw (hq : c ≠ quote) (hb : c ≠ backslash) : Escaped c [c] false
  | short (x : UInt8)
      (undo : ∀ bs, unescapeBytes (backslash :: x :: bs) = c :: unescapeBytes bs) :
      Escaped c [backslash, x] true
  | hex (h1 h2 : UInt8) (hq1 : h1 ≠ quote) (hb1 : h1 ≠ backslash)
      (hq2 : h2 ≠ quote) (hb2 : h2 ≠ backslash)
      (undo : ∀ bs, unescapeBytes (backslash :: 117 :: 48 :: 48 :: h1 :: h2 :: bs) =
        c :: unescapeBytes bs) :
      Escaped c [backslash, 117, 48, 48, h1, h2] true

def mustEscape (c : UInt8) : Bool :=
  c == quote || c == backslash || c < 0x20

theorem hexChar?_control {c : UInt8} (control : c < 0x20) :
    hexChar? 48 48 (HEX.getD (c >>> 4).toNat 0) (HEX.getD (c &&& 0xf).toNat 0) =
      some (asciiChar c) := by
  revert control
  apply forall_byte (P := fun c => c < 0x20 →
    hexChar? 48 48 (HEX.getD (c >>> 4).toNat 0) (HEX.getD (c &&& 0xf).toNat 0) =
      some (asciiChar c))
  decide +kernel

theorem HEX_plain (k : Nat) :
    HEX.getD k 0 ≠ quote ∧ HEX.getD k 0 ≠ backslash := by
  by_cases inside : k < 16
  · revert inside
    revert k
    decide
  · have outside : HEX.getD k 0 = 0 := by
      have size : HEX.length = 16 := by decide
      rw [List.getD_eq_getElem?_getD, List.getElem?_eq_none (by omega)]
      rfl
    rw [outside]
    decide

theorem escByte_escaped (c : UInt8) : Escaped c (escByte c) (mustEscape c) := by
  by_cases special : c = quote ∨ c = backslash
  · have must : mustEscape c = true := by
      rcases special with rfl | rfl <;> rfl
    rw [escByte, if_pos special, must]
    refine .short c fun bs => ?_
    rw [unescapeBytes.eq_def]
    rcases special with rfl | rfl <;> simp [quote, backslash]
  · rw [not_or] at special
    by_cases control : c < 0x20
    · have must : mustEscape c = true := by simp [mustEscape, control]
      rw [must]
      unfold escByte
      rw [if_neg (by simpa using special)]
      split
      · subst c
        exact .short 110 fun bs => by rw [unescapeBytes.eq_def]; simp
      split
      · subst c
        exact .short 114 fun bs => by rw [unescapeBytes.eq_def]; simp
      split
      · subst c
        exact .short 116 fun bs => by rw [unescapeBytes.eq_def]; simp
      split
      · subst c
        exact .short 98 fun bs => by rw [unescapeBytes.eq_def]; simp
      split
      · subst c
        exact .short 102 fun bs => by rw [unescapeBytes.eq_def]; simp
      · have ascii : c < 128 := UInt8.lt_trans control (by decide)
        have first := HEX_plain (c >>> 4).toNat
        have second := HEX_plain (c &&& 0xf).toNat
        have decoded := hexChar?_control control
        have encoded := utf8EncodeChar_asciiChar ascii
        refine .hex _ _ first.1 first.2 second.1 second.2 fun bs => ?_
        rw [unescapeBytes.eq_def]
        simp only [decoded, encoded]
        simp
    · have must : mustEscape c = false := by
        simp [mustEscape, special.1, special.2, control]
      have raw : escByte c = [c] := by
        have lower : ∀ k : UInt8, k < 0x20 → c ≠ k := fun k hk h => control (h ▸ hk)
        simp [escByte, special.1, special.2, control, NL,
          lower 10 (by decide), lower 13 (by decide), lower 9 (by decide),
          lower 0x08 (by decide), lower 0x0c (by decide)]
      rw [must, raw]
      exact .raw special.1 special.2

/-- One escaped byte in front of a string value is scanned whole. -/
theorem scanString_escByte (c : UInt8) (bs : Bytes) :
    scanString (escByte c ++ bs) =
      (escByte c ++ (scanString bs).1, mustEscape c || (scanString bs).2.1,
        (scanString bs).2.2) := by
  have shape := escByte_escaped c
  generalize escByte c = body at shape
  generalize mustEscape c = flag at shape
  cases shape with
  | raw hq hb => simp [scanString_plain hq hb]
  | short x undo => simp [scanString_escape]
  | hex h1 h2 hq1 hb1 hq2 hb2 undo =>
      have zero : (48 : UInt8) ≠ quote ∧ (48 : UInt8) ≠ backslash := by decide
      simp [scanString_escape, scanString_plain, zero.1, zero.2, hq1, hb1, hq2, hb2]

theorem unescapeBytes_escByte (c : UInt8) (bs : Bytes) :
    unescapeBytes (escByte c ++ bs) = c :: unescapeBytes bs := by
  have shape := escByte_escaped c
  generalize escByte c = body at shape
  generalize mustEscape c = flag at shape
  cases shape with
  | raw hq hb =>
      rw [List.singleton_append, unescapeBytes.eq_def]
      simp [hb]
  | short x undo => exact undo bs
  | hex h1 h2 hq1 hb1 hq2 hb2 undo => exact undo bs

theorem escByte_of_not_must {c : UInt8} (clean : mustEscape c = false) :
    escByte c = [c] := by
  have shape := escByte_escaped c
  rw [clean] at shape
  generalize escByte c = body at shape
  cases shape
  rfl

theorem scanString_esc (bs rest : Bytes) :
    scanString (bs.flatMap escByte ++ quote :: rest) =
      (bs.flatMap escByte, bs.any mustEscape, quote :: rest) := by
  induction bs with
  | nil => simpa using scanString_quote rest
  | cons c bs ih =>
      rw [List.flatMap_cons, List.append_assoc, scanString_escByte, ih]
      simp

theorem unescapeBytes_esc (bs : Bytes) :
    unescapeBytes (bs.flatMap escByte) = bs := by
  induction bs with
  | nil => rfl
  | cons c bs ih =>
      rw [List.flatMap_cons, unescapeBytes_escByte, ih]

/-- The text of an escaped string is the string. -/
theorem stringValue_esc (u : String) :
    stringValue ((encode u).flatMap escByte) ((encode u).any mustEscape) = u := by
  by_cases dirty : (encode u).any mustEscape = true
  · simp [stringValue, dirty, unescape, unescapeBytes_esc]
  · have clean : ∀ c ∈ encode u, mustEscape c = false := by
      simpa using dirty
    have same : (encode u).flatMap escByte = encode u := by
      rw [List.flatMap_congr (fun c hc => escByte_of_not_must (clean c hc))]
      simp
    rw [Bool.not_eq_true] at dirty
    rw [dirty, same]
    simp [stringValue]

/-! ## Numbers -/

def numberByte (b : UInt8) : Bool :=
  (48 ≤ b && b ≤ 57) || b == 45

theorem numberByte_spec {b : UInt8} (h : numberByte b = true) :
    inNumber b = true ∧ isBlank b = false ∧ b ≠ quote ∧ b ≠ NL ∧ b < 128 ∧
      isWhitespace (asciiChar b) = false := by
  revert h
  apply forall_byte (P := fun b => numberByte b = true →
    inNumber b = true ∧ isBlank b = false ∧ b ≠ quote ∧ b ≠ NL ∧ b < 128 ∧
      isWhitespace (asciiChar b) = false)
  decide +kernel

theorem encode_dash : encode "-" = [45] := by decide

theorem itoa_eq (b : Bytes) (n : Int64) : itoa b n = b ++ itoa [] n := by
  simp [itoa]

theorem itoa_numberByte {n : Int64} {b : UInt8} (hb : b ∈ itoa [] n) :
    numberByte b = true := by
  simp only [itoa, List.nil_append, List.mem_append] at hb
  rcases hb with sign | digit
  · split at sign
    · rw [encode_dash, List.mem_singleton] at sign
      subst sign
      rfl
    · simp at sign
  · obtain ⟨low, high⟩ := writeDigits_digit 20 _ digit
    simp [numberByte, low, high]

theorem itoa_ne_nil (n : Int64) : itoa [] n ≠ [] := by
  intro h
  simp only [itoa, List.nil_append, List.append_eq_nil_iff] at h
  exact writeDigits_ne_nil 19 _ h.2

theorem dropWhile_none {α : Type} {p : α → Bool} {l : List α}
    (h : ∀ x ∈ l, p x = false) : l.dropWhile p = l := by
  cases l with
  | nil => rfl
  | cons x l => simp [h x List.mem_cons_self]

theorem numberText_of_bytes {bs : Bytes} (h : ∀ b ∈ bs, numberByte b = true) :
    numberText bs = String.ofList (bs.map asciiChar) := by
  have ascii : ∀ b ∈ bs, b < 128 := fun b hb =>
    (numberByte_spec (h b hb)).2.2.2.2.1
  have solid : ∀ c ∈ bs.map asciiChar, isWhitespace c = false := by
    intro c hc
    obtain ⟨b, hb, rfl⟩ := List.mem_map.mp hc
    exact (numberByte_spec (h b hb)).2.2.2.2.2
  rw [numberText, decode?_ascii ascii, Option.getD_some, trim,
    String.toList_ofList, dropWhile_none solid, dropWhile_none, List.reverse_reverse]
  exact fun c hc => solid c (List.mem_reverse.mp hc)

theorem parseI64?_itoa (n : Int64) :
    parseI64? (String.ofList ((itoa [] n).map asciiChar)) = some n := by
  have low := n.le_toInt
  have high := n.toInt_lt
  have digits : readNat? ((writeDigits 20 n.toInt.natAbs []).map asciiChar) =
      some n.toInt.natAbs := by
    have nonempty := writeDigits_ne_nil 19 n.toInt.natAbs
    rw [readNat?, if_neg (by simpa using nonempty)]
    exact readDigits_writeDigits (by norm_num; omega) (by omega)
  by_cases negative : n < 0
  · have sign : n.toInt < 0 := by
      have := Int64.lt_iff_toInt_lt.mp negative
      simpa using this
    have text : (itoa [] n).map asciiChar =
        '-' :: (writeDigits 20 n.toInt.natAbs []).map asciiChar := by
      simp only [itoa, negative, if_true, List.nil_append, encode_dash]
      rfl
    rw [text, parseI64?_negative, digits, Option.bind_some]
    rw [show -(n.toInt.natAbs : Int) = n.toInt by omega]
    exact fit64?_toInt n
  · have sign : 0 ≤ n.toInt := by
      by_contra below
      apply negative
      rw [Int64.lt_iff_toInt_lt]
      simpa using below
    have text : (itoa [] n).map asciiChar =
        (writeDigits 20 n.toInt.natAbs []).map asciiChar := by
      simp [itoa, negative]
    rw [text]
    -- the first character is a digit, so no sign is read
    cases shape : (writeDigits 20 n.toInt.natAbs []).map asciiChar with
    | nil =>
        rw [shape] at digits
        simp [readNat?] at digits
    | cons c cs =>
        have first : '0' ≤ c ∧ c ≤ '9' := by
          rw [shape, readNat?, if_neg (by simp), readDigits] at digits
          by_contra bad
          simp [digit?, bad] at digits
        have noDash : c ≠ '-' := by rintro rfl; exact absurd first (by decide)
        have noPlus : c ≠ '+' := by rintro rfl; exact absurd first (by decide)
        rw [shape] at digits
        rw [parseI64?_unsigned noDash noPlus, digits, Option.bind_some,
          show (n.toInt.natAbs : Int) = n.toInt by omega]
        exact fit64?_toInt n

theorem numberValue_itoa (n : Int64) : numberValue (numberText (itoa [] n)) = n := by
  rw [numberText_of_bytes (fun b hb => itoa_numberByte hb), numberValue,
    parseI64?_itoa]
  rfl

theorem numberText_itoa_ne_null (n : Int64) : numberText (itoa [] n) ≠ "null" := by
  intro h
  have text : numberText (itoa [] n) = String.ofList ((itoa [] n).map asciiChar) :=
    numberText_of_bytes (fun b hb => itoa_numberByte hb)
  have member : 'n' ∈ (itoa [] n).map asciiChar := by
    have chars := congrArg String.toList (text.symm.trans h)
    simp only [String.toList_ofList] at chars
    rw [chars]
    decide
  obtain ⟨b, hb, same⟩ := List.mem_map.mp member
  have byte := itoa_numberByte hb
  revert byte same
  apply forall_byte (P := fun b => asciiChar b = 'n' → ¬ numberByte b = true)
  decide +kernel

/-! ## Fields and lines -/

theorem parse_stringField {lead body rest : Bytes} {k : UInt8} {escapes : Bool}
    (leadFree : quote ∉ lead) (hk : k ≠ quote) (o : Op)
    (scanned : scanString (body ++ quote :: rest) =
      (body, escapes, quote :: rest)) :
    parse (lead ++ quote :: k :: quote :: colon :: quote :: (body ++ quote :: rest)) o =
      parse rest (o.setString (some k) (stringValue body escapes)) := by
  apply parse_more
  have keyed := turn_key [k] [] leadFree (by simpa using hk.symm)
    (by simp) (quote :: (body ++ quote :: rest)) o
  rw [readValue_string o scanned] at keyed
  exact keyed

theorem parse_numberField {lead num rest : Bytes} {k stop : UInt8}
    (leadFree : quote ∉ lead) (hk : k ≠ quote) (o : Op) (nonempty : num ≠ [])
    (digits : ∀ b ∈ num, inNumber b = true ∧ isBlank b = false ∧ b ≠ quote)
    (stops : inNumber stop = false) :
    parse (lead ++ quote :: k :: quote :: colon :: (num ++ stop :: rest)) o =
      parse (stop :: rest) (o.setNumber (some k) (numberText num)) := by
  apply parse_more
  have keyed := turn_key [k] [] leadFree (by simpa using hk.symm)
    (by simp) (num ++ stop :: rest) o
  rw [readValue_number o nonempty digits stops] at keyed
  exact keyed

theorem parse_itoaField {lead rest : Bytes} {k stop : UInt8}
    (leadFree : quote ∉ lead) (hk : k ≠ quote) (o : Op) (n : Int64)
    (stops : inNumber stop = false) :
    parse (lead ++ quote :: k :: quote :: colon :: (itoa [] n ++ stop :: rest)) o =
      parse (stop :: rest) (o.setNumber (some k) (numberText (itoa [] n))) :=
  parse_numberField leadFree hk o (itoa_ne_nil n)
    (fun _ hb =>
      have spec := numberByte_spec (itoa_numberByte hb)
      ⟨spec.1, spec.2.1, spec.2.2.1⟩) stops

/-- What stands for an expiry: `null` for none. -/
def expiryText (e : Int64) : Bytes :=
  if e = 0 then encode "null" else itoa [] e

/-- A row, field by field. -/
theorem rowLine_eq (c u : String) (a e i n : Int64) :
    rowLine c u a e i n =
      123 :: quote :: 99 :: quote :: colon :: quote :: (encode c ++ quote ::
        comma :: quote :: 117 :: quote :: colon :: quote ::
          ((encode u).flatMap escByte ++ quote ::
        comma :: quote :: 97 :: quote :: colon :: (itoa [] a ++
        comma :: quote :: 101 :: quote :: colon :: (expiryText e ++
        comma :: quote :: 105 :: quote :: colon :: (itoa [] i ++
        comma :: quote :: 110 :: quote :: colon :: (itoa [] n ++
        [closeBrace])))))) := by
  have open_c : encode "\x7b\"c\":\"" = [123, quote, 99, quote, colon, quote] := by decide
  have open_u : encode "\",\"u\":\"" =
      [quote, comma, quote, 117, quote, colon, quote] := by decide
  have open_a : encode "\",\"a\":" = [quote, comma, quote, 97, quote, colon] := by decide
  have open_e : encode ",\"e\":" = [comma, quote, 101, quote, colon] := by decide
  have open_i : encode ",\"i\":" = [comma, quote, 105, quote, colon] := by decide
  have open_n : encode ",\"n\":" = [comma, quote, 110, quote, colon] := by decide
  simp only [rowLine, rowLineInto, esc, open_c, open_u, open_a, open_e, open_i, open_n,
    expiryText]
  rw [itoa_eq _ n, itoa_eq _ i]
  by_cases never : e = 0
  · rw [if_pos never, if_pos never, itoa_eq _ a]
    simp
  · rw [if_neg never, if_neg never, itoa_eq _ e, itoa_eq _ a]
    simp

theorem hitLine_eq (c : String) (d i : Int64) :
    hitLine c d i =
      123 :: quote :: 104 :: quote :: colon :: quote :: (encode c ++ quote ::
        comma :: quote :: 100 :: quote :: colon :: (itoa [] d ++
        comma :: quote :: 105 :: quote :: colon :: (itoa [] i ++
        [closeBrace]))) := by
  have open_h : encode "\x7b\"h\":\"" = [123, quote, 104, quote, colon, quote] := by decide
  have open_d : encode "\",\"d\":" = [quote, comma, quote, 100, quote, colon] := by decide
  have open_i : encode ",\"i\":" = [comma, quote, 105, quote, colon] := by decide
  simp only [hitLine, hitLineInto, open_h, open_d, open_i]
  rw [itoa_eq _ i, itoa_eq _ d]
  simp

theorem delLine_eq (c : String) :
    delLine c =
      123 :: quote :: 120 :: quote :: colon :: quote :: (encode c ++ quote ::
        [closeBrace]) := by
  have open_x : encode "\x7b\"x\":\"" = [123, quote, 120, quote, colon, quote] := by decide
  have close_x : encode "\"\x7d" = [quote, closeBrace] := by decide
  simp [delLine, open_x, close_x]

theorem rowLineInto_eq (b : Bytes) (c u : String) (a e i n : Int64) :
    rowLineInto b c u a e i n = b ++ rowLine c u a e i n := by
  simp only [rowLine, rowLineInto, esc]
  rw [itoa_eq _ n, itoa_eq _ i, itoa_eq _ a]
  conv_rhs => rw [itoa_eq _ n, itoa_eq _ i, itoa_eq _ a]
  by_cases never : e = 0
  · simp [never]
  · rw [if_neg never, if_neg never, itoa_eq _ e]
    conv_rhs => rw [itoa_eq _ e]
    simp

theorem hitLineInto_eq (b : Bytes) (c : String) (d i : Int64) :
    hitLineInto b c d i = b ++ hitLine c d i := by
  simp only [hitLine, hitLineInto]
  rw [itoa_eq _ i, itoa_eq _ d]
  conv_rhs => rw [itoa_eq _ i, itoa_eq _ d]
  simp

theorem scanString_code {c : String} (plain : Plain c) (rest : Bytes) :
    scanString (encode c ++ quote :: rest) = (encode c, false, quote :: rest) :=
  scanString_of_plain (plain.not_mem (by decide)) (plain.not_mem (by decide)) rest

theorem stringValue_encode (c : String) : stringValue (encode c) false = c := by
  simp [stringValue]

/-- Storing the expiry that a row carries. -/
theorem setNumber_expiry (o : Op) (e : Int64) :
    o.setNumber (some 101) (numberText (expiryText e)) =
      if e = 0 then o else { o with e := e, hasE := true } := by
  by_cases never : e = 0
  · have text : numberText (expiryText e) = "null" := by
      rw [expiryText, if_pos never]
      decide +kernel
    rw [text, if_pos never]
    rfl
  · rw [expiryText, if_neg never]
    simp [Op.setNumber, numberText_itoa_ne_null, numberValue_itoa, never]

theorem expiryText_digits {e : Int64} {b : UInt8} (hb : b ∈ expiryText e) :
    inNumber b = true ∧ isBlank b = false ∧ b ≠ quote := by
  unfold expiryText at hb
  split at hb
  · have letters : ∀ x ∈ encode "null",
        inNumber x = true ∧ isBlank x = false ∧ x ≠ quote := by decide +kernel
    exact letters b hb
  · have spec := numberByte_spec (itoa_numberByte hb)
    exact ⟨spec.1, spec.2.1, spec.2.2.1⟩

theorem expiryText_ne_nil (e : Int64) : expiryText e ≠ [] := by
  unfold expiryText
  split
  · decide
  · exact itoa_ne_nil e

/-- The fields of a row behind its url, read onto any operation. -/
theorem parse_rowTail (a e i n : Int64) (o : Op) :
    parse (comma :: quote :: 97 :: quote :: colon :: (itoa [] a ++
        comma :: quote :: 101 :: quote :: colon :: (expiryText e ++
        comma :: quote :: 105 :: quote :: colon :: (itoa [] i ++
        comma :: quote :: 110 :: quote :: colon :: (itoa [] n ++
        [closeBrace]))))) o =
      some { o with
        a := a
        e := if e = 0 then o.e else e
        hasE := if e = 0 then o.hasE else true
        i := i
        n := n } := by
  have free : quote ∉ [comma] := by decide
  refine (parse_itoaField free (by decide) o a (by decide)).trans ?_
  refine (parse_numberField free (by decide) _ (expiryText_ne_nil e)
    (fun _ hb => expiryText_digits hb) (by decide)).trans ?_
  refine (parse_itoaField free (by decide) _ i (by decide)).trans ?_
  refine (parse_itoaField free (by decide) _ n (by decide)).trans ?_
  rw [parse_of_no_quote _ (by decide), setNumber_expiry]
  by_cases never : e = 0 <;> simp [Op.setNumber, numberValue_itoa, never]

/-- A row read onto any operation replaces all of its fields but the expiry,
which is replaced when the row has one. -/
theorem parse_rowLine {lead : Bytes} (leadFree : quote ∉ lead) {c : String}
    (plain : Plain c) (u : String) (a e i n : Int64) (o : Op) :
    parse (lead ++ rowLine c u a e i n) o =
      some { o with
        c := c
        u := u
        a := a
        e := if e = 0 then o.e else e
        hasE := if e = 0 then o.hasE else true
        i := i
        n := n } := by
  rw [rowLine_eq]
  have brace : quote ∉ lead ++ [123] := by simpa [quote] using leadFree
  have free : quote ∉ [comma] := by decide
  have first := parse_stringField brace (k := 99) (by decide) o
    (scanString_code plain (comma :: quote :: 117 :: quote :: colon :: quote ::
          ((encode u).flatMap escByte ++ quote ::
        comma :: quote :: 97 :: quote :: colon :: (itoa [] a ++
        comma :: quote :: 101 :: quote :: colon :: (expiryText e ++
        comma :: quote :: 105 :: quote :: colon :: (itoa [] i ++
        comma :: quote :: 110 :: quote :: colon :: (itoa [] n ++
        [closeBrace])))))))
  rw [List.append_assoc, List.singleton_append] at first
  refine first.trans ?_
  refine (parse_stringField free (k := 117) (by decide) _
    (scanString_esc (encode u) _)).trans ?_
  rw [parse_rowTail, stringValue_encode, stringValue_esc]
  simp [Op.setString]

theorem parse_hitLine {lead : Bytes} (leadFree : quote ∉ lead) {c : String}
    (plain : Plain c) (d i : Int64) (o : Op) :
    parse (lead ++ hitLine c d i) o = some { o with h := c, d := d, i := i } := by
  rw [hitLine_eq]
  have brace : quote ∉ lead ++ [123] := by simpa [quote] using leadFree
  have free : quote ∉ [comma] := by decide
  have first := parse_stringField brace (k := 104) (by decide) o
    (scanString_code plain (comma :: quote :: 100 :: quote :: colon :: (itoa [] d ++
        comma :: quote :: 105 :: quote :: colon :: (itoa [] i ++
        [closeBrace]))))
  rw [List.append_assoc, List.singleton_append] at first
  refine first.trans ?_
  refine (parse_itoaField free (by decide) _ d (by decide)).trans ?_
  refine (parse_itoaField free (by decide) _ i (by decide)).trans ?_
  rw [parse_of_no_quote _ (by decide), stringValue_encode]
  simp [Op.setString, Op.setNumber, numberValue_itoa]

theorem parse_delLine {lead : Bytes} (leadFree : quote ∉ lead) {c : String}
    (plain : Plain c) (o : Op) :
    parse (lead ++ delLine c) o = some { o with x := c } := by
  rw [delLine_eq]
  have brace : quote ∉ lead ++ [123] := by simpa [quote] using leadFree
  have first := parse_stringField brace (k := 120) (by decide) o
    (scanString_code plain [closeBrace])
  rw [List.append_assoc, List.singleton_append] at first
  refine first.trans ?_
  rw [parse_of_no_quote _ (by decide), stringValue_encode]
  simp [Op.setString]

end Shrt.Codec
