import Mathlib.Data.List.Perm.Basic
import Shrt.Codec.Record

/-!
# Other spellings of a line

The same fields may stand in any order, a string may be written with other
escapes, and blanks may stand between the tokens.  The scanner reads every such
line as the one that the program writes: it finds each key by the quote in
front of it, and every value leaves it at a place where only blanks, a comma or
the closing brace come before the next quote.
-/

namespace Shrt.Codec

open Shrt.Lib.Utf8 Shrt.Lib.Decimal

/-! ## Characters -/

/-- The letters behind a backslash, with what they stand for. -/
def shortEscapes : List (UInt8 × Char) :=
  [(34, '"'), (92, '\\'), (47, '/'), (98, '\x08'), (102, '\x0c'), (110, '\n'), (114, '\r'),
    (116, '\t')]

/-- The renderings of a character in a JSON string, and whether they are
escapes. -/
inductive Glyph (c : Char) : Bytes → Bool → Prop where
  | raw (printable : 32 ≤ c.toNat) (noQuote : c ≠ '"') (noBackslash : c ≠ '\\') :
      Glyph c (String.utf8EncodeChar c) false
  | short {x : UInt8} (listed : (x, c) ∈ shortEscapes) : Glyph c [backslash, x] true
  /-- Four digits of either case; a character is never a surrogate. -/
  | hex {h1 h2 h3 h4 : UInt8} (value : readHex 0 [h1, h2, h3, h4] = some c.toNat) :
      Glyph c [backslash, 117, h1, h2, h3, h4] true

inductive Rendered : List Char → Bytes → Bool → Prop where
  | nil : Rendered [] [] false
  | cons {c : Char} {cs : List Char} {glyph body : Bytes} {escape escapes : Bool}
      (first : Glyph c glyph escape) (rest : Rendered cs body escapes) :
      Rendered (c :: cs) (glyph ++ body) (escape || escapes)

/-- An ASCII byte is in the encoding of its own character only. -/
theorem not_mem_utf8EncodeChar {c : Char} {b : UInt8} (ascii : b < 128) (other : asciiChar b ≠ c) :
    b ∉ String.utf8EncodeChar c := by
  intro member
  have inside : b ∈ encode (String.ofList [c]) := by simpa [encode] using member
  rw [mem_encode_iff ascii, String.toList_ofList, List.mem_singleton] at inside
  exact other inside

theorem hexDigit?_ne {h : UInt8} {d : Nat} (digit : hexDigit? h = some d) :
    h ≠ 43 ∧ h ≠ quote ∧ h ≠ backslash := by
  have none_of : hexDigit? 43 = none ∧ hexDigit? quote = none ∧ hexDigit? backslash = none := by
    decide
  refine ⟨?_, ?_, ?_⟩
  · rintro rfl
    rw [none_of.1] at digit
    cases digit
  · rintro rfl
    rw [none_of.2.1] at digit
    cases digit
  · rintro rfl
    rw [none_of.2.2] at digit
    cases digit

theorem digits_of_readHex {acc v : Nat} {bs : Bytes} (read : readHex acc bs = some v) :
    ∀ h ∈ bs, ∃ d, hexDigit? h = some d := by
  induction bs generalizing acc with
  | nil => simp
  | cons b bs ih =>
      obtain ⟨d, here, later⟩ := Option.bind_eq_some_iff.mp read
      intro h among
      rcases List.mem_cons.mp among with rfl | among
      · exact ⟨d, here⟩
      · exact ih later h among

theorem hexChar?_of_readHex {c : Char} {h1 h2 h3 h4 : UInt8}
    (value : readHex 0 [h1, h2, h3, h4] = some c.toNat) : hexChar? h1 h2 h3 h4 = some c := by
  obtain ⟨d, digit⟩ := digits_of_readHex value h1 List.mem_cons_self
  have valid : Nat.isValidChar c.toNat := c.valid
  rw [hexChar?, if_neg (hexDigit?_ne digit).1, value, Option.bind_some, if_pos valid,
    Char.ofNat_toNat]

/-! ## Strings -/

theorem scanString_plain_append {plain : Bytes} (hq : quote ∉ plain) (hb : backslash ∉ plain)
    (bs : Bytes) :
    scanString (plain ++ bs) =
      (plain ++ (scanString bs).1, (scanString bs).2.1, (scanString bs).2.2) := by
  induction plain with
  | nil => rfl
  | cons b plain ih =>
      rw [List.mem_cons, not_or] at hq hb
      rw [List.cons_append, scanString_plain (Ne.symm hq.1) (Ne.symm hb.1), ih hq.2 hb.2]
      rfl

theorem unescapeBytes_plain_append {plain : Bytes} (hb : backslash ∉ plain) (bs : Bytes) :
    unescapeBytes (plain ++ bs) = plain ++ unescapeBytes bs := by
  induction plain with
  | nil => rfl
  | cons b plain ih =>
      rw [List.mem_cons, not_or] at hb
      rw [List.cons_append, unescapeBytes.eq_def]
      simp only [Ne.symm hb.1, ne_eq, not_false_eq_true, if_true, ih hb.2, List.cons_append]

namespace Glyph

variable {c : Char} {glyph : Bytes} {escape : Bool}

theorem raw_free (noQuote : c ≠ '"') (noBackslash : c ≠ '\\') :
    quote ∉ String.utf8EncodeChar c ∧ backslash ∉ String.utf8EncodeChar c :=
  ⟨not_mem_utf8EncodeChar (by decide) (Ne.symm noQuote),
    not_mem_utf8EncodeChar (by decide) (Ne.symm noBackslash)⟩

/-- A rendered character in front of a string value is scanned whole. -/
theorem scanned (rendered : Glyph c glyph escape) (bs : Bytes) :
    scanString (glyph ++ bs) =
      (glyph ++ (scanString bs).1, escape || (scanString bs).2.1, (scanString bs).2.2) := by
  cases rendered with
  | raw printable noQuote noBackslash =>
      obtain ⟨hq, hb⟩ := raw_free noQuote noBackslash
      rw [scanString_plain_append hq hb, Bool.false_or]
  | short listed => exact scanString_escape _ bs
  | @hex h1 h2 h3 h4 value =>
      have free : ∀ h ∈ [h1, h2, h3, h4], h ≠ quote ∧ h ≠ backslash := by
        intro h among
        obtain ⟨d, digit⟩ := digits_of_readHex value h among
        exact (hexDigit?_ne digit).2
      have hq : quote ∉ [h1, h2, h3, h4] := fun among => (free _ among).1 rfl
      have hb : backslash ∉ [h1, h2, h3, h4] := fun among => (free _ among).2 rfl
      have digits := scanString_plain_append hq hb bs
      rw [List.cons_append, List.cons_append, scanString_escape, digits]
      rfl

/-- Resolving the escapes gives the bytes of the character. -/
theorem unescaped (rendered : Glyph c glyph escape) (bs : Bytes) :
    unescapeBytes (glyph ++ bs) = String.utf8EncodeChar c ++ unescapeBytes bs := by
  cases rendered with
  | raw printable noQuote noBackslash =>
      exact unescapeBytes_plain_append (raw_free noQuote noBackslash).2 bs
  | @short x listed =>
      have table : ∀ pair ∈ shortEscapes, ∀ bs,
          unescapeBytes (backslash :: pair.1 :: bs) =
            String.utf8EncodeChar pair.2 ++ unescapeBytes bs := by
        intro pair among bs
        simp only [shortEscapes, List.mem_cons, List.not_mem_nil, or_false] at among
        rcases among with rfl | rfl | rfl | rfl | rfl | rfl | rfl | rfl
        all_goals
          rw [unescapeBytes.eq_def]
          rfl
      exact table (x, c) listed bs
  | hex value =>
      rw [List.cons_append, unescapeBytes.eq_def]
      simp [hexChar?_of_readHex value]

end Glyph

namespace Rendered

variable {cs : List Char} {body : Bytes} {escapes : Bool}

theorem scanned (rendered : Rendered cs body escapes) (rest : Bytes) :
    scanString (body ++ quote :: rest) = (body, escapes, quote :: rest) := by
  induction rendered with
  | nil => exact scanString_quote rest
  | cons first later ih => rw [List.append_assoc, first.scanned, ih]

theorem unescaped (rendered : Rendered cs body escapes) :
    unescapeBytes body = encode (String.ofList cs) := by
  induction rendered with
  | nil => rfl
  | cons first later ih =>
      rw [first.unescaped, ih, encode, encode, String.toList_ofList, String.toList_ofList,
        List.flatMap_cons]

/-- Without an escape the text stands as it is. -/
theorem bare (rendered : Rendered cs body escapes) (none_escaped : escapes = false) :
    body = encode (String.ofList cs) := by
  induction rendered with
  | nil => rfl
  | cons first later ih =>
      rw [Bool.or_eq_false_iff] at none_escaped
      obtain ⟨here, behind⟩ := none_escaped
      cases first with
      | raw printable noQuote noBackslash =>
          rw [ih behind, encode, encode, String.toList_ofList, String.toList_ofList,
            List.flatMap_cons]
      | short listed => cases here
      | hex value => cases here

theorem value (rendered : Rendered cs body escapes) :
    stringValue body escapes = String.ofList cs := by
  cases escapes with
  | true => rw [stringValue, if_pos rfl, unescape, rendered.unescaped, decodeLossy_encode]
  | false =>
      rw [stringValue, if_neg (by simp), rendered.bare rfl, decodeLossy_encode]

end Rendered

/-! ## Fields -/

/-- A field of a line.  A value that is no string is given by its bytes. -/
inductive Field where
  | text (k : UInt8) (s : String)
  | number (k : UInt8) (body : Bytes)
  deriving DecidableEq, Repr

namespace Field

def key : Field → UInt8
  | text k _ => k
  | number k _ => k

/-- What the scanner makes of a field. -/
def set (o : Op) : Field → Op
  | text k s => o.setString (some k) s
  | number k body => o.setNumber (some k) (numberText body)

/-- A byte of a number or of `null`. -/
def Solid (b : UInt8) : Prop :=
  inNumber b = true ∧ isBlank b = false ∧ b ≠ quote ∧ b < 128 ∧ isWhitespace (asciiChar b) = false

/-- The key is no quote, and a value that is no string is one solid word. -/
inductive Ok : Field → Prop where
  | text {k : UInt8} {s : String} (apart : k ≠ quote) : Ok (.text k s)
  | number {k : UInt8} {body : Bytes} (apart : k ≠ quote) (nonempty : body ≠ [])
      (solid : ∀ b ∈ body, Solid b) : Ok (.number k body)

end Field

def Rec.fields : Rec → List Field
  | row c u a e i n =>
      [.text 99 c, .text 117 u, .number 97 (itoa [] a), .number 101 (expiryText e),
        .number 105 (itoa [] i), .number 110 (itoa [] n)]
  | hit c d i => [.text 104 c, .number 100 (itoa [] d), .number 105 (itoa [] i)]
  | del c => [.text 120 c]

/-- Spaces and tabs between two tokens. -/
def Blank (gap : Bytes) : Prop :=
  ∀ b ∈ gap, isBlank b = true

/-- The spellings of a field, with the blanks around its tokens. -/
inductive FieldSpelling : Field → Bytes → Prop where
  | text {k : UInt8} {s : String} {before gap gap' behind body : Bytes} {escapes : Bool}
      (blanks : Blank before ∧ Blank gap ∧ Blank gap' ∧ Blank behind)
      (rendered : Rendered s.toList body escapes) :
      FieldSpelling (.text k s) (before ++ quote :: k :: quote ::
        (gap ++ colon :: (gap' ++ quote :: (body ++ quote :: behind))))
  | number {k : UInt8} {before gap gap' behind body : Bytes}
      (blanks : Blank before ∧ Blank gap ∧ Blank gap' ∧ Blank behind) :
      FieldSpelling (.number k body) (before ++ quote :: k :: quote ::
        (gap ++ colon :: (gap' ++ (body ++ behind))))

inductive FieldsSpelling : List Field → Bytes → Prop where
  | last {f : Field} {text : Bytes} (spelled : FieldSpelling f text) : FieldsSpelling [f] text
  | cons {f : Field} {fs : List Field} {text rest : Bytes} (spelled : FieldSpelling f text)
      (others : FieldsSpelling fs rest) : FieldsSpelling (f :: fs) (text ++ comma :: rest)

inductive LineSpelling (fs : List Field) : Bytes → Prop where
  | braces {before behind body : Bytes} (blanks : Blank before ∧ Blank behind)
      (fields : FieldsSpelling fs body) :
      LineSpelling fs (before ++ 123 :: (body ++ closeBrace :: behind))

theorem Blank.not_mem {gap : Bytes} (blank : Blank gap) {b : UInt8} (other : isBlank b = false) :
    b ∉ gap := by
  intro member
  rw [blank b member] at other
  cases other

theorem Blank.dropWhile {gap : Bytes} (blank : Blank gap) (rest : Bytes) :
    (gap ++ rest).dropWhile isBlank = rest.dropWhile isBlank := by
  rw [List.dropWhile_append_of_pos blank]

theorem Blank.readValue {gap : Bytes} (blank : Blank gap) (key rest : Bytes) (o : Op) :
    readValue key (gap ++ rest) o = readValue key rest o := by
  rw [Codec.readValue, Codec.readValue, blank.dropWhile]

theorem blank_spec {b : UInt8} (blank : isBlank b = true) :
    inNumber b = true ∧ b ≠ quote ∧ b < 128 ∧ isWhitespace (asciiChar b) = true := by
  revert blank
  apply forall_byte (P := fun b => isBlank b = true →
    inNumber b = true ∧ b ≠ quote ∧ b < 128 ∧ isWhitespace (asciiChar b) = true)
  decide +kernel

/-- Blanks behind a number do not count. -/
theorem numberText_blank {body behind : Bytes} (nonempty : body ≠ [])
    (solid : ∀ b ∈ body, Field.Solid b) (blank : Blank behind) :
    numberText (body ++ behind) = numberText body := by
  have asciiBody : ∀ b ∈ body, b < 128 := fun b among => (solid b among).2.2.2.1
  have ascii : ∀ b ∈ body ++ behind, b < 128 := by
    intro b among
    rcases List.mem_append.mp among with inside | after
    · exact asciiBody b inside
    · exact (blank_spec (blank b after)).2.2.1
  have firm : ∀ c ∈ body.map asciiChar, isWhitespace c = false := by
    intro c among
    obtain ⟨b, inside, rfl⟩ := List.mem_map.mp among
    exact (solid b inside).2.2.2.2
  have soft : ∀ c ∈ (behind.map asciiChar).reverse, isWhitespace c = true := by
    intro c among
    obtain ⟨b, after, rfl⟩ := List.mem_map.mp (List.mem_reverse.mp among)
    exact (blank_spec (blank b after)).2.2.2
  have backwards : ∀ c ∈ (body.map asciiChar).reverse, isWhitespace c = false :=
    fun c among => firm c (List.mem_reverse.mp among)
  have front : ((body ++ behind).map asciiChar).dropWhile isWhitespace =
      (body ++ behind).map asciiChar := by
    cases body with
    | nil => exact absurd rfl nonempty
    | cons b body =>
        rw [List.cons_append, List.map_cons,
          List.dropWhile_cons_of_neg (by simp [firm (asciiChar b) (by simp)])]
  rw [numberText, numberText, decode?_ascii ascii, decode?_ascii asciiBody, Option.getD_some,
    Option.getD_some, trim, trim, String.toList_ofList, String.toList_ofList, front,
    dropWhile_none firm, List.map_append, List.reverse_append, List.dropWhile_append_of_pos soft,
    dropWhile_none backwards]

/-- A field is read up to the comma or brace behind it. -/
theorem parse_field {f : Field} (ok : f.Ok) {text : Bytes} (spelled : FieldSpelling f text)
    {stop : UInt8} (stops : inNumber stop = false) (apart : stop ≠ quote) (rest : Bytes) (o : Op) :
    parse (text ++ stop :: rest) o = parse rest (f.set o) := by
  have quoteFree : ∀ {gap : Bytes}, Blank gap → quote ∉ gap := fun blank =>
    blank.not_mem (by decide)
  have colonFree : ∀ {gap : Bytes}, Blank gap → colon ∉ gap := fun blank =>
    blank.not_mem (by decide)
  cases spelled with
  | @text k s before gap gap' behind body escapes blanks rendered =>
      obtain ⟨lead, keyed, opened, closed⟩ := blanks
      cases ok with
      | text key =>
          have turned := turn_key [k] gap (quoteFree lead) (by simpa using key.symm)
            (colonFree keyed) (gap' ++ quote :: (body ++ quote :: (behind ++ stop :: rest))) o
          rw [opened.readValue, readValue_string o (rendered.scanned _)] at turned
          have skipped := parse_skip (behind ++ [stop])
            (by simpa using ⟨quoteFree closed, apart.symm⟩) rest
            (o.setString (some k) (stringValue body escapes))
          rw [rendered.value, String.ofList_toList] at turned skipped
          simp only [List.append_assoc, List.cons_append, List.nil_append] at turned skipped ⊢
          rw [parse_more turned]
          exact skipped
  | @number k before gap gap' behind body blanks =>
      obtain ⟨lead, keyed, opened, closed⟩ := blanks
      cases ok with
      | number key nonempty solid =>
          obtain ⟨v, num, shape⟩ := List.exists_cons_of_ne_nil nonempty
          have first := solid v (shape ▸ List.mem_cons_self)
          have run : ∀ b ∈ v :: (num ++ behind), inNumber b = true := by
            intro b among
            rw [← List.cons_append, ← shape] at among
            rcases List.mem_append.mp among with inside | after
            · exact (solid b inside).1
            · exact (blank_spec (closed b after)).1
          have turned := turn_key [k] gap (quoteFree lead) (by simpa using key.symm)
            (colonFree keyed) (gap' ++ (v :: ((num ++ behind) ++ stop :: rest))) o
          have text : numberText (v :: (num ++ behind)) = numberText body := by
            rw [← List.cons_append, ← shape, numberText_blank nonempty solid closed]
          rw [opened.readValue, readValue_run o first.2.1 first.2.2.1 run stops, text] at turned
          have skipped := parse_skip [stop] (by simpa using apart.symm) rest
            (o.setNumber (some k) (numberText body))
          rw [shape] at turned skipped ⊢
          simp only [List.append_assoc, List.cons_append, List.nil_append] at turned skipped ⊢
          rw [parse_more turned]
          exact skipped

theorem parse_fields {fs : List Field} (ok : ∀ f ∈ fs, f.Ok) {text : Bytes}
    (spelled : FieldsSpelling fs text) (rest : Bytes) (o : Op) :
    parse (text ++ closeBrace :: rest) o = parse rest (fs.foldl Field.set o) := by
  induction spelled generalizing o with
  | last spelled =>
      exact parse_field (ok _ List.mem_cons_self) spelled (by decide) (by decide) rest o
  | cons spelled others ih =>
      rw [List.append_assoc, List.cons_append,
        parse_field (ok _ List.mem_cons_self) spelled (by decide) (by decide),
        ih fun f among => ok f (List.mem_cons_of_mem _ among)]
      rfl

theorem parse_spelling {fs : List Field} (ok : ∀ f ∈ fs, f.Ok) {line : Bytes}
    (spelled : LineSpelling fs line) (o : Op) : parse line o = some (fs.foldl Field.set o) := by
  cases spelled with
  | @braces before behind body blanks fields =>
      have skipped := parse_skip (before ++ [123])
        (by simpa [quote] using blanks.1.not_mem (b := quote) (by decide))
        (body ++ closeBrace :: behind) o
      rw [List.append_assoc, List.singleton_append] at skipped
      rw [skipped, parse_fields ok fields]
      exact parse_of_no_quote _ (blanks.2.not_mem (by decide))

/-! ## The order of the fields -/

theorem setString_comm (o : Op) {k k' : UInt8} (other : k ≠ k') (s s' : String) :
    (o.setString (some k) s).setString (some k') s' =
      (o.setString (some k') s').setString (some k) s := by
  unfold Op.setString
  split <;> split <;> simp_all

theorem setString_setNumber_comm (o : Op) (k k' : UInt8) (s num : String) :
    (o.setString (some k) s).setNumber (some k') num =
      (o.setNumber (some k') num).setString (some k) s := by
  unfold Op.setString Op.setNumber
  split <;> split <;> first | rfl | (split <;> rfl)

theorem setNumber_comm (o : Op) {k k' : UInt8} (other : k ≠ k') (num num' : String) :
    (o.setNumber (some k) num).setNumber (some k') num' =
      (o.setNumber (some k') num').setNumber (some k) num := by
  unfold Op.setNumber
  split <;> split <;> first | simp_all; done | (split <;> simp_all)

/-- Fields with different keys are stored independently. -/
theorem set_comm (o : Op) {f g : Field} (other : f.key ≠ g.key) :
    Field.set (Field.set o f) g = Field.set (Field.set o g) f := by
  cases f with
  | text k s =>
      cases g with
      | text k' s' => exact setString_comm o other s s'
      | number k' body => exact setString_setNumber_comm o k k' s (numberText body)
  | number k body =>
      cases g with
      | text k' s' => exact (setString_setNumber_comm o k' k s' (numberText body)).symm
      | number k' body' => exact setNumber_comm o other (numberText body) (numberText body')

theorem foldl_set_perm {fs gs : List Field} (perm : fs.Perm gs) (keys : (gs.map Field.key).Nodup)
    (o : Op) : fs.foldl Field.set o = gs.foldl Field.set o := by
  refine perm.foldl_eq' (fun f inside g inside' o => ?_) o
  by_cases same : f = g
  · rw [same]
  · have other : f.key ≠ g.key := by
      intro equal
      have unique := List.inj_on_of_nodup_map keys
      exact same (unique (perm.mem_iff.mp inside) (perm.mem_iff.mp inside') equal)
    exact set_comm o other

/-! ## Records -/

theorem solid_itoa (n : Int64) : ∀ b ∈ itoa [] n, Field.Solid b := by
  intro b among
  have spec := numberByte_spec (itoa_numberByte among)
  exact ⟨spec.1, spec.2.1, spec.2.2.1, spec.2.2.2.2.1, spec.2.2.2.2.2⟩

theorem solid_expiryText (e : Int64) : ∀ b ∈ expiryText e, Field.Solid b := by
  unfold expiryText
  split
  · have letters : ∀ b ∈ encode "null", inNumber b = true ∧ isBlank b = false ∧ b ≠ quote ∧
        b < 128 ∧ isWhitespace (asciiChar b) = false := by decide +kernel
    exact letters
  · exact solid_itoa e

theorem ok_fields (r : Rec) : ∀ f ∈ r.fields, f.Ok := by
  have number : ∀ {k : UInt8} (n : Int64), k ≠ quote → (Field.number k (itoa [] n)).Ok :=
    fun n apart => .number apart (itoa_ne_nil n) (solid_itoa n)
  cases r with
  | row c u a e i n =>
      simp only [Rec.fields, List.forall_mem_cons]
      exact ⟨.text (by decide), .text (by decide), number a (by decide),
        .number (by decide) (expiryText_ne_nil e) (solid_expiryText e), number i (by decide),
        number n (by decide), by simp⟩
  | hit c d i =>
      simp only [Rec.fields, List.forall_mem_cons]
      exact ⟨.text (by decide), number d (by decide), number i (by decide), by simp⟩
  | del c =>
      simp only [Rec.fields, List.forall_mem_cons]
      exact ⟨.text (by decide), by simp⟩

theorem nodup_keys_fields (r : Rec) : (r.fields.map Field.key).Nodup := by
  cases r with
  | row => simp [Rec.fields, Field.key]
  | hit => simp [Rec.fields, Field.key]
  | del => simp [Rec.fields, Field.key]

/-- The fields of a record amount to its operation. -/
theorem foldl_fields (r : Rec) : r.fields.foldl Field.set {} = r.op := by
  cases r with
  | row c u a e i n =>
      simp only [Rec.fields, List.foldl_cons, List.foldl_nil, Field.set]
      rw [setNumber_expiry]
      by_cases never : e = 0
      · simp [never, Op.setString, Op.setNumber, numberValue_itoa, Rec.op]
      · simp [never, Op.setString, Op.setNumber, numberValue_itoa, Rec.op]
  | hit c d i => simp [Rec.fields, Field.set, Op.setString, Op.setNumber, numberValue_itoa, Rec.op]
  | del c => rfl

/-- However the fields of a record are ordered, escaped and spaced, the scanner
reads the operation that it reads from the line the program writes. -/
theorem parseOp_spelling (r : Rec) (ok : codeOk r.code = true) {fs : List Field}
    (perm : fs.Perm r.fields) {line : Bytes} (spelled : LineSpelling fs line) :
    parseOp line = some r.op ∧ parseOp line = parseOp r.line := by
  have plain : r.Ok := .of_codeOk ok
  have fieldsOk : ∀ f ∈ fs, f.Ok := fun f among => ok_fields r f (perm.mem_iff.mp among)
  have read : parseOp line = some r.op := by
    rw [parseOp_eq, parse_spelling fieldsOk spelled, foldl_set_perm perm (nodup_keys_fields r),
      foldl_fields, Option.filter_some]
    rw [if_pos]
    rw [← onto_empty]
    exact onto_named plain {}
  exact ⟨read, read.trans (parseOp_line plain).symm⟩

/-- A row with its url in front, in other escapes and with blanks. -/
def respelled : Bytes :=
  encode "\x7b\"u\": \"a\\u002F\\\"\\/\" ,\"c\":\"promo\",\"n\":0,\"e\":null ,\"i\":2,\t\"a\":1\x7d"

def respelledFields : List Field :=
  [.text 117 "a/\"/", .text 99 "promo", .number 110 (itoa [] 0), .number 101 (expiryText 0),
    .number 105 (itoa [] 2), .number 97 (itoa [] 1)]

theorem respelled_spelling : LineSpelling respelledFields respelled := by
  have none : Blank [] := by simp [Blank]
  have space : Blank [32] := by simp [Blank, isBlank]
  have tab : Blank [9] := by simp [Blank, isBlank]
  have raw : ∀ {c : Char}, 32 ≤ c.toNat ∧ c ≠ '"' ∧ c ≠ '\\' →
      Glyph c (String.utf8EncodeChar c) false :=
    fun plain => .raw plain.1 plain.2.1 plain.2.2
  have slash : Glyph '/' [backslash, 117, 48, 48, 50, 70] true := .hex (by decide)
  have quoted : Glyph '"' [backslash, 34] true := .short (by decide)
  have slash' : Glyph '/' [backslash, 47] true := .short (by decide)
  have url : Rendered "a/\"/".toList _ _ :=
    .cons (raw (by decide)) (.cons slash (.cons quoted (.cons slash' .nil)))
  have code : Rendered "promo".toList _ _ :=
    .cons (raw (by decide)) (.cons (raw (by decide)) (.cons (raw (by decide))
      (.cons (raw (by decide)) (.cons (raw (by decide)) .nil))))
  have line : LineSpelling respelledFields _ :=
    .braces ⟨none, none⟩ (.cons (.text ⟨none, none, space, space⟩ url)
      (.cons (.text ⟨none, none, none, none⟩ code) (.cons (.number ⟨none, none, none, none⟩)
        (.cons (.number ⟨none, none, none, space⟩) (.cons (.number ⟨none, none, none, none⟩)
          (.last (.number ⟨tab, none, none, none⟩)))))))
  exact line

theorem parseOp_respelled :
    parseOp respelled = some (Rec.row "promo" "a/\"/" 1 0 2 0).op ∧
      parseOp respelled = parseOp (Rec.row "promo" "a/\"/" 1 0 2 0).line :=
  parseOp_spelling (.row "promo" "a/\"/" 1 0 2 0) (by decide) (by decide) respelled_spelling

/-! ## The line that is written -/

theorem escByte_high {b : UInt8} (high : ¬ b < 128) : escByte b = [b] := by
  apply escByte_of_not_must
  revert high
  apply forall_byte (P := fun b => ¬ b < 128 → mustEscape b = false)
  decide +kernel

/-- A byte that is escaped gets a letter or four digits. -/
theorem escByte_must (b : UInt8) : mustEscape b = true →
    (escByte b = [backslash, (escByte b).getD 1 0] ∧
        ((escByte b).getD 1 0, asciiChar b) ∈ shortEscapes) ∨
      (escByte b = [backslash, 117, 48, 48, (escByte b).getD 4 0, (escByte b).getD 5 0] ∧
        readHex 0 [48, 48, (escByte b).getD 4 0, (escByte b).getD 5 0] =
          some (asciiChar b).toNat) := by
  revert b
  apply forall_byte
  decide +kernel

theorem printable_of_not_must (b : UInt8) : b < 128 → mustEscape b = false →
    32 ≤ (asciiChar b).toNat ∧ asciiChar b ≠ '"' ∧ asciiChar b ≠ '\\' := by
  revert b
  apply forall_byte
  decide +kernel

/-- What the writer makes of a character is one of its renderings. -/
theorem glyph_esc (c : Char) :
    ∃ escape, Glyph c ((String.utf8EncodeChar c).flatMap escByte) escape := by
  by_cases low : ∃ b ∈ String.utf8EncodeChar c, b < 128
  · obtain ⟨b, among, ascii⟩ := low
    have alone := utf8EncodeChar_of_mem among ascii
    have same : asciiChar b = c := by
      by_contra other
      exact not_mem_utf8EncodeChar ascii other among
    rw [alone, List.flatMap_cons, List.flatMap_nil, List.append_nil]
    cases must : mustEscape b with
    | true =>
        rcases escByte_must b must with ⟨form, listed⟩ | ⟨form, value⟩
        · rw [form]
          exact ⟨true, .short (same ▸ listed)⟩
        · rw [form]
          exact ⟨true, .hex (same ▸ value)⟩
    | false =>
        obtain ⟨printable, noQuote, noBackslash⟩ := printable_of_not_must b ascii must
        rw [same] at printable noQuote noBackslash
        rw [escByte_of_not_must must, ← alone]
        exact ⟨false, .raw printable noQuote noBackslash⟩
  · have high : ∀ b ∈ String.utf8EncodeChar c, ¬ b < 128 := fun b among ascii =>
      low ⟨b, among, ascii⟩
    have raw : (String.utf8EncodeChar c).flatMap escByte = String.utf8EncodeChar c := by
      rw [List.flatMap_congr fun b among => escByte_high (high b among)]
      simp
    have wide : 128 ≤ c.toNat := by
      by_contra small
      have value : (UInt8.ofNat c.toNat).toNat = c.toNat := by
        rw [UInt8.toNat_ofNat', Nat.mod_eq_of_lt (by omega)]
      have ascii : UInt8.ofNat c.toNat < 128 := by
        rw [UInt8.lt_iff_toNat_lt, value]
        exact Nat.lt_of_not_le small
      have encoded := utf8EncodeChar_asciiChar ascii
      rw [asciiChar, value, Char.ofNat_toNat] at encoded
      exact high _ (encoded ▸ List.mem_cons_self) ascii
    rw [raw]
    refine ⟨false, .raw (by omega) ?_ ?_⟩
    · rintro rfl
      exact absurd wide (by decide)
    · rintro rfl
      exact absurd wide (by decide)

theorem rendered_esc (cs : List Char) :
    ∃ escapes, Rendered cs ((cs.flatMap String.utf8EncodeChar).flatMap escByte) escapes := by
  induction cs with
  | nil => exact ⟨false, .nil⟩
  | cons c cs ih =>
      obtain ⟨escape, glyph⟩ := glyph_esc c
      obtain ⟨escapes, rendered⟩ := ih
      rw [List.flatMap_cons, List.flatMap_append]
      exact ⟨escape || escapes, .cons glyph rendered⟩

theorem esc_plain {c : String} (plain : Plain c) : (encode c).flatMap escByte = encode c := by
  have clean : ∀ b ∈ encode c, escByte b = [b] := by
    intro b among
    apply escByte_of_not_must
    have byte := plain.bytes b among
    revert byte
    apply forall_byte (P := fun b => codeByte b = true → mustEscape b = false)
    decide +kernel
  rw [List.flatMap_congr clean]
  simp

theorem blank_nil : Blank [] := by
  intro b among
  cases among

theorem spelled_text (k : UInt8) (s : String) :
    FieldSpelling (.text k s)
      (quote :: k :: quote :: colon :: quote :: ((encode s).flatMap escByte ++ [quote])) := by
  obtain ⟨escapes, rendered⟩ := rendered_esc s.toList
  have tight := FieldSpelling.text (k := k) ⟨blank_nil, blank_nil, blank_nil, blank_nil⟩ rendered
  simpa [encode] using tight

theorem spelled_number (k : UInt8) (body : Bytes) :
    FieldSpelling (.number k body) (quote :: k :: quote :: colon :: body) := by
  have tight : FieldSpelling (.number k body) _ :=
    .number ⟨blank_nil, blank_nil, blank_nil, blank_nil⟩
  simpa using tight

/-- The line that the program writes is one of the spellings. -/
theorem spelled_line {r : Rec} (ok : r.Ok) : LineSpelling r.fields r.line := by
  have tight := fun {body : Bytes} (fields : FieldsSpelling r.fields body) =>
    LineSpelling.braces ⟨blank_nil, blank_nil⟩ fields
  cases r with
  | row c u a e i n =>
      have code : (encode c).flatMap escByte = encode c := esc_plain ok
      have line := tight (.cons (spelled_text 99 c) (.cons (spelled_text 117 u)
        (.cons (spelled_number 97 _) (.cons (spelled_number 101 _) (.cons (spelled_number 105 _)
          (.last (spelled_number 110 _)))))))
      rw [code] at line
      simpa [Rec.line, rowLine_eq] using line
  | hit c d i =>
      have code : (encode c).flatMap escByte = encode c := esc_plain ok
      have line := tight (.cons (spelled_text 104 c) (.cons (spelled_number 100 _)
        (.last (spelled_number 105 _))))
      rw [code] at line
      simpa [Rec.line, hitLine_eq] using line
  | del c =>
      have code : (encode c).flatMap escByte = encode c := esc_plain ok
      have line := tight (.last (spelled_text 120 c))
      rw [code] at line
      simpa [Rec.line, delLine_eq] using line

end Shrt.Codec
