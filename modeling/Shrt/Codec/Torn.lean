import Mathlib.Data.List.Infix
import Shrt.Codec.Record

/-!
# Lines cut in the middle

A line is a sequence of pieces: a field with what ends it, or a single byte
between fields.  A scanner that meets the next line behind whole pieces goes
on as if it had read them in that line.  Behind a cut piece it misreads the
start of the next line.
-/

namespace Shrt.Codec

open Shrt.Lib.Utf8 Shrt.Lib.Framing

inductive Piece where
  /-- A byte between fields. -/
  | mark (b : UInt8)
  /-- A string field with its closing quote: its bytes, and what they spell. -/
  | text (k : UInt8) (body : Bytes) (value : String)
  /-- A number field with the byte that ends it. -/
  | number (k : UInt8) (body : Bytes) (stop : UInt8)

namespace Piece

def bytes : Piece → Bytes
  | mark b => [b]
  | text k body _ => quote :: k :: quote :: colon :: quote :: (body ++ [quote])
  | number k body stop => quote :: k :: quote :: colon :: (body ++ [stop])

/-- What the scanner makes of a piece. -/
def read (o : Op) : Piece → Op
  | mark _ => o
  | text k _ value => o.setString (some k) value
  | number k body _ => o.setNumber (some k) (numberText body)

/-- The piece is well formed: a string value is scanned whole, and a cut one
runs over an opening brace up to the quote behind it. -/
inductive Ok : Piece → Prop where
  | mark {b : UInt8} (apart : b ≠ quote) : Ok (.mark b)
  | text {k : UInt8} {body : Bytes} {value : String} (key : k ≠ quote)
      (whole : ∀ rest, ∃ escapes, scanString (body ++ quote :: rest) =
        (body, escapes, quote :: rest) ∧ stringValue body escapes = value)
      (cut : ∀ part, part <+: body → ∀ rest, ∃ escapes,
        scanString (part ++ 123 :: quote :: rest) = (part ++ [123], escapes, quote :: rest)) :
      Ok (.text k body value)
  | number {k : UInt8} {body : Bytes} {stop : UInt8} (key : k ≠ quote) (nonempty : body ≠ [])
      (digits : ∀ b ∈ body, inNumber b = true ∧ isBlank b = false ∧ b ≠ quote)
      (stops : inNumber stop = false) (apart : stop ≠ quote) : Ok (.number k body stop)

end Piece

theorem parse_piece {p : Piece} (ok : p.Ok) (rest : Bytes) (o : Op) :
    parse (p.bytes ++ rest) o = parse rest (p.read o) := by
  have none : quote ∉ ([] : Bytes) := by simp
  cases ok with
  | @mark b apart => exact parse_skip [b] (by simpa using apart.symm) rest o
  | @text k body value key whole cut =>
      obtain ⟨escapes, scanned, spelled⟩ := whole rest
      have field := parse_stringField none key o scanned
      simpa [Piece.bytes, Piece.read, spelled] using field
  | @number k body stop key nonempty digits stops apart =>
      have skipped := parse_skip [stop] (by simpa using apart.symm) rest
        (o.setNumber (some k) (numberText body))
      have field := (parse_numberField none key o nonempty digits stops).trans skipped
      simpa [Piece.bytes, Piece.read] using field

theorem parse_pieces {ps : List Piece} (ok : ∀ p ∈ ps, p.Ok) (rest : Bytes) (o : Op) :
    parse (ps.flatMap Piece.bytes ++ rest) o = parse rest (ps.foldl Piece.read o) := by
  induction ps generalizing o with
  | nil => rfl
  | cons p ps ih =>
      rw [List.flatMap_cons, List.append_assoc, parse_piece (ok p List.mem_cons_self),
        ih (fun q hq => ok q (List.mem_cons_of_mem _ hq))]
      rfl

theorem parse_all_pieces {ps : List Piece} (ok : ∀ p ∈ ps, p.Ok) (o : Op) :
    parse (ps.flatMap Piece.bytes) o = some (ps.foldl Piece.read o) := by
  have whole := parse_pieces ok [] o
  rw [List.append_nil] at whole
  exact whole.trans (parse_of_no_quote _ (by simp))

/-! ## The pieces of a line -/

def Rec.pieces : Rec → List Piece
  | .row c u a e i n =>
      [.mark 123, .text 99 (encode c) c, .mark comma,
       .text 117 ((encode u).flatMap escByte) u, .mark comma,
       .number 97 (itoa [] a) comma, .number 101 (expiryText e) comma,
       .number 105 (itoa [] i) comma, .number 110 (itoa [] n) closeBrace]
  | .hit c d i =>
      [.mark 123, .text 104 (encode c) c, .mark comma, .number 100 (itoa [] d) comma,
       .number 105 (itoa [] i) closeBrace]
  | .del c => [.mark 123, .text 120 (encode c) c, .mark closeBrace]

theorem line_eq_pieces (r : Rec) : r.line = r.pieces.flatMap Piece.bytes := by
  cases r with
  | row c u a e i n => simp [Rec.line, rowLine_eq, Rec.pieces, Piece.bytes]
  | hit c d i => simp [Rec.line, hitLine_eq, Rec.pieces, Piece.bytes]
  | del c => simp [Rec.line, delLine_eq, Rec.pieces, Piece.bytes]

/-- A cut of two parts falls inside the first one or behind it. -/
theorem cut_append {α : Type} {cut first second : List α} (within : cut <+: first ++ second) :
    (cut <+: first ∧ cut ≠ first) ∨ ∃ part, cut = first ++ part ∧ part <+: second := by
  obtain ⟨missing, joined⟩ := within
  rcases List.append_eq_append_iff.mp joined with ⟨left, whole, -⟩ | ⟨part, whole, joined⟩
  · by_cases all : left = []
    · subst all
      exact Or.inr ⟨[], by simpa using whole.symm, List.nil_prefix⟩
    · refine Or.inl ⟨⟨left, whole.symm⟩, fun same => all ?_⟩
      simpa [same] using whole
  · exact Or.inr ⟨part, whole, ⟨missing, joined.symm⟩⟩

/-- A cut value that holds no quote runs on to the next quote. -/
theorem scanString_run (part : Bytes) (hq : quote ∉ part) (hb : backslash ∉ part)
    (rest : Bytes) :
    scanString (part ++ 123 :: quote :: rest) = (part ++ [123], false, quote :: rest) := by
  have whole : scanString ((part ++ [123]) ++ quote :: rest) =
      (part ++ [123], false, quote :: rest) :=
    scanString_of_plain (by simpa [quote] using hq) (by simpa [backslash] using hb) rest
  simpa using whole

theorem scanString_cut_escByte {c : UInt8} {part : Bytes} (cut : part <+: escByte c)
    (short : part ≠ escByte c) (rest : Bytes) : ∃ escapes,
      scanString (part ++ 123 :: quote :: rest) = (part ++ [123], escapes, quote :: rest) := by
  have brace : (123 : UInt8) ≠ quote ∧ (123 : UInt8) ≠ backslash := by decide
  have zero : (48 : UInt8) ≠ quote ∧ (48 : UInt8) ≠ backslash := by decide
  have clean : scanString (123 :: quote :: rest) = ([123], false, quote :: rest) :=
    scanString_run [] (by simp) (by simp) rest
  have shape := escByte_escaped c
  generalize escByte c = body at cut short shape
  generalize mustEscape c = flag at shape
  cases shape with
  | raw hq hb =>
      rcases List.prefix_cons_iff.mp cut with rfl | ⟨tail, rfl, last⟩
      · exact ⟨false, clean⟩
      · rw [List.prefix_nil.mp last] at short
        exact absurd rfl short
  | short x undo =>
      simp only [List.prefix_cons_iff, List.prefix_nil] at cut
      rcases cut with rfl | ⟨_, rfl, rfl | ⟨_, rfl, rfl⟩⟩
      · exact ⟨false, clean⟩
      · exact ⟨true, by simp [scanString_escape, scanString_quote]⟩
      · exact absurd rfl short
  | hex h1 h2 hq1 hb1 hq2 hb2 undo =>
      simp only [List.prefix_cons_iff, List.prefix_nil] at cut
      rcases cut with rfl | ⟨_, rfl, rfl | ⟨_, rfl, rfl | ⟨_, rfl, rfl | ⟨_, rfl, rfl |
        ⟨_, rfl, rfl | ⟨_, rfl, rfl⟩⟩⟩⟩⟩⟩
      · exact ⟨false, clean⟩
      · exact ⟨true, by simp [scanString_escape, scanString_quote]⟩
      · exact ⟨true, by simp [scanString_escape, clean]⟩
      · exact ⟨true, by simp [scanString_escape, scanString_plain, zero, clean]⟩
      · exact ⟨true, by simp [scanString_escape, scanString_plain, zero, clean]⟩
      · exact ⟨true, by simp [scanString_escape, scanString_plain, zero, hq1, hb1, clean]⟩
      · exact absurd rfl short

/-- So does a cut escaped value, also when the cut is inside an escape. -/
theorem scanString_cut_esc {bs part : Bytes} (cut : part <+: bs.flatMap escByte)
    (rest : Bytes) : ∃ escapes,
      scanString (part ++ 123 :: quote :: rest) = (part ++ [123], escapes, quote :: rest) := by
  induction bs generalizing part with
  | nil =>
      rw [List.flatMap_nil, List.prefix_nil] at cut
      subst cut
      exact ⟨false, scanString_run [] (by simp) (by simp) rest⟩
  | cons c bs ih =>
      rw [List.flatMap_cons] at cut
      rcases cut_append cut with ⟨inside, short⟩ | ⟨part, rfl, later⟩
      · exact scanString_cut_escByte inside short rest
      · obtain ⟨escapes, scanned⟩ := ih later
        rw [List.append_assoc, scanString_escByte, scanned]
        exact ⟨mustEscape c || escapes, by simp⟩

theorem ok_code {k : UInt8} (key : k ≠ quote) {c : String} (plain : Plain c) :
    (Piece.text k (encode c) c).Ok := by
  refine .text key (fun rest => ⟨false, scanString_code plain rest, stringValue_encode c⟩) ?_
  intro part cut rest
  exact ⟨false, scanString_run part
    (fun member => plain.not_mem (by decide) (cut.subset member))
    (fun member => plain.not_mem (by decide) (cut.subset member)) rest⟩

theorem ok_itoa {k : UInt8} (key : k ≠ quote) (n : Int64) {stop : UInt8}
    (stops : inNumber stop = false) (apart : stop ≠ quote) :
    (Piece.number k (itoa [] n) stop).Ok :=
  .number key (itoa_ne_nil n)
    (fun _ hb =>
      have spec := numberByte_spec (itoa_numberByte hb)
      ⟨spec.1, spec.2.1, spec.2.2.1⟩) stops apart

theorem ok_pieces {r : Rec} (ok : r.Ok) : ∀ p ∈ r.pieces, p.Ok := by
  cases r with
  | row c u a e i n =>
      have url : (Piece.text 117 ((encode u).flatMap escByte) u).Ok :=
        .text (by decide) (fun rest => ⟨_, scanString_esc (encode u) rest, stringValue_esc u⟩)
          fun part cut rest => scanString_cut_esc cut rest
      have expiry : (Piece.number 101 (expiryText e) comma).Ok :=
        .number (by decide) (expiryText_ne_nil e) (fun _ hb => expiryText_digits hb)
          (by decide) (by decide)
      simp only [Rec.pieces, List.forall_mem_cons]
      exact ⟨.mark (by decide), ok_code (by decide) ok, .mark (by decide), url,
        .mark (by decide), ok_itoa (by decide) a (by decide) (by decide), expiry,
        ok_itoa (by decide) i (by decide) (by decide),
        ok_itoa (by decide) n (by decide) (by decide), by simp⟩
  | hit c d i =>
      simp only [Rec.pieces, List.forall_mem_cons]
      exact ⟨.mark (by decide), ok_code (by decide) ok, .mark (by decide),
        ok_itoa (by decide) d (by decide) (by decide),
        ok_itoa (by decide) i (by decide) (by decide), by simp⟩
  | del c =>
      simp only [Rec.pieces, List.forall_mem_cons]
      exact ⟨.mark (by decide), ok_code (by decide) ok, .mark (by decide), by simp⟩

/-- A cut line ends behind whole pieces or inside one. -/
theorem cut_pieces {ps : List Piece} {cut : Bytes} (within : cut <+: ps.flatMap Piece.bytes) :
    (∃ read, read <+: ps ∧ cut = read.flatMap Piece.bytes) ∨
    ∃ read p part, read ++ [p] <+: ps ∧ cut = read.flatMap Piece.bytes ++ part ∧
      part ≠ [] ∧ part <+: p.bytes ∧ part ≠ p.bytes := by
  induction ps generalizing cut with
  | nil =>
      rw [List.flatMap_nil, List.prefix_nil] at within
      exact Or.inl ⟨[], List.nil_prefix, within⟩
  | cons p ps ih =>
      rw [List.flatMap_cons] at within
      rcases cut_append within with ⟨inside, short⟩ | ⟨part, rfl, later⟩
      · by_cases none : cut = []
        · exact Or.inl ⟨[], List.nil_prefix, none⟩
        · exact Or.inr ⟨[], p, cut, by simp, rfl, none, inside, short⟩
      · rcases ih later with ⟨read, done, rfl⟩ | ⟨read, q, part, done, rfl, some, inside, short⟩
        · exact Or.inl ⟨p :: read, List.prefix_cons_inj p |>.mpr done, by simp⟩
        · exact Or.inr ⟨p :: read, q, part, by simpa using done, by simp, some, inside, short⟩

/-! ## The line behind a cut piece -/

/-- The scanner drops the tombstone behind the cut: it refuses the line, or
reads at most a number of the cut field. -/
def DropsDel (k : UInt8) (part : Bytes) : Prop :=
  ∀ c, Plain c → ∀ o, parse (part ++ delLine c) o = none ∨ parse (part ++ delLine c) o = some o ∨
    ∃ num, parse (part ++ delLine c) o = some (o.setNumber (some k) num)

/-- The scanner stores the first string of the next line under the cut key. -/
def TakesNext (k : UInt8) (part : Bytes) : Prop :=
  ∀ next, next ≠ colon → ∀ c, Plain c → ∀ rest o,
    parse (part ++ 123 :: quote :: next :: quote :: colon :: quote ::
      (encode c ++ quote :: rest)) o = parse rest (o.setString (some k) c)

/-- A key is read up to the next quote, and its value behind the next colon. -/
theorem parse_acrossKey {c : String} (plain : Plain c) (key gap : Bytes) (keyFree : quote ∉ key)
    (gapFree : colon ∉ gap) (rest : Bytes) (o : Op) :
    parse (quote :: (key ++ quote :: (gap ++ colon :: quote ::
      (encode c ++ quote :: rest)))) o = parse rest (o.setString key.head? c) := by
  apply parse_more
  have none : quote ∉ ([] : Bytes) := by simp
  have keyed := turn_key key gap none keyFree gapFree (quote :: (encode c ++ quote :: rest)) o
  rw [readValue_string o (scanString_code plain rest), stringValue_encode] at keyed
  exact keyed

theorem takesNext_key {k : UInt8} (key : k ≠ quote) : TakesNext k [quote, k] := by
  intro next other c plain rest o
  have across := parse_acrossKey plain [k, 123] [next, quote]
    (by simpa [quote] using key.symm) (by simpa [colon, quote] using Ne.symm other) rest o
  simpa using across

theorem takesNext_closedKey {k : UInt8} (key : k ≠ quote) : TakesNext k [quote, k, quote] := by
  intro next other c plain rest o
  have across := parse_acrossKey plain [k] [123, quote, next, quote]
    (by simpa using key.symm) (by simpa [colon, quote] using Ne.symm other) rest o
  simpa using across

theorem dropsDel_opening (k : UInt8) : DropsDel k [quote] := by
  intro c plain o
  have stopped : parse [closeBrace] o = some o := parse_of_no_quote o (by decide)
  have across := (parse_acrossKey plain [123] [120, quote] (by decide) (by decide)
    [closeBrace] o).trans stopped
  refine Or.inr (Or.inl ?_)
  rw [delLine_eq]
  simpa using across

/-- A cut number runs on over the whole tombstone. -/
theorem dropsDel_number {k : UInt8} (key : k ≠ quote) {part : Bytes}
    (digits : ∀ b ∈ part, inNumber b = true ∧ isBlank b = false ∧ b ≠ quote) :
    DropsDel k (quote :: k :: quote :: colon :: part) := by
  intro c plain o
  have none : quote ∉ ([] : Bytes) := by simp
  have inside : ∀ b ∈ encode c, inNumber b = true := by
    intro b member
    have comma : b ≠ comma := fun same => plain.not_mem (by decide) (same ▸ member)
    have brace : b ≠ closeBrace := fun same => plain.not_mem (by decide) (same ▸ member)
    simp [inNumber, comma, brace]
  have run : ∀ b ∈ part ++ 123 :: quote :: 120 :: quote :: colon :: quote ::
      (encode c ++ [quote]), inNumber b = true := by
    intro b member
    simp only [List.mem_append, List.mem_cons, List.not_mem_nil, or_false] at member
    rcases member with old | rfl | rfl | rfl | rfl | rfl | rfl | code | rfl
    · exact (digits b old).1
    all_goals first | exact inside b code | decide
  obtain ⟨v, num, shape, notBlank, notQuote⟩ : ∃ v num,
      part ++ 123 :: quote :: 120 :: quote :: colon :: quote :: (encode c ++ [quote]) = v :: num ∧
        isBlank v = false ∧ v ≠ quote := by
    cases part with
    | nil => exact ⟨_, _, rfl, by decide, by decide⟩
    | cons v part => exact ⟨v, _, rfl, (digits v List.mem_cons_self).2⟩
  have line : part ++ delLine c = v :: (num ++ closeBrace :: []) := by
    rw [← List.cons_append, ← shape, delLine_eq]
    simp
  rw [shape] at run
  have turned := turn_key [k] [] none (by simpa using key.symm) (by simp)
    (part ++ delLine c) o
  rw [line, readValue_run o notBlank notQuote run (by decide), ← line] at turned
  refine Or.inr (Or.inr ⟨numberText (v :: num), ?_⟩)
  exact (parse_more turned).trans (parse_of_no_quote _ (by decide))

/-- A cut string ends at the first quote of the tombstone; the rest of the
line has no colon behind its next key. -/
theorem dropsDel_text {k : UInt8} (key : k ≠ quote) {part : Bytes}
    (cut : ∀ rest, ∃ escapes,
      scanString (part ++ 123 :: quote :: rest) = (part ++ [123], escapes, quote :: rest)) :
    DropsDel k (quote :: k :: quote :: colon :: quote :: part) := by
  intro c plain o
  have none : quote ∉ ([] : Bytes) := by simp
  have refused : ∀ o', parse (120 :: quote :: colon :: quote ::
      (encode c ++ [quote, closeBrace])) o' = Option.none := by
    intro o'
    apply parse_fail
    have noColon : (encode c ++ [quote, closeBrace]).dropWhile (· != colon) = [] := by
      rw [List.dropWhile_eq_nil_iff]
      intro b member
      rcases List.mem_append.mp member with code | ends
      · have : b ≠ colon := fun same => plain.not_mem (by decide) (same ▸ code)
        simpa using this
      · have others : ∀ x ∈ [quote, closeBrace], (x != colon) = true := by decide +kernel
        exact others b ends
    have opened : (120 :: quote :: colon :: quote ::
        (encode c ++ [quote, closeBrace])).dropWhile (· != quote) =
        quote :: colon :: quote :: (encode c ++ [quote, closeBrace]) := by
      simp [quote]
    have closed : (colon :: quote :: (encode c ++ [quote, closeBrace])).dropWhile
        (· != quote) = quote :: (encode c ++ [quote, closeBrace]) := by
      simp [quote, colon]
    simp only [turn, opened, closed, noColon]
  obtain ⟨escapes, scanned⟩ := cut (120 :: quote :: colon :: quote ::
    (encode c ++ [quote, closeBrace]))
  have whole : scanString ((part ++ [123]) ++ quote :: (120 :: quote :: colon :: quote ::
      (encode c ++ [quote, closeBrace]))) = (part ++ [123], escapes,
        quote :: (120 :: quote :: colon :: quote :: (encode c ++ [quote, closeBrace]))) := by
    simpa using scanned
  have field := parse_stringField none key o whole
  rw [refused] at field
  refine Or.inl ?_
  rw [delLine_eq]
  simpa using field

def Piece.key : Piece → Option UInt8
  | .mark _ => none
  | .text k _ _ => some k
  | .number k _ _ => some k

/-- What every cut piece does to the next line. -/
theorem cut_piece {p : Piece} (ok : p.Ok) {part : Bytes} (nonempty : part ≠ [])
    (inside : part <+: p.bytes) (short : part ≠ p.bytes) :
    ∃ k, p.key = some k ∧ (DropsDel k part ∨ TakesNext k part) := by
  cases ok with
  | mark apart =>
      simp only [Piece.bytes, List.prefix_cons_iff, List.prefix_nil] at inside short
      rcases inside with rfl | ⟨_, rfl, rfl⟩
      · exact absurd rfl nonempty
      · exact absurd rfl short
  | @text k body value key whole cut =>
      refine ⟨k, rfl, ?_⟩
      simp only [Piece.bytes, List.prefix_cons_iff] at inside
      rcases inside with rfl | ⟨_, rfl, rfl | ⟨_, rfl, rfl | ⟨_, rfl, rfl | ⟨_, rfl, rfl |
        ⟨part, rfl, inside⟩⟩⟩⟩⟩
      · exact absurd rfl nonempty
      · exact Or.inl (dropsDel_opening k)
      · exact Or.inr (takesNext_key key)
      · exact Or.inr (takesNext_closedKey key)
      · exact Or.inl (dropsDel_number key (by simp))
      · rcases cut_append inside with ⟨within, -⟩ | ⟨last, rfl, within⟩
        · exact Or.inl (dropsDel_text key (cut part within))
        · rcases List.prefix_cons_iff.mp within with rfl | ⟨_, rfl, ends⟩
          · rw [List.append_nil]
            exact Or.inl (dropsDel_text key (cut body List.prefix_rfl))
          · rw [List.prefix_nil.mp ends] at short
            exact absurd rfl short
  | @number k body stop key filled digits stops apart =>
      refine ⟨k, rfl, ?_⟩
      simp only [Piece.bytes, List.prefix_cons_iff] at inside
      rcases inside with rfl | ⟨_, rfl, rfl | ⟨_, rfl, rfl | ⟨_, rfl, rfl |
        ⟨part, rfl, inside⟩⟩⟩⟩
      · exact absurd rfl nonempty
      · exact Or.inl (dropsDel_opening k)
      · exact Or.inr (takesNext_key key)
      · exact Or.inr (takesNext_closedKey key)
      · rcases cut_append inside with ⟨within, -⟩ | ⟨last, rfl, within⟩
        · exact Or.inl (dropsDel_number key fun b hb => digits b (within.subset hb))
        · rcases List.prefix_cons_iff.mp within with rfl | ⟨_, rfl, ends⟩
          · rw [List.append_nil]
            exact Or.inl (dropsDel_number key digits)
          · rw [List.prefix_nil.mp ends] at short
            exact absurd rfl short

/-! ## Tails that do no harm -/

/-- The tail is the beginning of a row without expiry, cut behind a piece: it
is empty or a brace, or ends with a string's closing quote, with the comma
behind a field, or with the last brace. -/
def SafeTail (tail : Bytes) : Prop :=
  ∃ c u a i n read, Plain c ∧ read <+: (Rec.row c u a 0 i n).pieces ∧
    tail = read.flatMap Piece.bytes

/-- Nothing was read that a later row or tombstone would not replace. -/
structure Op.Clean (o : Op) : Prop where
  noHit : o.h = ""
  noDel : o.x = ""
  noExpiry : o.hasE = false

/-- A part of an operation that no piece touches stays as it was. -/
theorem foldl_read {α : Type} {f : Op → α} {ps : List Piece}
    (keeps : ∀ p ∈ ps, ∀ o, f (p.read o) = f o) (o : Op) :
    f (ps.foldl Piece.read o) = f o := by
  induction ps generalizing o with
  | nil => rfl
  | cons p ps ih =>
      rw [List.foldl_cons, ih (fun q hq => keeps q (List.mem_cons_of_mem _ hq)),
        keeps p List.mem_cons_self]

theorem clean_read {c u : String} {a i n : Int64} {read : List Piece}
    (done : read <+: (Rec.row c u a 0 i n).pieces) : (read.foldl Piece.read {}).Clean := by
  have keeps : ∀ p ∈ (Rec.row c u a 0 i n).pieces, ∀ o,
      ((p.read o).h, (p.read o).x, (p.read o).hasE) = (o.h, o.x, o.hasE) := by
    simp only [Rec.pieces, List.forall_mem_cons, Piece.read, setNumber_expiry]
    simp [Op.setString, Op.setNumber]
  have kept := foldl_read (f := fun o => (o.h, o.x, o.hasE))
    (fun p member => keeps p (done.subset member)) {}
  simp only [Prod.mk.injEq] at kept
  exact ⟨kept.1, kept.2.1, kept.2.2⟩

/-- Behind a safe tail the next line is read as it stands. -/
theorem SafeTail.parse_append {tail : Bytes} (safe : SafeTail tail) :
    ∃ o, o.Clean ∧ ∀ rest, parse (tail ++ rest) {} = parse rest o := by
  obtain ⟨c, u, a, i, n, read, plain, done, rfl⟩ := safe
  have ok : ∀ p ∈ read, p.Ok := fun p member =>
    ok_pieces (r := .row c u a 0 i n) plain p (done.subset member)
  exact ⟨_, clean_read done, fun rest => parse_pieces ok rest {}⟩

/-! ## Tails that do harm -/

/-- Behind the tail a tombstone is not read as one. -/
def LosesDel (tail : Bytes) : Prop :=
  ∀ c, Plain c → ∀ o, parse (tail ++ delLine c) {} = some o → o.x = ""

/-- Behind the tail a row without expiry is not read as one. -/
def LosesRow (tail : Bytes) : Prop :=
  ∀ c, Plain c → ∀ u a i n o, parse (tail ++ rowLine c u a 0 i n) {} = some o →
    o.x ≠ "" ∨ o.h ≠ "" ∨ o.hasE = true ∧ o.e ≠ 0

theorem setString_x {k : UInt8} (other : k ≠ 120) (o : Op) (s : String) :
    (o.setString (some k) s).x = o.x := by
  unfold Op.setString
  split <;> simp_all

theorem setNumber_x (k : Option UInt8) (o : Op) (s : String) : (o.setNumber k s).x = o.x := by
  unfold Op.setNumber
  split
  · rfl
  · split <;> rfl
  all_goals rfl

theorem read_x {p : Piece} (other : p.key ≠ some 120) (o : Op) : (p.read o).x = o.x := by
  cases p with
  | mark b => rfl
  | text k body value =>
      exact setString_x (fun same => other (congrArg some same)) o value
  | number k body stop => exact setNumber_x _ o _

/-- A cut inside a field that is no tombstone loses a tombstone. -/
theorem losesDel_of_cut {read : List Piece} {p : Piece} {part : Bytes}
    (ok : ∀ q ∈ read ++ [p], q.Ok) (others : ∀ q ∈ read ++ [p], q.key ≠ some 120)
    (nonempty : part ≠ []) (inside : part <+: p.bytes) (short : part ≠ p.bytes) :
    LosesDel (read.flatMap Piece.bytes ++ part) := by
  intro c plain o parsed
  have before : (read.foldl Piece.read {}).x = "" :=
    foldl_read (f := Op.x) (fun q member => read_x (others q (List.mem_append_left _ member))) {}
  obtain ⟨k, key, harm⟩ := cut_piece (ok p (by simp)) nonempty inside short
  have other : k ≠ 120 := fun same => others p (by simp) (key.trans (congrArg some same))
  rw [List.append_assoc, parse_pieces (fun q hq => ok q (List.mem_append_left _ hq))] at parsed
  rcases harm with drops | takes
  · rcases drops c plain (read.foldl Piece.read {}) with refused | same | ⟨num, same⟩
    · rw [refused] at parsed
      cases parsed
    · rw [same] at parsed
      cases parsed
      exact before
    · rw [same] at parsed
      cases parsed
      exact (setNumber_x _ _ _).trans before
  · rw [delLine_eq, takes 120 (by decide) c plain, parse_of_no_quote _ (by decide)] at parsed
    cases parsed
    exact (setString_x other _ _).trans before

/-- A cut inside a tombstone loses a tombstone or a row. -/
theorem loses_of_cut_del {c : String} (plain : Plain c) {part : Bytes} (nonempty : part ≠ [])
    (inside : part <+: (Piece.text 120 (encode c) c).bytes)
    (short : part ≠ (Piece.text 120 (encode c) c).bytes) :
    LosesDel ([123] ++ part) ∨ LosesRow ([123] ++ part) := by
  obtain ⟨k, key, harm⟩ := cut_piece (ok_code (by decide) plain) nonempty inside short
  cases key
  rcases harm with drops | takes
  · left
    intro d plainD o parsed
    rw [List.append_assoc, parse_skip [123] (by decide)] at parsed
    rcases drops d plainD {} with refused | same | ⟨num, same⟩
    · rw [refused] at parsed
      cases parsed
    · rw [same] at parsed
      cases parsed
      rfl
    · rw [same] at parsed
      cases parsed
      rfl
  · right
    intro d plainD u a i n o parsed
    left
    have okRow := ok_pieces (r := .row d u a 0 i n) plainD
    have line : rowLine d u a 0 i n = 123 :: quote :: 99 :: quote :: colon :: quote ::
        (encode d ++ quote :: ((Rec.row d u a 0 i n).pieces.drop 2).flatMap Piece.bytes) := by
      rw [rowLine_eq]
      simp [Rec.pieces, Piece.bytes]
    have rest := parse_all_pieces
      (fun p member => okRow p (List.mem_of_mem_drop (i := 2) member))
      (Op.setString {} (some 120) d)
    rw [List.append_assoc, parse_skip [123] (by decide), line,
      takes 99 (by decide) d plainD, rest] at parsed
    cases parsed
    have kept : ∀ p ∈ (Rec.row d u a 0 i n).pieces.drop 2, ∀ o, (p.read o).x = o.x := by
      intro p member o
      apply read_x
      revert p
      simp [Rec.pieces, Piece.key]
    rw [foldl_read (f := Op.x) kept]
    exact plainD.nonempty

/-- Behind whole pieces that name a hit or a tombstone, or set an expiry, a row
without expiry is not read as one. -/
theorem losesRow_of_read {read : List Piece} (ok : ∀ p ∈ read, p.Ok)
    (harm : (read.foldl Piece.read {}).x ≠ "" ∨ (read.foldl Piece.read {}).h ≠ "" ∨
      (read.foldl Piece.read {}).hasE = true ∧ (read.foldl Piece.read {}).e ≠ 0) :
    LosesRow (read.flatMap Piece.bytes) := by
  intro c plain u a i n o parsed
  have row : (Rec.row c u a 0 i n).Ok := plain
  rw [parse_pieces ok, ← show (Rec.row c u a 0 i n).line = rowLine c u a 0 i n from rfl,
    parse_line row] at parsed
  cases parsed
  exact harm

theorem safeTail_of_row {c u : String} {a i n : Int64} (plain : Plain c) {read : List Piece}
    (done : read <+: (Rec.row c u a 0 i n).pieces) : SafeTail (read.flatMap Piece.bytes) :=
  ⟨c, u, a, i, n, read, plain, done, rfl⟩

/-- Whole pieces of a line: harmless in a row without expiry. -/
theorem cut_behind_pieces {r : Rec} (ok : r.Ok) {read : List Piece} (done : read <+: r.pieces) :
    SafeTail (read.flatMap Piece.bytes) ∨ LosesRow (read.flatMap Piece.bytes) := by
  have okRead : ∀ p ∈ read, p.Ok := fun p member => ok_pieces ok p (done.subset member)
  cases r with
  | row c u a e i n =>
      have same : (Rec.row c u a e i n).pieces =
          (Rec.row c u a 0 i n).pieces.take 6 ++
            [.number 101 (expiryText e) comma, .number 105 (itoa [] i) comma,
             .number 110 (itoa [] n) closeBrace] := by
        simp [Rec.pieces]
      by_cases never : e = 0
      · subst never
        exact Or.inl (safeTail_of_row ok done)
      · rw [same] at done
        rcases cut_append done with ⟨early, -⟩ | ⟨late, rfl, more⟩
        · exact Or.inl (safeTail_of_row ok (early.trans (List.take_prefix _ _)))
        · rcases List.prefix_cons_iff.mp more with rfl | ⟨later, rfl, last⟩
          · rw [List.append_nil]
            exact Or.inl (safeTail_of_row ok (List.take_prefix _ _))
          · refine Or.inr (losesRow_of_read okRead (Or.inr (Or.inr ?_)))
            have numbers : ∀ p ∈ later, ∀ o, ((p.read o).hasE, (p.read o).e) = (o.hasE, o.e) := by
              intro p member
              have listed := last.subset member
              simp only [List.mem_cons, List.not_mem_nil, or_false] at listed
              rcases listed with rfl | rfl <;> simp [Piece.read, Op.setNumber]
            have kept := foldl_read (f := fun o => (o.hasE, o.e)) numbers
            simp only [Prod.mk.injEq] at kept
            rw [List.foldl_append, List.foldl_cons, (kept _).1, (kept _).2, Piece.read,
              setNumber_expiry, if_neg never]
            exact ⟨rfl, never⟩
  | hit c d i =>
      have start : [Piece.mark 123] <+: (Rec.row c "" 0 0 0 0).pieces := by simp [Rec.pieces]
      simp only [Rec.pieces] at done
      rcases List.prefix_cons_iff.mp done with rfl | ⟨named, rfl, more⟩
      · exact Or.inl (safeTail_of_row ok (List.nil_prefix.trans start))
      rcases List.prefix_cons_iff.mp more with rfl | ⟨later, rfl, last⟩
      · exact Or.inl (safeTail_of_row ok start)
      · refine Or.inr (losesRow_of_read okRead (Or.inr (Or.inl ?_)))
        have others : ∀ p ∈ later, ∀ o, (p.read o).h = o.h := by
          intro p member
          have listed := last.subset member
          simp only [List.mem_cons, List.not_mem_nil, or_false] at listed
          rcases listed with rfl | rfl | rfl <;> simp [Piece.read, Op.setNumber]
        rw [List.foldl_cons, List.foldl_cons, foldl_read (f := Op.h) others]
        exact ok.nonempty
  | del c =>
      have start : [Piece.mark 123] <+: (Rec.row c "" 0 0 0 0).pieces := by simp [Rec.pieces]
      simp only [Rec.pieces] at done
      rcases List.prefix_cons_iff.mp done with rfl | ⟨named, rfl, more⟩
      · exact Or.inl (safeTail_of_row ok (List.nil_prefix.trans start))
      rcases List.prefix_cons_iff.mp more with rfl | ⟨later, rfl, last⟩
      · exact Or.inl (safeTail_of_row ok start)
      · refine Or.inr (losesRow_of_read okRead (Or.inl ?_))
        have others : ∀ p ∈ later, ∀ o, (p.read o).x = o.x := by
          intro p member
          have listed := last.subset member
          simp only [List.mem_cons, List.not_mem_nil, or_false] at listed
          subst listed
          simp [Piece.read]
        rw [List.foldl_cons, List.foldl_cons, foldl_read (f := Op.x) others]
        exact ok.nonempty

/-- Every cut of a line is harmless, or it can lose a tombstone or a row. -/
theorem cut_line {r : Rec} (ok : r.Ok) {tail : Bytes} (within : tail <+: r.line) :
    SafeTail tail ∨ LosesDel tail ∨ LosesRow tail := by
  rw [line_eq_pieces] at within
  rcases cut_pieces within with ⟨read, done, rfl⟩ |
    ⟨read, p, part, done, rfl, nonempty, inside, short⟩
  · exact (cut_behind_pieces ok done).imp id Or.inr
  · have okCut : ∀ q ∈ read ++ [p], q.Ok := fun q member => ok_pieces ok q (done.subset member)
    have losesDel : (∀ q ∈ r.pieces, q.key ≠ some 120) →
        LosesDel (read.flatMap Piece.bytes ++ part) := fun others =>
      losesDel_of_cut okCut (fun q member => others q (done.subset member))
        nonempty inside short
    cases r with
    | row c u a e i n => exact Or.inr (Or.inl (losesDel (by simp [Rec.pieces, Piece.key])))
    | hit c d i => exact Or.inr (Or.inl (losesDel (by simp [Rec.pieces, Piece.key])))
    | del c =>
        obtain ⟨k, key, -⟩ := cut_piece (okCut p (by simp)) nonempty inside short
        rcases read with _ | ⟨first, _ | ⟨second, read⟩⟩
        · simp only [Rec.pieces, List.nil_append, List.cons_prefix_cons] at done
          obtain ⟨rfl, -⟩ := done
          cases key
        · simp only [Rec.pieces, List.cons_append, List.nil_append, List.cons_prefix_cons] at done
          obtain ⟨rfl, rfl, -⟩ := done
          exact Or.inr (loses_of_cut_del ok nonempty inside short)
        · simp only [Rec.pieces, List.cons_append, List.cons_prefix_cons] at done
          obtain ⟨-, -, last⟩ := done
          have listed := last.subset (List.mem_append_right read List.mem_cons_self)
          rw [List.mem_singleton] at listed
          rw [listed] at key
          cases key

end Shrt.Codec
