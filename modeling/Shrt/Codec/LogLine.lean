import Mathlib.Data.List.Basic
import Shrt.Lib.Decimal

/-!
# The log line codec

Rows, hit deltas and tombstones are written as one line of JSON each and read
back by a scanner that looks only at the first byte of every key.  The scanner
works on the unread suffix of the line: the source's position is the number
of bytes already dropped.
-/

namespace Shrt.Codec

open Shrt.Lib.Utf8 Shrt.Lib.Decimal

abbrev Bytes := List UInt8

/-- `b'\n'`, the line terminator of every log. -/
def NL : UInt8 := 10
def quote : UInt8 := 34
def backslash : UInt8 := 92
def colon : UInt8 := 58
def comma : UInt8 := 44
def closeBrace : UInt8 := 125

/-! ## Serialization -/

def HEX : Bytes := encode "0123456789abcdef"

def escByte (c : UInt8) : Bytes :=
  if c = quote ∨ c = backslash then [backslash, c]
  else if c = NL then encode "\\n"
  else if c = 13 then encode "\\r"
  else if c = 9 then encode "\\t"
  else if c = 0x08 then encode "\\b"
  else if c = 0x0c then encode "\\f"
  else if c < 0x20 then
    encode "\\u00" ++
      [HEX.getD (c >>> 4).toNat 0, HEX.getD (c &&& 0xf).toNat 0]
  else [c]

/-- Append `u` JSON-string-escaped. -/
def esc (dst : Bytes) (u : String) : Bytes :=
  dst ++ (encode u).flatMap escByte

/-- Append the decimal digits of `n`; the scratch buffer has 20 bytes. -/
def itoa (b : Bytes) (n : Int64) : Bytes :=
  b ++ (if n < 0 then encode "-" else []) ++ writeDigits 20 n.toInt.natAbs []

def rowLineInto (b : Bytes) (c u : String) (a e i n : Int64) : Bytes :=
  let b := b ++ encode "\x7b\"c\":\""
  let b := b ++ encode c
  let b := b ++ encode "\",\"u\":\""
  let b := esc b u
  let b := b ++ encode "\",\"a\":"
  let b := itoa b a
  let b := b ++ encode ",\"e\":"
  let b := if e = 0 then b ++ encode "null" else itoa b e
  let b := b ++ encode ",\"i\":"
  let b := itoa b i
  let b := b ++ encode ",\"n\":"
  let b := itoa b n
  b ++ [closeBrace]

def rowLine (c u : String) (a e i n : Int64) : Bytes :=
  rowLineInto [] c u a e i n

def hitLineInto (b : Bytes) (c : String) (d i : Int64) : Bytes :=
  let b := b ++ encode "\x7b\"h\":\""
  let b := b ++ encode c
  let b := b ++ encode "\",\"d\":"
  let b := itoa b d
  let b := b ++ encode ",\"i\":"
  let b := itoa b i
  b ++ [closeBrace]

def hitLine (c : String) (d i : Int64) : Bytes :=
  hitLineInto [] c d i

def delLine (c : String) : Bytes :=
  encode "\x7b\"x\":\"" ++ encode c ++ encode "\"\x7d"

/-! ## Parsing -/

/-- One parsed log line: a row, a hit delta or a tombstone. -/
structure Op where
  c : String := ""
  u : String := ""
  h : String := ""
  x : String := ""
  a : Int64 := 0
  e : Int64 := 0
  i : Int64 := 0
  n : Int64 := 0
  d : Int64 := 0
  hasE : Bool := false
  deriving DecidableEq, Repr

def isWhitespace (c : Char) : Bool :=
  let v := c.toNat
  (9 ≤ v && v ≤ 13) || v == 0x20 || v == 0x85 || v == 0xA0 || v == 0x1680 ||
    (0x2000 ≤ v && v ≤ 0x200A) || v == 0x2028 || v == 0x2029 || v == 0x202F ||
    v == 0x205F || v == 0x3000

def trim (s : String) : String :=
  String.ofList
    ((s.toList.dropWhile isWhitespace).reverse.dropWhile isWhitespace).reverse

def hexDigit? (b : UInt8) : Option Nat :=
  if 48 ≤ b ∧ b ≤ 57 then some (b.toNat - 48)
  else if 97 ≤ b ∧ b ≤ 102 then some (b.toNat - 87)
  else if 65 ≤ b ∧ b ≤ 70 then some (b.toNat - 55)
  else none

def readHex : Nat → Bytes → Option Nat
  | acc, [] => some acc
  | acc, b :: bs => (hexDigit? b).bind fun d => readHex (16 * acc + d) bs

/-- `u32::from_str_radix(h, 16)` on the four bytes of an escape, then
`char::from_u32`.  A leading plus sign is accepted. -/
def hexChar? (h1 h2 h3 h4 : UInt8) : Option Char :=
  let digits := if h1 = 43 then [h2, h3, h4] else [h1, h2, h3, h4]
  (readHex 0 digits).bind fun v =>
    if v.isValidChar then some (Char.ofNat v) else none

/-- The bytes of a string value with its escapes resolved. -/
def unescapeBytes : Bytes → Bytes
  | [] => []
  | b :: bs =>
      if b ≠ backslash then b :: unescapeBytes bs
      else
        match bs with
        | [] => [b]
        | c :: rest =>
            if c = 110 then NL :: unescapeBytes rest
            else if c = 114 then 13 :: unescapeBytes rest
            else if c = 116 then 9 :: unescapeBytes rest
            else if c = 98 then 0x08 :: unescapeBytes rest
            else if c = 102 then 0x0c :: unescapeBytes rest
            else if c = 117 then
              match rest with
              | h1 :: h2 :: h3 :: h4 :: tail =>
                  match hexChar? h1 h2 h3 h4 with
                  | some ch => String.utf8EncodeChar ch ++ unescapeBytes tail
                  | none => 117 :: unescapeBytes (h1 :: h2 :: h3 :: h4 :: tail)
              | short => 117 :: unescapeBytes short
            else c :: unescapeBytes rest

def unescape (b : Bytes) : String :=
  decodeLossy (unescapeBytes b)

/-- A string value read up to its closing quote: the value, whether it holds
an escape, and the unread bytes from the closing quote on. -/
def scanString : Bytes → Bytes × Bool × Bytes
  | [] => ([], false, [])
  | [b] =>
      if b = backslash then ([b], true, [])
      else if b = quote then ([], false, [b])
      else ([b], false, [])
  | b :: c :: rest =>
      if b = backslash then
        let next := scanString rest
        (b :: c :: next.1, true, next.2.2)
      else if b = quote then ([], false, b :: c :: rest)
      else
        let next := scanString (c :: rest)
        (b :: next.1, next.2.1, next.2.2)

def stringValue (val : Bytes) (escapes : Bool) : String :=
  if escapes then unescape val else decodeLossy val

/-- The text of a number: trimmed, empty when it is not UTF-8. -/
def numberText (b : Bytes) : String :=
  trim ((decode? b).getD "")

/-- `num.parse().unwrap_or(0)`. -/
def numberValue (num : String) : Int64 :=
  (parseI64? num).getD 0

def Op.setString (o : Op) (key : Option UInt8) (s : String) : Op :=
  match key with
  | some 99 => { o with c := s }
  | some 117 => { o with u := s }
  | some 104 => { o with h := s }
  | some 120 => { o with x := s }
  | _ => o

def Op.setNumber (o : Op) (key : Option UInt8) (num : String) : Op :=
  match key with
  | some 97 => { o with a := numberValue num }
  | some 101 =>
      if num ≠ "null" then { o with e := numberValue num, hasE := true } else o
  | some 105 => { o with i := numberValue num }
  | some 110 => { o with n := numberValue num }
  | some 100 => { o with d := numberValue num }
  | _ => o

/-- What one turn of the scanner's outer loop comes to. -/
inductive Turn where
  /-- No further key: the loop ends. -/
  | stop
  /-- A key without its value: the line is refused. -/
  | fail
  /-- One field was read; `rest` is unread. -/
  | more (rest : Bytes) (o : Op)
  deriving DecidableEq, Repr

def isBlank (b : UInt8) : Bool :=
  b == 32 || b == 9

/-- The bytes of a number run up to a comma or a closing brace. -/
def inNumber (b : UInt8) : Bool :=
  b != comma && b != closeBrace

/-- Read the value in front of the unread bytes and store it under its key. -/
def readValue (key : Bytes) (b : Bytes) (o : Op) : Turn :=
  match b.dropWhile isBlank with
  | [] => .fail
  | v :: r =>
      if v = quote then
        let s := scanString r
        .more (s.2.2.drop 1) (o.setString key.head? (stringValue s.1 s.2.1))
      else
        .more ((v :: r).dropWhile inNumber)
          (o.setNumber key.head? (numberText ((v :: r).takeWhile inNumber)))

def turn (b : Bytes) (o : Op) : Turn :=
  match b.dropWhile (· != quote) with
  | [] => .stop
  | _ :: r =>
      let key := r.takeWhile (· != quote)
      match r.dropWhile (· != quote) with
      | [] => .fail
      | _ :: r =>
          match r.dropWhile (· != colon) with
          | [] => .fail
          | _ :: r => readValue key r o

/-- The outer loop; every turn drops at least one byte, so the length of the
line is enough fuel. -/
def parseLoop : Nat → Bytes → Op → Option Op
  | 0, _, _ => none
  | fuel + 1, b, o =>
      match turn b o with
      | .stop => some o
      | .fail => none
      | .more rest o' => parseLoop fuel rest o'

/-- A line is accepted when it names a code, a hit or a tombstone. -/
def Op.named (o : Op) : Bool :=
  o.c ≠ "" || o.h ≠ "" || o.x ≠ ""

/-- Decode one log line; `none` where the source returns false. -/
def parseOp (b : Bytes) : Option Op :=
  (parseLoop (b.length + 1) b {}).filter Op.named

end Shrt.Codec
