import Mathlib.Data.List.Basic
import Shrt.Codec.RoundTrip
import Shrt.Lib.Pull
import Shrt.Lib.Resp2

/-!
# The client's side of the wire

Commands are written as arrays of bulk strings, replies are read by a recursion
over tag, line and payload.  Every frame is read exactly, so replies in a row
come out one by one and commands in a row cannot be told apart from what was
asked.  Memory and stack are taken to suffice; a vector that no memory could hold
is a panic.
-/

namespace Shrt.Kv

open Shrt.Codec Shrt.Lib Shrt.Lib.Utf8 Shrt.Lib.Decimal Shrt.Lib.Resp2
open Shrt.Lib.Pull (Reads Fails)

inductive Resp where
  | simple (s : String)
  | int (n : Int64)
  | bulk (b : Option Bytes)
  | arr (items : List Resp)
  | err (e : String)

/-! ## Reading -/

/-- The errors of a read, and the panic of a vector that is asked for too much. -/
inductive ReadError where
  | unexpectedEof
  | invalidData
  | other (text : String)
  | capacityOverflow

/-- `isize::MAX` and one more, the bytes that no vector may take. -/
def VEC_LIMIT : Nat := 2 ^ 63

/-- `size_of::<Resp>()`: the tag and the three words of a vector. -/
def RESP_SIZE : Nat := 32

instance instInhabitedReadError : Inhabited ReadError where
  default := .unexpectedEof

/-- What is read off a connection, up to its end. -/
abbrev Incoming (α : Type) := Pull UInt8 ReadError α

/-- An error that is returned; a panic is none. -/
def Returned (e : ReadError) : Prop :=
  e ≠ .capacityOverflow

def trimEnd (s : String) : String :=
  String.ofList ((s.toList.reverse.dropWhile isWhitespace).reverse)

/-- `Read::read_exact`: as many bytes as the buffer holds. -/
def fill (n : Nat) : Incoming Bytes := fun input =>
  if n ≤ input.length then .ok (input.take n, input.drop n) else .error .unexpectedEof

/-- `BufRead::read_until`: up to and with the newline, or all there is. -/
def readUntil : Incoming Bytes := fun input =>
  .ok (input.takeWhile (· != NL) ++ (input.dropWhile (· != NL)).take 1,
    (input.dropWhile (· != NL)).drop 1)

def readLine : Incoming String := do
  let bytes ← readUntil
  match decode? bytes with
  | some s => return trimEnd s
  | none => throw .invalidData

def readExact (n : Nat) : Incoming Bytes := do
  if n + 2 < VEC_LIMIT then
    let b ← fill (n + 2) -- value + CRLF
    return b.take n
  else throw .capacityOverflow

/-- One reply, given how the items of an array are read. -/
def respBody (readItem : Incoming Resp) : Incoming Resp := do
  let t ← fill 1
  if t = [43] then return .simple (← readLine)
  else if t = [45] then return .err (← readLine)
  else if t = [58] then return .int ((parseI64? (← readLine)).getD 0)
  else if t = [36] then
    let n := (parseI64? (← readLine)).getD (-1)
    if n < 0 then return .bulk none
    else return .bulk (some (← readExact n.toInt.toNat))
  else if t = [42] then
    let n := (parseI64? (← readLine)).getD 0
    if RESP_SIZE * n.toInt.toNat < VEC_LIMIT then return .arr (← Pull.times n.toInt.toNat readItem)
    else throw .capacityOverflow
  else throw (.other "bad resp type")

def readResp : Incoming Resp :=
  Pull.fix respBody

/-! ## Writing -/

def usizeText (n : Nat) : Bytes :=
  writeDigits 20 n []

def writeCmd (out : Bytes) (args : List Bytes) : Bytes :=
  let out := out ++ [42]
  let out := out ++ usizeText args.length
  let out := out ++ [13, 10]
  args.foldl (fun out a =>
    let out := out ++ [36]
    let out := out ++ usizeText a.length
    let out := out ++ [13, 10]
    let out := out ++ a
    out ++ [13, 10]) out

def roundBytes (args : List Bytes) : Bytes :=
  let out := [42]
  let out := out ++ usizeText args.length
  let out := out ++ [13, 10]
  args.foldl (fun out a =>
    let out := out ++ [36]
    let out := out ++ usizeText a.length
    let out := out ++ [13, 10]
    let out := out ++ a
    out ++ [13, 10]) out

def pipeBytes (cmds : List (List Bytes)) : Bytes :=
  cmds.foldl writeCmd []

/-! ## The parts of a reply -/

theorem fill_reads (bytes : Bytes) : (fill bytes.length).Reads bytes bytes := by
  intro rest
  have enough : bytes.length ≤ (bytes ++ rest).length := by simp
  change (if _ then _ else _) = _
  rw [if_pos enough, List.take_left, List.drop_left]

theorem fill_fails {n : Nat} {input : Bytes} (short : input.length < n) :
    (fill n).Fails Returned input :=
  ⟨.unexpectedEof, ReadError.noConfusion, if_neg (Nat.not_le_of_lt short)⟩

theorem fill_takes {n : Nat} (some_asked : 0 < n) : (fill n).Takes := by
  intro input bytes rest read
  change (if _ then _ else _) = _ at read
  split at read
  · cases read
    rw [List.length_drop]
    omega
  · cases read

theorem readUntil_reads {line : Bytes} (lf : NL ∉ line) :
    readUntil.Reads (line ++ [NL]) (line ++ [NL]) := by
  intro rest
  have split : line ++ [NL] ++ rest = line ++ NL :: rest := by simp
  change Except.ok (_, _) = _
  rw [split, takeWhile_ne_append lf, dropWhile_ne_append lf]
  rfl

/-- At the end of the connection a line is whatever is left. -/
theorem readUntil_end {part : Bytes} (lf : NL ∉ part) : readUntil.run part = .ok (part, []) := by
  change Except.ok (_, _) = _
  rw [List.takeWhile_eq_self_iff.mpr (bne_of_not_mem lf),
    List.dropWhile_eq_nil_iff.mpr (bne_of_not_mem lf), List.take_nil, List.drop_nil,
    List.append_nil]

theorem readUntil_keeps : readUntil.Keeps := by
  intro input line rest read
  change Except.ok (_, _) = _ at read
  cases read
  have dropped := (List.dropWhile_suffix (l := input) (· != NL)).length_le
  rw [List.length_drop]
  omega

/-! ### Lines -/

theorem trimEnd_push {s : String} {c : Char} (blank : isWhitespace c = true) :
    trimEnd (s.push c) = trimEnd s := by
  rw [trimEnd, String.toList_push, List.reverse_append]
  simp [blank, trimEnd]

theorem trimEnd_of_solid {s : String} (solid : ∀ c ∈ s.toList.getLast?, isWhitespace c = false) :
    trimEnd s = s := by
  have kept : s.toList.reverse.dropWhile isWhitespace = s.toList.reverse := by
    rw [List.getLast?_eq_head?_reverse] at solid
    cases chars : s.toList.reverse with
    | nil => rfl
    | cons c cs =>
        rw [chars] at solid
        rw [List.dropWhile_cons_of_neg]
        simp [solid c rfl]
  rw [trimEnd, kept, List.reverse_reverse, String.ofList_toList]

theorem readLine_keeps : readLine.Keeps := by
  refine readUntil_keeps.bind fun bytes => ?_
  split
  · exact Pull.keeps_pure _
  · exact Pull.keeps_throw _

/-- A whole line is read without its end, whatever follows. -/
theorem readLine_reads {line : Bytes} {s : String} (text : decode? line = some s)
    (lf : NL ∉ line) : readLine.Reads (line ++ [13, 10]) (trimEnd s) := by
  have free : NL ∉ line ++ [13] := by simpa [NL] using lf
  have decoded := decode?_concat (decode?_concat text (show (13 : UInt8) < 128 by decide))
    (show (10 : UInt8) < 128 by decide)
  have split : line ++ [13, 10] = line ++ [13] ++ [10] ++ [] := by simp
  rw [split]
  refine (readUntil_reads free).bind ?_
  rw [show line ++ [13] ++ [NL] = line ++ [13] ++ [10] from rfl, decoded]
  have trimmed : trimEnd ((s.push (asciiChar 13)).push (asciiChar 10)) = trimEnd s := by
    rw [trimEnd_push (by decide), trimEnd_push (by decide)]
  rw [← trimmed]
  exact Pull.reads_pure _

/-- A line that is no text is an error, whatever follows. -/
theorem readLine_fails {line : Bytes} (bad : decode? line = none) (lf : NL ∉ line)
    (rest : Bytes) : readLine.Fails Returned (line ++ 13 :: 10 :: rest) := by
  have free : NL ∉ line ++ [13] := by simpa [NL] using lf
  have undecoded := decode?_concat_none (decode?_concat_none bad (show (13 : UInt8) < 128 by decide))
    (show (10 : UInt8) < 128 by decide)
  have split : line ++ 13 :: 10 :: rest = line ++ [13] ++ [NL] ++ rest := by simp [NL]
  rw [split, readLine, Pull.fails_bind_iff_of_ok (readUntil_reads free rest),
    show line ++ [13] ++ [NL] = line ++ [13] ++ [10] from rfl, undecoded]
  exact ⟨.invalidData, ReadError.noConfusion, rfl⟩

/-- At the end of the connection a line without its end is taken for a line. -/
theorem readLine_end {part : Bytes} {s : String} (text : decode? part = some s)
    (lf : NL ∉ part) : readLine.run part = .ok (trimEnd s, []) := by
  rw [readLine, Pull.run_bind_of_ok (readUntil_end lf), text]
  rfl

theorem readLine_end_fails {part : Bytes} (bad : decode? part = none) (lf : NL ∉ part) :
    readLine.Fails Returned part := by
  rw [readLine, Pull.fails_bind_iff_of_ok (readUntil_end lf), bad]
  exact ⟨.invalidData, ReadError.noConfusion, rfl⟩

/-! ### Values of a known length -/

theorem readExact_eq {n : Nat} (room : n + 2 < 2 ^ 63) :
    readExact n = fill (n + 2) >>= fun b => pure (b.take n) :=
  if_pos room

theorem readExact_reads {bytes : Bytes} (room : bytes.length + 2 < 2 ^ 63) :
    (readExact bytes.length).Reads (bytes ++ [13, 10]) bytes := by
  have filled := fill_reads (bytes ++ [13, 10])
  rw [List.length_append] at filled
  have read := filled.map fun b => b.take bytes.length
  rw [List.take_left] at read
  rw [readExact_eq room]
  exact read

theorem readExact_fails {n : Nat} {input : Bytes} (room : n + 2 < 2 ^ 63)
    (short : input.length < n + 2) : (readExact n).Fails Returned input := by
  rw [readExact_eq room]
  exact (fill_fails short).bind _

theorem readExact_keeps (n : Nat) : (readExact n).Keeps := by
  rw [readExact]
  split
  · exact (fill_takes (Nat.succ_pos (n + 1))).keeps.bind fun _ => Pull.keeps_pure _
  · exact Pull.keeps_throw _

/-! ## One reply -/

theorem respBody_guarded : Pull.Guarded respBody where
  keeps := by
    intro f keeps
    refine (fill_takes Nat.one_pos).keeps.bind fun t => ?_
    split
    · exact readLine_keeps.bind fun _ => Pull.keeps_pure _
    split
    · exact readLine_keeps.bind fun _ => Pull.keeps_pure _
    split
    · exact readLine_keeps.bind fun _ => Pull.keeps_pure _
    split
    · refine readLine_keeps.bind fun s => ?_
      dsimp only
      split
      · exact Pull.keeps_pure _
      · exact (readExact_keeps _).bind fun _ => Pull.keeps_pure _
    split
    · refine readLine_keeps.bind fun s => ?_
      dsimp only
      split
      · exact (keeps.times _).bind fun _ => Pull.keeps_pure _
      · exact Pull.keeps_throw _
    · exact Pull.keeps_throw _
  agree := by
    intro n f g keeps _ agree
    refine Pull.Agree.bind_of_takes (fill_takes Nat.one_pos) fun t => ?_
    split
    · exact Pull.Agree.refl _ _
    split
    · exact Pull.Agree.refl _ _
    split
    · exact Pull.Agree.refl _ _
    split
    · exact Pull.Agree.refl _ _
    split
    · refine (Pull.Agree.refl n readLine).bind readLine_keeps fun s => ?_
      dsimp only
      split
      · exact (agree.times keeps _).bind (keeps.times _) fun _ => Pull.Agree.refl _ _
      · exact Pull.Agree.refl _ _
    · exact Pull.Agree.refl _ _

/-- The recursion of the source: an item of an array is read like a reply. -/
theorem readResp_eq : readResp = respBody readResp :=
  respBody_guarded.fix_eq

theorem readResp_nil : readResp.Fails Returned [] := by
  rw [readResp_eq]
  exact (fill_fails Nat.one_pos).bind _

theorem readResp_simple (input : Bytes) :
    readResp.run (43 :: input) = (readLine >>= fun s => pure (.simple s)).run input := by
  rw [readResp_eq]
  rfl

theorem readResp_err (input : Bytes) :
    readResp.run (45 :: input) = (readLine >>= fun s => pure (.err s)).run input := by
  rw [readResp_eq]
  rfl

theorem readResp_int (input : Bytes) :
    readResp.run (58 :: input) =
      (readLine >>= fun s => pure (.int ((parseI64? s).getD 0))).run input := by
  rw [readResp_eq]
  rfl

def bulkOf (n : Int64) : Incoming Resp :=
  if n < 0 then return .bulk none else return .bulk (some (← readExact n.toInt.toNat))

theorem readResp_bulk (input : Bytes) :
    readResp.run (36 :: input) =
      (readLine >>= fun s => bulkOf ((parseI64? s).getD (-1))).run input := by
  rw [readResp_eq]
  rfl

def arrOf (n : Int64) : Incoming Resp :=
  if RESP_SIZE * n.toInt.toNat < VEC_LIMIT then
    return .arr (← Pull.times n.toInt.toNat readResp)
  else throw .capacityOverflow

theorem arrOf_eq {n : Int64} (room : n.toInt.toNat < 2 ^ 58) :
    arrOf n = Pull.times n.toInt.toNat readResp >>= fun items => pure (.arr items) := by
  rw [arrOf, if_pos]
  rw [RESP_SIZE, VEC_LIMIT]
  omega

theorem readResp_arr (input : Bytes) :
    readResp.run (42 :: input) =
      (readLine >>= fun s => arrOf ((parseI64? s).getD 0)).run input := by
  conv_lhs => rw [readResp_eq]
  rfl

/-! ## Whole frames -/

/-- A frame whose line and payload are read exactly is read exactly. -/
theorem reads_frame {tag : UInt8} {line payload : Bytes} {text : String} {v : Resp}
    {next : String → Incoming Resp}
    (tagged : ∀ input, readResp.run (tag :: input) = (readLine >>= next).run input)
    (first : readLine.Reads (line ++ [13, 10]) text) (later : (next text).Reads payload v) :
    readResp.Reads (frame tag line payload) v := by
  intro rest
  have split : frame tag line payload ++ rest = tag :: (line ++ [13, 10] ++ payload ++ rest) := by
    simp [frame]
  rw [split, tagged]
  exact first.bind later rest

theorem reads_simple {line : Bytes} {s : String} (text : decode? line = some s)
    (lf : 10 ∉ line) : readResp.Reads (frame 43 line []) (.simple (trimEnd s)) :=
  reads_frame readResp_simple (readLine_reads text lf) (Pull.reads_pure _)

theorem reads_error {line : Bytes} {s : String} (text : decode? line = some s)
    (lf : 10 ∉ line) : readResp.Reads (frame 45 line []) (.err (trimEnd s)) :=
  reads_frame readResp_err (readLine_reads text lf) (Pull.reads_pure _)

/-! ### Numbers -/

theorem signed_eq_itoa (n : Int64) : signed n = itoa [] n := by
  rw [signed, itoa, encode_dash, List.nil_append]
  rfl

theorem numberByte_count {n : Nat} {b : UInt8} (among : b ∈ count n) : numberByte b = true := by
  obtain ⟨low, high⟩ := count_digit among
  simp [numberByte, low, high]

section Digits

variable {digits : Bytes} (numeric : ∀ b ∈ digits, numberByte b = true)
include numeric

theorem decode?_digits : decode? digits = some (String.ofList (digits.map asciiChar)) :=
  decode?_ascii fun b among => (numberByte_spec (numeric b among)).2.2.2.2.1

theorem trimEnd_digits :
    trimEnd (String.ofList (digits.map asciiChar)) = String.ofList (digits.map asciiChar) := by
  apply trimEnd_of_solid
  intro c last
  rw [String.toList_ofList] at last
  obtain ⟨b, among, rfl⟩ := List.mem_map.mp (List.mem_of_getLast? last)
  exact (numberByte_spec (numeric b among)).2.2.2.2.2

theorem newline_not_mem_digits : NL ∉ digits :=
  fun among => (numberByte_spec (numeric NL among)).2.2.2.1 rfl

theorem readLine_digits :
    readLine.Reads (digits ++ [13, 10]) (String.ofList (digits.map asciiChar)) := by
  have read := readLine_reads (decode?_digits numeric) (newline_not_mem_digits numeric)
  rwa [trimEnd_digits numeric] at read

end Digits

theorem toInt_ofInt_small {n : Nat} (room : n < 2 ^ 63) : (Int64.ofInt n).toInt = n :=
  Int64.toInt_ofInt_of_le (by omega) (by omega)

theorem reads_int (n : Int64) : readResp.Reads (frame 58 (signed n) []) (.int n) := by
  rw [signed_eq_itoa]
  refine reads_frame readResp_int (readLine_digits fun _ => itoa_numberByte) ?_
  rw [parseI64?_itoa]
  exact Pull.reads_pure _

/-- The number that stands for null, in place of a length. -/
theorem parseI64?_minusOne : parseI64? (String.ofList ([45, 49].map asciiChar)) = some (-1) := by
  decide +kernel

theorem numberByte_minusOne : ∀ b ∈ ([45, 49] : Bytes), numberByte b = true := by
  decide +kernel

theorem reads_nullBulk : readResp.Reads (frame 36 [45, 49] []) (.bulk none) := by
  refine reads_frame readResp_bulk (readLine_digits numberByte_minusOne) ?_
  rw [parseI64?_minusOne]
  exact Pull.reads_pure _

theorem reads_nullArr : readResp.Reads (frame 42 [45, 49] []) (.arr []) := by
  refine reads_frame readResp_arr (readLine_digits numberByte_minusOne) ?_
  rw [parseI64?_minusOne]
  rw [Option.getD_some, arrOf_eq (by decide)]
  exact (Pull.reads_pure []).map Resp.arr

theorem arrOf_ofInt {n : Nat} (room : n < 2 ^ 58) :
    arrOf (Int64.ofInt n) = Pull.times n readResp >>= fun items => pure (.arr items) := by
  have value : (Int64.ofInt n).toInt.toNat = n := by
    rw [toInt_ofInt_small (by omega), Int.toNat_natCast]
  rw [arrOf_eq (value.symm ▸ room), value]

theorem bulkOf_ofInt {n : Nat} (room : n < 2 ^ 63) :
    bulkOf (Int64.ofInt n) = readExact n >>= fun b => pure (.bulk (some b)) := by
  have value := toInt_ofInt_small room
  have sign : ¬ Int64.ofInt n < 0 := by
    rw [Int64.lt_iff_toInt_lt, value]
    exact Int.not_lt.mpr (Int.natCast_nonneg n)
  rw [bulkOf, if_neg sign, value, Int.toNat_natCast]

theorem reads_bulk {data : Bytes} (room : data.length + 2 < 2 ^ 63) :
    readResp.Reads (frame 36 (count data.length) (data ++ [13, 10])) (.bulk (some data)) := by
  refine reads_frame readResp_bulk (readLine_digits fun _ => numberByte_count) ?_
  have short : data.length < 2 ^ 63 := by omega
  rw [count, parseI64?_writeDigits short, Option.getD_some, bulkOf_ofInt short]
  exact (readExact_reads room).map fun b => Resp.bulk (some b)

theorem reads_arr {ι : Type} {items : List ι} {enc : ι → Bytes} {val : ι → Resp}
    (room : items.length < 2 ^ 58) (reads : ∀ item ∈ items, readResp.Reads (enc item) (val item)) :
    readResp.Reads (frame 42 (count items.length) (items.flatMap enc)) (.arr (items.map val)) := by
  refine reads_frame readResp_arr (readLine_digits fun _ => numberByte_count) ?_
  have short : items.length < 2 ^ 63 := by omega
  rw [count, parseI64?_writeDigits short, Option.getD_some, arrOf_ofInt room]
  exact (Pull.Reads.times reads).map Resp.arr

/-- The header of an array that no memory could hold is a panic, whatever follows. -/
theorem readResp_overflow {n : Nat} (big : 2 ^ 58 ≤ n) (room : n < 2 ^ 63) (payload : Bytes) :
    readResp.run (frame 42 (count n) payload) = .error .capacityOverflow := by
  have header := readLine_digits (fun _ => numberByte_count (n := n)) payload
  have split : frame 42 (count n) payload = 42 :: (count n ++ [13, 10] ++ payload) := by
    simp [frame]
  rw [split, readResp_arr, Pull.run_bind_of_ok header, count, parseI64?_writeDigits room,
    Option.getD_some, arrOf, toInt_ofInt_small room, Int.toNat_natCast, if_neg]
  · rfl
  · rw [RESP_SIZE, VEC_LIMIT]
    omega

/-! ## Replies in a row -/

mutual

def Resp.reply : Resp → Reply
  | .simple s => .simple (encode s)
  | .int n => .int n
  | .bulk none => .nullBulk
  | .bulk (some b) => .bulk b
  | .arr items => .arr (Resp.replies items)
  | .err e => .error (encode e)

def Resp.replies : List Resp → List Reply
  | [] => []
  | r :: rs => r.reply :: Resp.replies rs

end

theorem Resp.replies_eq_map (rs : List Resp) : Resp.replies rs = rs.map Resp.reply := by
  induction rs with
  | nil => rfl
  | cons r rs ih => rw [Resp.replies, ih, List.map_cons]

/-- One line of text without white space at its end. -/
structure OneLine (s : String) : Prop where
  cr : '\r' ∉ s.toList
  lf : '\n' ∉ s.toList
  solid : ∀ c ∈ s.toList.getLast?, isWhitespace c = false

/-- A value that the protocol can carry: its strings are single lines, and its
lengths are those of real vectors. -/
inductive Resp.Sendable : Resp → Prop where
  | simple {s : String} (line : OneLine s) : Sendable (.simple s)
  | int (n : Int64) : Sendable (.int n)
  | null : Sendable (.bulk none)
  | bulk {b : Bytes} (room : b.length + 2 < 2 ^ 63) : Sendable (.bulk (some b))
  | arr {items : List Resp} (room : items.length < 2 ^ 58)
      (parts : ∀ item ∈ items, item.Sendable) : Sendable (.arr items)
  | err {e : String} (line : OneLine e) : Sendable (.err e)

theorem OneLine.lf_not_mem {s : String} (line : OneLine s) : 10 ∉ encode s := by
  rw [mem_encode_iff (by decide)]
  exact line.lf

/-- A value is read from its own bytes. -/
theorem Resp.Sendable.reads {r : Resp} (sendable : r.Sendable) :
    readResp.Reads r.reply.wire r := by
  induction sendable with
  | simple line =>
      have read := reads_simple (decode?_encode _) line.lf_not_mem
      rwa [trimEnd_of_solid line.solid] at read
  | int n => exact reads_int n
  | null => exact reads_nullBulk
  | bulk room => exact reads_bulk room
  | arr room parts ih =>
      rename_i items
      have read := reads_arr room ih
      rw [List.map_id'] at read
      rwa [Resp.reply, Reply.wire, wires_eq_flatMap, Resp.replies_eq_map, List.flatMap_map,
        List.length_map]
  | err line =>
      have read := reads_error (decode?_encode _) line.lf_not_mem
      rwa [trimEnd_of_solid line.solid] at read

/-- Replies in a row are read one by one, and what follows them stays unread. -/
theorem times_readResp_wire (rs : List Resp) (rest : Bytes)
    (sendable : ∀ r ∈ rs, r.Sendable) :
    (Pull.times rs.length readResp).run ((rs.flatMap fun r => r.reply.wire) ++ rest) =
      .ok (rs, rest) := by
  have read := Pull.Reads.times (fun r among => (sendable r among).reads) rest
  rwa [List.map_id'] at read

theorem oneLine_ok : OneLine "OK" where
  cr := by decide
  lf := by decide
  solid := by
    intro c member
    have last : "OK".toList.getLast? = some 'K' := by decide
    rw [last] at member
    cases member
    decide

theorem times_readResp_nested :
    (Pull.times 2 readResp).run
        ([Resp.arr [.bulk (some [13, 10]), .arr [.bulk none, .int (-3)]], .simple "OK"].flatMap
          (fun r => r.reply.wire) ++ [58]) =
      .ok ([.arr [.bulk (some [13, 10]), .arr [.bulk none, .int (-3)]], .simple "OK"], [58]) := by
  refine times_readResp_wire
    [.arr [.bulk (some [13, 10]), .arr [.bulk none, .int (-3)]], .simple "OK"] [58] ?_
  have inner : (Resp.arr [.bulk none, .int (-3)]).Sendable := by
    refine .arr (by decide) ?_
    simp [Resp.Sendable.null, Resp.Sendable.int]
  have outer : (Resp.arr [.bulk (some [13, 10]), .arr [.bulk none, .int (-3)]]).Sendable := by
    refine .arr (by decide) ?_
    simp [inner, Resp.Sendable.bulk]
  simp [outer, Resp.Sendable.simple oneLine_ok]

/-! ## Commands in a row -/

/-- A command is an array of bulk strings. -/
def command (args : List Bytes) : Reply :=
  .arr (args.map Reply.bulk)

def commandResp (args : List Bytes) : Resp :=
  .arr (args.map fun a => .bulk (some a))

theorem writeCmd_eq (out : Bytes) (args : List Bytes) :
    writeCmd out args = out ++ (command args).wire := by
  have fold : ∀ (front : Bytes) (args : List Bytes),
      args.foldl (fun out a => out ++ [36] ++ usizeText a.length ++ [13, 10] ++ a ++ [13, 10]) front
        = front ++ wires (args.map Reply.bulk) := by
    intro front args
    induction args generalizing front with
    | nil => simp [wires]
    | cons a args ih =>
        rw [List.foldl_cons, ih, List.map_cons, wires, Reply.wire, frame]
        simp [usizeText, count]
  have unfolded : writeCmd out args =
      args.foldl (fun out a => out ++ [36] ++ usizeText a.length ++ [13, 10] ++ a ++ [13, 10])
        (out ++ [42] ++ usizeText args.length ++ [13, 10]) := rfl
  rw [unfolded, fold, command, Reply.wire, frame]
  simp [usizeText, count]

theorem pipeBytes_eq (cmds : List (List Bytes)) :
    pipeBytes cmds = cmds.flatMap (writeCmd []) := by
  have fold : ∀ (front : Bytes) (cmds : List (List Bytes)),
      cmds.foldl writeCmd front = front ++ cmds.flatMap (writeCmd []) := by
    intro front cmds
    induction cmds generalizing front with
    | nil => simp
    | cons args cmds ih =>
        rw [List.foldl_cons, ih, List.flatMap_cons, writeCmd_eq front, writeCmd_eq []]
        simp
  exact fold [] cmds

/-- A command whose lengths are those of real vectors is read as its arguments. -/
theorem reads_command {args : List Bytes} (room : args.length < 2 ^ 58)
    (short : ∀ a ∈ args, a.length + 2 < 2 ^ 63) :
    readResp.Reads (writeCmd [] args) (commandResp args) := by
  rw [writeCmd_eq, List.nil_append, command, Reply.wire, wires_eq_flatMap, List.flatMap_map,
    List.length_map]
  exact reads_arr room fun a among => reads_bulk (short a among)

/-- Whatever the arguments hold, a batch is read as its commands, and `round`
writes a command like `write_cmd`. -/
theorem times_readResp_pipeBytes (cmds : List (List Bytes)) (rest : Bytes)
    (room : ∀ args ∈ cmds, args.length < 2 ^ 58)
    (short : ∀ args ∈ cmds, ∀ a ∈ args, a.length + 2 < 2 ^ 63) :
    (Pull.times cmds.length readResp).run (cmds.flatMap (writeCmd []) ++ rest) =
        .ok (cmds.map commandResp, rest) ∧
      pipeBytes cmds = cmds.flatMap (writeCmd []) ∧
      ∀ args ∈ cmds, roundBytes args = writeCmd [] args := by
  refine ⟨?_, pipeBytes_eq cmds, fun _ _ => rfl⟩
  exact Pull.Reads.times (fun args among => reads_command (room args among) (short args among)) rest

theorem times_readResp_injected :
    (Pull.times 2 readResp).run
        ([[[71, 69, 84], [13, 10, 42, 49, 13, 10, 36]], []].flatMap (writeCmd []) ++ [36]) =
      .ok ([.arr [.bulk (some [71, 69, 84]), .bulk (some [13, 10, 42, 49, 13, 10, 36])], .arr []],
        [36]) :=
  (times_readResp_pipeBytes [[[71, 69, 84], [13, 10, 42, 49, 13, 10, 36]], []] [36]
    (by decide) (by decide)).1

end Shrt.Kv
