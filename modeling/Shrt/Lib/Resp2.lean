import Mathlib.Data.List.Basic
import Shrt.Lib.Decimal

/-!
# RESP2 replies

The replies of the protocol and their wire form.  Every reply is a frame: a
tag, a line that a CR LF closes, and a payload whose extent the line tells.
-/

namespace Shrt.Lib.Resp2

open Shrt.Lib.Decimal

/-- A reply; simple strings and errors are lines of bytes. -/
inductive Reply where
  | simple (line : List UInt8)
  | error (line : List UInt8)
  | int (n : Int64)
  | bulk (data : List UInt8)
  | nullBulk
  | arr (items : List Reply)
  | nullArr

def count (n : Nat) : List UInt8 :=
  writeDigits 20 n []

def signed (n : Int64) : List UInt8 :=
  (if n < 0 then [45] else []) ++ count n.toInt.natAbs

def frame (tag : UInt8) (line payload : List UInt8) : List UInt8 :=
  tag :: (line ++ 13 :: 10 :: payload)

mutual

def Reply.wire : Reply → List UInt8
  | .simple line => frame 43 line []
  | .error line => frame 45 line []
  | .int n => frame 58 (signed n) []
  | .bulk data => frame 36 (count data.length) (data ++ [13, 10])
  | .nullBulk => frame 36 [45, 49] []
  | .arr items => frame 42 (count items.length) (wires items)
  | .nullArr => frame 42 [45, 49] []

def wires : List Reply → List UInt8
  | [] => []
  | reply :: replies => reply.wire ++ wires replies

end

mutual

def Reply.lines : Reply → List (List UInt8)
  | .simple line => [line]
  | .error line => [line]
  | .arr items => linesOf items
  | _ => []

def linesOf : List Reply → List (List UInt8)
  | [] => []
  | reply :: replies => reply.lines ++ linesOf replies

end

theorem wires_eq_flatMap (replies : List Reply) : wires replies = replies.flatMap Reply.wire := by
  induction replies with
  | nil => rfl
  | cons reply replies ih => rw [wires, ih, List.flatMap_cons]

/-- Lines hold no CR and no LF, and lengths are those of real vectors: none takes `2 ^ 63`
bytes, a string is read with its CR LF, and a reply takes 32 bytes. -/
inductive Reply.WellFormed : Reply → Prop where
  | simple {line : List UInt8} (cr : 13 ∉ line) (lf : 10 ∉ line) : WellFormed (.simple line)
  | error {line : List UInt8} (cr : 13 ∉ line) (lf : 10 ∉ line) : WellFormed (.error line)
  | int (n : Int64) : WellFormed (.int n)
  | bulk {data : List UInt8} (room : data.length + 2 < 2 ^ 63) : WellFormed (.bulk data)
  | nullBulk : WellFormed .nullBulk
  | arr {items : List Reply} (room : items.length < 2 ^ 58)
      (parts : ∀ item ∈ items, item.WellFormed) : WellFormed (.arr items)
  | nullArr : WellFormed .nullArr

/-! ## Numbers -/

theorem count_digit {n : Nat} {b : UInt8} (among : b ∈ count n) : 48 ≤ b ∧ b ≤ 57 :=
  writeDigits_digit 20 n among

/-! ## Cuts of a frame -/

theorem length_frame (tag : UInt8) (line payload : List UInt8) :
    (frame tag line payload).length = line.length + payload.length + 3 := by
  simp [frame]
  omega

/-- A cut in front of the LF leaves the tag and some of the line. -/
theorem take_frame_line (tag : UInt8) {line : List UInt8} (payload : List UInt8) {k : Nat}
    (within : k ≤ line.length + 1) :
    (frame tag line payload).take (k + 1) = tag :: (line ++ [13]).take k := by
  have split : line ++ 13 :: 10 :: payload = (line ++ [13]) ++ 10 :: payload := by simp
  rw [frame, List.take_succ_cons, split, List.take_append_of_le_length (by simpa using within)]

/-- A cut behind the LF leaves the line and some of the payload. -/
theorem take_frame_payload (tag : UInt8) (line payload : List UInt8) (k : Nat) :
    (frame tag line payload).take (line.length + 3 + k) = frame tag line (payload.take k) := by
  have split : ∀ rest, line ++ 13 :: 10 :: rest = (line ++ [13, 10]) ++ rest := by simp
  have room : line.length + 2 = (line ++ [13, 10]).length := by simp
  rw [frame, frame, show line.length + 3 + k = line.length + 2 + k + 1 by omega,
    List.take_succ_cons, split payload, split (payload.take k), room,
    List.take_length_add_append]

end Shrt.Lib.Resp2
