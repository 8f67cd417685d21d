import Mathlib.Data.List.Basic
import Shrt.Store.Disk

/-!
# The log format as a whole

Records reach the queue of a log in two ways: as a line of their own, or many
at a time in a buffer that already holds the line ends.  Whatever the mixture,
the file is read back record by record.
-/

namespace Shrt.Store

open Shrt.Codec Shrt.Lib.Framing

/-- What is written straight into a buffer: tombstones never are. -/
inductive Inlined where
  | row (c u : String) (a e i n : Int64)
  | hit (c : String) (d i : Int64)

namespace Inlined

def toRec : Inlined → Rec
  | row c u a e i n => .row c u a e i n
  | hit c d i => .hit c d i

/-- The buffer after the record and its line end. -/
def write (b : Bytes) : Inlined → Bytes
  | row c u a e i n => rowLineInto b c u a e i n ++ [NL]
  | hit c d i => hitLineInto b c d i ++ [NL]

theorem write_eq (b : Bytes) (x : Inlined) : x.write b = b ++ logBytes [x.toRec] := by
  rw [logBytes_singleton]
  cases x with
  | row c u a e i n =>
      rw [write, rowLineInto_eq, List.append_assoc]
      rfl
  | hit c d i =>
      rw [write, hitLineInto_eq, List.append_assoc]
      rfl

theorem foldl_write (xs : List Inlined) (b : Bytes) :
    xs.foldl write b = b ++ logBytes (xs.map toRec) := by
  induction xs generalizing b with
  | nil => simp
  | cons x xs ih =>
      rw [List.foldl_cons, ih, write_eq, List.append_assoc, ← logBytes_append]
      rfl

end Inlined

/-- One write to the queue of a log. -/
inductive Queued where
  | push (r : Rec)
  | pushRaw (xs : List Inlined)

namespace Queued

def recs : Queued → List Rec
  | push r => [r]
  | pushRaw xs => xs.map Inlined.toRec

/-- The queue after a write. -/
def onto (a : Aof) : Queued → Aof
  | push r => a.push r.line
  | pushRaw xs => a.pushRaw (xs.foldl Inlined.write [])

theorem buf_onto (a : Aof) (q : Queued) : (q.onto a).buf = a.buf ++ logBytes q.recs := by
  cases q with
  | push r =>
      rw [recs, logBytes_singleton, ← List.append_assoc]
      rfl
  | pushRaw xs =>
      rw [onto, Aof.pushRaw, Inlined.foldl_write, List.nil_append]
      rfl

theorem buf_foldl (qs : List Queued) (a : Aof) :
    (qs.foldl onto a).buf = a.buf ++ logBytes (qs.flatMap recs) := by
  induction qs generalizing a with
  | nil => simp
  | cons q qs ih =>
      rw [List.foldl_cons, ih, buf_onto, List.append_assoc, ← logBytes_append, List.flatMap_cons]

end Queued

/-- A queue that was filled and flushed into an empty log. -/
def writtenLog (own : Inst) (qs : List Queued) : Dir :=
  ((qs.foldl Queued.onto ⟨[]⟩).flush .empty own).2

theorem read_writtenLog (own : Inst) (qs : List Queued) :
    (writtenLog own qs).read (.log own) = logBytes (qs.flatMap Queued.recs) := by
  have queue : (qs.foldl Queued.onto ⟨[]⟩).buf = logBytes (qs.flatMap Queued.recs) :=
    Queued.buf_foldl qs ⟨[]⟩
  rw [writtenLog, Aof.flush_read_log, queue]
  rfl

/-- Every record of a log is read back in order, however it was queued, and no
line holds a line end. -/
theorem log_round_trip (own : Inst) (qs : List Queued)
    (valid : ∀ r ∈ qs.flatMap Queued.recs, codeOk r.code = true) :
    (replayFile (writtenLog own qs) (.log own)).map parseOp =
        (qs.flatMap Queued.recs).map (fun r => some r.op) ∧
      ∀ r ∈ qs.flatMap Queued.recs, NL ∉ r.line := by
  have ok : AllOk (qs.flatMap Queued.recs) := fun r member => Plain.of_codeOk (valid r member)
  constructor
  · rw [replayFile, read_writtenLog, logBytes, lines_unlines (framed_lines ok), List.map_map]
    exact List.map_congr_left fun r member => parseOp_line (ok r member)
  · exact fun r member => NL_not_mem_line (ok r member)

/-- A row with every kind of escape, a hit and a tombstone. -/
def mixedQueue : List Queued :=
  [.pushRaw [.row "promo" "https://a/\"\\\n\t\x01ü" (-9223372036854775808) 0 61 3, .hit "promo" (-2) 7],
   .push (.del "promo"), .push (.row "promo" "" 0 (-5) 0 0)]

theorem log_round_trip_mixed :
    (replayFile (writtenLog 7 mixedQueue) (.log 7)).map parseOp =
      [some { c := "promo", u := "https://a/\"\\\n\t\x01ü", a := -9223372036854775808, i := 61, n := 3 },
       some { h := "promo", d := -2, i := 7 }, some { x := "promo" },
       some { c := "promo", e := -5, hasE := true }] :=
  (log_round_trip 7 mixedQueue (by decide +kernel)).1.trans (by decide +kernel)

end Shrt.Store
