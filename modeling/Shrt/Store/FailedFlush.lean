import Mathlib.Data.List.Basic
import Shrt.Store.Engine

/-!
# Flushes that fail

A `write_all` of the queue may fail after any number of bytes.  The flush drops
the error and empties the queue all the same, so what was not written is gone,
and a line that was cut runs into the next one.  The lines that were pushed are
complete lines of the log exactly if no write fails that leaves bytes of a line
whose end is pushed.
-/

namespace Shrt.Store

open Shrt.Codec Shrt.Lib Shrt.Lib.Framing Shrt.Lib.Utf8

/-- What became of a `write_all`: everything was written, or it failed behind
the first `n` bytes. -/
inductive Written where
  | whole
  | short (n : Nat)
  deriving DecidableEq, Repr

namespace Written

/-- The bytes that reach the file. -/
def put (w : Written) (buf : Bytes) : Bytes :=
  match w with
  | .whole => buf
  | .short n => buf.take n

/-- The bytes that do not. -/
def missed (w : Written) (buf : Bytes) : Bytes :=
  match w with
  | .whole => []
  | .short n => buf.drop n

@[simp] theorem put_append_missed (w : Written) (buf : Bytes) : w.put buf ++ w.missed buf = buf := by
  cases w with
  | whole => exact List.append_nil buf
  | short n => exact List.take_append_drop n buf

end Written

/-- `flush` with the outcome of its write: the error is dropped, the queue is
emptied. -/
def Aof.flushWritten (w : Written) (a : Aof) (dir : Dir) (own : Inst) : Aof × Dir :=
  if a.buf = [] then (a, dir) else (⟨[]⟩, dir.append (.log own) (w.put a.buf))

theorem Aof.flushWritten_whole (a : Aof) (dir : Dir) (own : Inst) :
    a.flushWritten .whole dir own = a.flush dir own := rfl

/-- A flush leaves no queue, and the log holds what was written of it. -/
theorem Aof.flushWritten_spec (w : Written) (a : Aof) (dir : Dir) (own : Inst) :
    (a.flushWritten w dir own).1.buf = [] ∧
      (a.flushWritten w dir own).2.read (.log own) = dir.read (.log own) ++ w.put a.buf := by
  rw [flushWritten]
  split
  · rename_i idle
    have nothing : w.put a.buf = [] := by
      have whole := w.put_append_missed a.buf
      rw [idle] at whole
      rw [idle]
      exact (List.append_eq_nil_iff.mp whole).1
    exact ⟨idle, by rw [nothing, List.append_nil]⟩
  · exact ⟨rfl, Dir.read_append_same _ _ _⟩

/-- The calls on a log. -/
inductive LogCall where
  | push (line : Bytes)
  | pushRaw (bytes : Bytes)
  | flush (w : Written)

namespace LogCall

def bytes : LogCall → Bytes
  | .push line => line ++ [NL]
  | .pushRaw bytes => bytes
  | .flush _ => []

def pushed (calls : List LogCall) : Bytes :=
  calls.flatMap bytes

@[simp] theorem pushed_cons (call : LogCall) (calls : List LogCall) :
    pushed (call :: calls) = call.bytes ++ pushed calls :=
  List.flatMap_cons

def step (own : Inst) (s : Aof × Dir) : LogCall → Aof × Dir
  | .push line => (s.1.push line, s.2)
  | .pushRaw bytes => (s.1.pushRaw bytes, s.2)
  | .flush w => s.1.flushWritten w s.2 own

def run (own : Inst) (s : Aof × Dir) (calls : List LogCall) : Aof × Dir :=
  calls.foldl (step own) s

/-- The log after the calls and one more flush, which succeeds. -/
def logAfter (own : Inst) (s : Aof × Dir) (calls : List LogCall) : Bytes :=
  (run own s (calls ++ [.flush .whole])).2.read (.log own)

/-- No failed write, with the queue as it is then, leaves bytes of a line whose
end is queued at that time or later. -/
def Lossless : Bytes → List LogCall → Prop
  | _, [] => True
  | queue, .push line :: later => Lossless (queue ++ line ++ [NL]) later
  | queue, .pushRaw bytes :: later => Lossless (queue ++ bytes) later
  | queue, .flush w :: later =>
      (w.missed queue = [] ∨ NL ∉ w.missed queue ++ pushed later) ∧ Lossless [] later

/-! ## What reaches the log -/

@[simp] theorem logAfter_nil (own : Inst) (s : Aof × Dir) :
    logAfter own s [] = s.2.read (.log own) ++ s.1.buf :=
  (s.1.flushWritten_spec .whole s.2 own).2

@[simp] theorem logAfter_cons (own : Inst) (s : Aof × Dir) (call : LogCall) (calls : List LogCall) :
    logAfter own s (call :: calls) = logAfter own (step own s call) calls := rfl

/-- What is not missed at a flush is followed by the rest of the run. -/
theorem log_flush (own : Inst) (s : Aof × Dir) (w : Written) :
    (step own s (.flush w)).2.read (.log own) ++ (step own s (.flush w)).1.buf =
      s.2.read (.log own) ++ w.put s.1.buf := by
  obtain ⟨empty, read⟩ := s.1.flushWritten_spec w s.2 own
  show (s.1.flushWritten w s.2 own).2.read (.log own) ++ (s.1.flushWritten w s.2 own).1.buf = _
  rw [empty, read, List.append_nil]

/-- A run without losses leaves the lines that a run without failures does. -/
theorem completeLines_of_lossless (own : Inst) (s : Aof × Dir) {calls : List LogCall}
    (lossless : Lossless s.1.buf calls) :
    completeLines NL (logAfter own s calls) =
      completeLines NL (s.2.read (.log own) ++ s.1.buf ++ pushed calls) := by
  induction calls generalizing s with
  | nil => simp [pushed]
  | cons call calls ih =>
      rw [logAfter_cons, pushed_cons]
      cases call with
      | push line =>
          rw [ih (step own s (.push line)) lossless]
          simp [step, Aof.push, bytes]
      | pushRaw raw =>
          rw [ih (step own s (.pushRaw raw)) lossless]
          simp [step, Aof.pushRaw, bytes]
      | flush w =>
          obtain ⟨kept, later⟩ := lossless
          have empty : (step own s (.flush w)).1.buf = [] := (s.1.flushWritten_spec w s.2 own).1
          rw [ih (step own s (.flush w)) (empty ▸ later), log_flush, bytes, List.nil_append]
          conv_rhs => rw [← w.put_append_missed s.1.buf, ← List.append_assoc]
          rcases kept with none_missed | open_line
          · rw [none_missed, List.append_nil]
          · rw [List.append_assoc _ (w.missed _), completeLines_append_of_not_mem _ open_line,
              completeLines_append_of_not_mem]
            exact fun closes => open_line (List.mem_append_right _ closes)

/-- A run never leaves more in complete lines than a run without failures, and
less if there is a loss. -/
theorem closedLength_logAfter (own : Inst) (s : Aof × Dir) (calls : List LogCall) :
    closedLength NL (logAfter own s calls) ≤
        closedLength NL (s.2.read (.log own) ++ s.1.buf ++ pushed calls) ∧
      (¬ Lossless s.1.buf calls → closedLength NL (logAfter own s calls) <
        closedLength NL (s.2.read (.log own) ++ s.1.buf ++ pushed calls)) := by
  induction calls generalizing s with
  | nil => simp [pushed, Lossless]
  | cons call calls ih =>
      rw [logAfter_cons, pushed_cons]
      cases call with
      | push line =>
          have later := ih (step own s (.push line))
          simpa [step, Aof.push, bytes, Lossless] using later
      | pushRaw raw =>
          have later := ih (step own s (.pushRaw raw))
          simpa [step, Aof.pushRaw, bytes, Lossless] using later
      | flush w =>
          have empty : (step own s (.flush w)).1.buf = [] := (s.1.flushWritten_spec w s.2 own).1
          obtain ⟨most, less⟩ := ih (step own s (.flush w))
          rw [log_flush] at most less
          rw [empty] at less
          rw [bytes, List.nil_append]
          conv => enter [1, 2]; rw [← w.put_append_missed s.1.buf, ← List.append_assoc]
          conv => enter [2, 2]; rw [← w.put_append_missed s.1.buf, ← List.append_assoc]
          by_cases none_missed : w.missed s.1.buf = []
          · rw [none_missed, List.append_nil]
            refine ⟨most, fun loss => less fun later => loss ⟨Or.inl none_missed, later⟩⟩
          by_cases closes : NL ∈ w.missed s.1.buf ++ pushed calls
          · have gap := closedLength_gap (s.2.read (.log own) ++ w.put s.1.buf) none_missed closes
            exact ⟨most.trans gap.le, fun _ => most.trans_lt gap⟩
          · have free : NL ∉ pushed calls := fun more => closes (List.mem_append_right _ more)
            rw [closedLength_append_of_not_mem _ free] at most less
            rw [List.append_assoc _ (w.missed _), closedLength_append_of_not_mem _ closes]
            exact ⟨most, fun loss => less fun later => loss ⟨Or.inr closes, later⟩⟩

/-- The lines that are pushed, each as often as it is pushed, are complete lines
of the log after a flush that succeeds exactly if no failed write leaves bytes
of such a line. -/
theorem pushed_lines_kept_iff {own : Inst} {dir : Dir}
    (ends : rest NL (dir.read (.log own)) = []) (calls : List LogCall) :
    (completeLines NL (dir.read (.log own)) ++ completeLines NL (pushed calls)).Subperm
        (completeLines NL (logAfter own (⟨[]⟩, dir) calls)) ↔
      Lossless [] calls := by
  rw [← completeLines_append_of_rest ends]
  constructor
  · intro kept
    by_contra loss
    have less := (closedLength_logAfter own (⟨[]⟩, dir) calls).2 loss
    have room := closedLength_le_of_subperm kept
    rw [List.append_nil] at less
    exact absurd room (Nat.not_le_of_lt less)
  · intro lossless
    rw [completeLines_of_lossless own (⟨[]⟩, dir) lossless, List.append_nil]

/-- One write fails when nothing is queued, another one behind the first byte of a line that is
never ended. -/
theorem pushed_lines_kept_whole :
    let calls : List LogCall :=
      [.push (encode "a"), .flush .whole, .flush (.short 0), .push (encode "b"), .flush .whole,
        .pushRaw (encode "cd"), .flush (.short 1)]
    (completeLines NL (Dir.empty.read (.log 0)) ++ completeLines NL (pushed calls)).Subperm
        (completeLines NL (logAfter 0 (⟨[]⟩, .empty) calls)) :=
  (pushed_lines_kept_iff rfl _).mpr ⟨Or.inl rfl, Or.inl rfl, Or.inl rfl,
    Or.inr (by decide +kernel), trivial⟩

/-- A write fails behind the first byte of its line: the line is gone, and the
next one is not a line of its own. -/
theorem failed_flush_loses_lines :
    let calls : List LogCall := [.push (encode "a1"), .flush (.short 1), .push (encode "b2")]
    completeLines NL (logAfter 0 (⟨[]⟩, .empty) calls) = [encode "ab2"] ∧
      ∀ line ∈ [encode "a1", encode "b2"], line ∈ completeLines NL (pushed calls) ∧
        line ∉ completeLines NL (logAfter 0 (⟨[]⟩, .empty) calls) := by
  decide +kernel

/-! ## Callers that push whole lines -/

/-- Bytes that end with a line, or none. -/
def WholeLines (b : Bytes) : Prop :=
  b = [] ∨ ∃ before, b = before ++ [NL]

theorem WholeLines.append {first second : Bytes} (one : WholeLines first)
    (two : WholeLines second) : WholeLines (first ++ second) := by
  rcases two with rfl | ⟨before, rfl⟩
  · rw [List.append_nil]
    exact one
  · exact Or.inr ⟨first ++ before, (List.append_assoc _ _ _).symm⟩

/-- What is left of whole lines holds the end of the last one. -/
theorem WholeLines.mem_missed {queue : Bytes} (whole : WholeLines queue) {w : Written}
    (some_missed : w.missed queue ≠ []) : NL ∈ w.missed queue := by
  rcases whole with rfl | ⟨before, rfl⟩
  · have joined := w.put_append_missed []
    exact absurd (List.append_eq_nil_iff.mp joined).2 some_missed
  · have joined := w.put_append_missed (before ++ [NL])
    rcases List.eq_nil_or_concat (w.missed (before ++ [NL])) with none_missed | ⟨some, last, cut⟩
    · exact absurd none_missed some_missed
    · rw [cut, List.concat_eq_append, ← List.append_assoc] at joined
      have same : last = NL := List.head_eq_of_cons_eq (List.append_inj_right' joined rfl)
      rw [cut, same, List.concat_eq_append]
      exact List.mem_append_right _ List.mem_cons_self

def AllWritten : Bytes → List LogCall → Prop
  | _, [] => True
  | queue, .push line :: later => AllWritten (queue ++ line ++ [NL]) later
  | queue, .pushRaw bytes :: later => AllWritten (queue ++ bytes) later
  | queue, .flush w :: later => w.missed queue = [] ∧ AllWritten [] later

/-- Callers that push whole lines lose one with every write that fails. -/
theorem lossless_iff_allWritten {queue : Bytes} (whole : WholeLines queue)
    {calls : List LogCall} (raws : ∀ b, LogCall.pushRaw b ∈ calls → WholeLines b) :
    Lossless queue calls ↔ AllWritten queue calls := by
  induction calls generalizing queue with
  | nil => exact Iff.rfl
  | cons call calls ih =>
      have later : ∀ b, LogCall.pushRaw b ∈ calls → WholeLines b :=
        fun b member => raws b (List.mem_cons_of_mem _ member)
      cases call with
      | push line => exact ih (Or.inr ⟨queue ++ line, rfl⟩) later
      | pushRaw b => exact ih (whole.append (raws b List.mem_cons_self)) later
      | flush w =>
          refine and_congr ⟨fun kept => ?_, Or.inl⟩ (ih (Or.inl rfl) later)
          rcases kept with none_missed | open_line
          · exact none_missed
          · by_contra some_missed
            exact open_line (List.mem_append_left _ (whole.mem_missed some_missed))

/-- The hits of a flush are whole lines. -/
theorem wholeLines_hitLines (env : Env) (s : Inner) : WholeLines (s.hitLines env) := by
  have folded : ∀ (deltas : List (String × Int64)) (lines : Bytes), WholeLines lines →
      WholeLines (deltas.foldl
        (fun lines kd => hitLineInto lines kd.1 kd.2 s.inst.i64 ++ [NL]) lines) := by
    intro deltas
    induction deltas with
    | nil => exact fun _ whole => whole
    | cons kd deltas ih => exact fun lines _ => ih _ (Or.inr ⟨_, rfl⟩)
  exact folded _ _ (Or.inl rfl)

/-- The flush of a store queues its hits and flushes. -/
theorem flushLocked_eq_run (env : Env) {s : Inner} {a : Aof} (queue : s.aof = some a) (dir : Dir) :
    let after := run s.inst (a, dir) [.pushRaw (s.hitLines env), .flush .whole]
    s.flushLocked env dir = ({ s with dirty := ∅, aof := some after.1 }, after.2) := by
  rw [Inner.flushLocked, queue]
  rfl

end LogCall

end Shrt.Store
