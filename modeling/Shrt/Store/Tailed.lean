import Mathlib.Data.List.Infix
import Shrt.Lib.Runs
import Shrt.Store.Tailing

/-!
# Runs of a tail reader

The loops that cut a buffer into lines, as the source writes them, and what a
reader hands out over a whole run: while the log only grows, the lines of what
was read, each once.  A log that was emptied and has grown past the place where
the reader stands is no longer told apart from one that only grew.
-/

namespace Shrt.Store

open Shrt.Codec Shrt.Lib Shrt.Lib.Framing Shrt.Lib.Runs

/-! ## Cutting a buffer -/

/-- The loop over the positions `is` of a buffer: `start` is where the line
under construction begins.  Returns the lines and the last `start`. -/
def cutFrom (buf : Bytes) : Nat → List Nat → List Bytes × Nat
  | start, [] => ([], start)
  | start, i :: is =>
      if buf[i]? = some NL then
        let later := cutFrom buf (i + 1) is
        (if i > start then ((buf.drop start).take (i - start)) :: later.1 else later.1, later.2)
      else cutFrom buf start is

def cutLines (buf : Bytes) : List Bytes × Nat :=
  cutFrom buf 0 (List.range buf.length)

/-- `replay_file`, by its loop. -/
def replayLoop (dir : Dir) (f : FileName) : List Bytes :=
  (cutLines (dir.read f)).1

/-- `read_new`, by its loops: the new bytes alone when nothing was left over,
else what was left over and the new bytes. -/
def TailReader.readLoop (r : TailReader) (dir : Dir) (f : FileName) (short : Nat) :
    TailReader × List Bytes :=
  let size := (dir.read f).length
  let r := r.rewind size
  if size ≤ r.offset then (r, [])
  else
    let buf := ((dir.read f).drop r.offset).take (size - r.offset - short)
    if r.leftover = [] then
      let cut := cutLines buf
      (⟨r.offset + buf.length, r.leftover ++ buf.drop cut.2⟩, cut.1)
    else
      let joined := r.leftover ++ buf
      let cut := cutLines joined
      (⟨r.offset + buf.length, joined.drop cut.2⟩, cut.1)

/-- The loop from the position `i` on is a scan with the bytes since `start` as
its line under construction. -/
theorem cutFrom_eq_scan {buf : Bytes} {start i n : Nat} (order : start ≤ i)
    (whole : i + n = buf.length) :
    (cutFrom buf start (List.range' i n)).1 =
        (scan NL ((buf.drop start).take (i - start)) (buf.drop i)).1 ∧
      buf.drop (cutFrom buf start (List.range' i n)).2 =
        (scan NL ((buf.drop start).take (i - start)) (buf.drop i)).2 := by
  induction n generalizing start i with
  | zero =>
      have ended : buf.drop i = [] := List.drop_eq_nil_of_le (by omega)
      have all : (buf.drop start).take (i - start) = buf.drop start := by
        apply List.take_of_length_le
        rw [List.length_drop]
        omega
      rw [ended, all]
      exact ⟨rfl, rfl⟩
  | succ n ih =>
      have inside : i < buf.length := by omega
      have next : buf.drop i = buf[i] :: buf.drop (i + 1) := List.drop_eq_getElem_cons inside
      have here : buf[i]? = some buf[i] := List.getElem?_eq_getElem inside
      rw [List.range'_succ, cutFrom, next, scan]
      by_cases ends : buf[i] = NL
      · -- the next line starts behind `i`
        rw [if_pos (here.trans (congrArg some ends)), if_pos ends]
        obtain ⟨found, last⟩ := ih (Nat.le_refl (i + 1)) (by omega)
        rw [Nat.sub_self, List.take_zero] at found last
        refine ⟨?_, last⟩
        dsimp only
        rw [found]
        by_cases empty : i > start
        · have nonempty : (buf.drop start).take (i - start) ≠ [] := by
            rw [ne_eq, List.take_eq_nil_iff, List.drop_eq_nil_iff]
            omega
          simp only [if_pos empty, if_neg nonempty]
        · have none : i - start = 0 := by omega
          simp only [if_neg empty, none, List.take_zero, if_true]
      · rw [if_neg fun same => ends (Option.some.inj (here.symm.trans same)), if_neg ends]
        have longer : (buf.drop start).take (i + 1 - start) =
            (buf.drop start).take (i - start) ++ [buf[i]] := by
          rw [show i + 1 - start = i - start + 1 by omega, List.take_add_one, List.getElem?_drop,
            show start + (i - start) = i by omega, here]
          rfl
        rw [← longer]
        exact ih (by omega) (by omega)

theorem cutLines_eq (buf : Bytes) :
    (cutLines buf).1 = lines NL buf ∧ buf.drop (cutLines buf).2 = rest NL buf := by
  have looped := cutFrom_eq_scan (Nat.le_refl 0) (Nat.zero_add buf.length)
  rw [cutLines, List.range_eq_range']
  exact looped

theorem replayLoop_eq (dir : Dir) (f : FileName) : replayLoop dir f = replayFile dir f :=
  (cutLines_eq _).1

/-- The two loops of a read are one scan. -/
theorem TailReader.readLoop_eq (r : TailReader) (dir : Dir) (f : FileName) (short : Nat) :
    r.readLoop dir f short = r.readNew dir f short := by
  simp only [readLoop, readNew]
  generalize r.rewind (dir.read f).length = r'
  split
  · rfl
  · split
    · rename_i nothing
      rw [nothing, List.nil_append, List.nil_append, (cutLines_eq _).1, (cutLines_eq _).2]
      rfl
    · rw [(cutLines_eq _).1, (cutLines_eq _).2]
      rfl

/-! ## Runs -/

/-- A log and a reader of it, what was handed out since the log was last
emptied, and whether it was emptied since the last read. -/
structure Tail where
  dir : Dir
  reader : TailReader
  heard : List Bytes
  emptied : Bool

inductive TailStep where
  | append (bytes : Bytes)
  | truncate
  | read (short : Nat)

namespace Tail

def start : Tail := ⟨.empty, .fromStart, [], false⟩

/-- The owner `k` appends to its log or empties it, or the sibling reads. -/
def step (k : Inst) (t : Tail) : TailStep → Tail
  | .append bytes => { t with dir := ((Aof.mk []).pushRaw bytes |>.flush t.dir k).2 }
  | .truncate =>
      { t with dir := ((Aof.mk []).truncate t.dir k).2, heard := [], emptied := true }
  | .read short =>
      let got := t.reader.readLoop t.dir (.log k) short
      { t with reader := got.1, heard := t.heard ++ got.2, emptied := false }

def run (k : Inst) (steps : List TailStep) : Tail :=
  steps.foldl (step k) start

theorem run_snoc (k : Inst) (steps : List TailStep) (last : TailStep) :
    run k (steps ++ [last]) = (run k steps).step k last := by
  simp [run]

def file (k : Inst) (t : Tail) : Bytes :=
  t.dir.read (.log k)

def seen (k : Inst) (t : Tail) : Bytes :=
  (t.file k).take t.reader.offset

theorem file_append (k : Inst) (t : Tail) (bytes : Bytes) :
    (t.step k (.append bytes)).file k = t.file k ++ bytes :=
  Aof.flush_read_log _ _ _

theorem file_truncate (k : Inst) (t : Tail) : (t.step k .truncate).file k = [] :=
  Dir.read_write_same _ _ _

/-- Since the log was last emptied: nothing was read, or the reader stands in it
and has handed out the lines in front of it. -/
structure Follows (k : Inst) (t : Tail) : Prop where
  unread : t.emptied = true → t.heard = []
  stands : t.emptied = false → t.reader.Stands (t.file k)
  heard : t.emptied = false → t.heard = lines NL (t.seen k)

theorem follows_start (k : Inst) : start.Follows k :=
  ⟨fun _ => rfl, fun _ => TailReader.stands_fromStart _, fun _ => rfl⟩

/-- A read misses no line: the log was not emptied since the last one, or is now
shorter than the offset, or has in front of the offset no complete line and just
what the reader has kept. -/
def Notices (k : Inst) (t : Tail) : TailStep → Prop
  | .read _ => t.emptied = false ∨ (t.file k).length < t.reader.offset ∨
      (lines NL (t.seen k) = [] ∧ rest NL (t.seen k) = t.reader.leftover)
  | _ => True

instance (k : Inst) (t : Tail) : ∀ step, Decidable (t.Notices k step)
  | .append _ => isTrue trivial
  | .truncate => isTrue trivial
  | .read _ => inferInstanceAs (Decidable (_ ∨ _ ∨ _))

/-- A read hands out the lines up to where the reader then stands. -/
theorem read_of_stands {k : Inst} {t : Tail} {r : TailReader} (stands : r.Stands (t.file k))
    {short : Nat} (same : t.reader.readLoop t.dir (.log k) short = r.readNew t.dir (.log k) short)
    (heard : t.heard = lines NL ((t.file k).take r.offset)) :
    (t.step k (.read short)).Follows k ∧
      (short = 0 → (t.step k (.read short)).seen k = (t.step k (.read short)).file k) := by
  obtain ⟨r', ls, got, stands', handed, whole⟩ := stands.readNew short
  have after : t.step k (.read short) = ⟨t.dir, r', t.heard ++ ls, false⟩ := by
    rw [step, same, got]
  rw [after]
  refine ⟨⟨nofun, fun _ => stands', fun _ => ?_⟩, fun full => ?_⟩
  · change t.heard ++ ls = _
    rw [heard]
    exact handed.symm
  · exact List.take_of_length_le (whole full).ge

theorem Follows.read {k : Inst} {t : Tail} (follows : t.Follows k) {short : Nat}
    (notices : t.Notices k (.read short)) :
    (t.step k (.read short)).Follows k ∧
      (short = 0 → (t.step k (.read short)).seen k = (t.step k (.read short)).file k) := by
  have looped := t.reader.readLoop_eq t.dir (.log k) short
  cases emptied : t.emptied with
  | false => exact read_of_stands (follows.stands emptied) looped (follows.heard emptied)
  | true =>
      have unheard := follows.unread emptied
      rcases notices with steady | beyond | ⟨none, kept⟩
      · rw [emptied] at steady
        cases steady
      · exact read_of_stands (TailReader.stands_fromStart _)
          (looped.trans (TailReader.readNew_rewound beyond short)) unheard
      · by_cases beyond : (t.file k).length < t.reader.offset
        · exact read_of_stands (TailReader.stands_fromStart _)
            (looped.trans (TailReader.readNew_rewound beyond short)) unheard
        · exact read_of_stands ⟨Nat.not_lt.mp beyond, kept⟩ looped (unheard.trans none.symm)

theorem Follows.append {k : Inst} {t : Tail} (follows : t.Follows k) (bytes : Bytes) :
    (t.step k (.append bytes)).Follows k := by
  refine ⟨follows.unread, fun steady => ?_, fun steady => ?_⟩
  · rw [file_append]
    exact (follows.stands steady).grow bytes
  · rw [seen, file_append]
    exact (follows.heard steady).trans
      (congrArg (lines NL) (TailReader.take_grown (follows.stands steady) bytes).symm)

theorem Follows.step {k : Inst} {t : Tail} (follows : t.Follows k) {step : TailStep}
    (notices : t.Notices k step) : (t.step k step).Follows k := by
  cases step with
  | append bytes => exact follows.append bytes
  | truncate => exact ⟨fun _ => rfl, nofun, nofun⟩
  | read short => exact (follows.read notices).1

theorem follows_run {k : Inst} {steps : List TailStep}
    (notices : Along (Tail.step k) (Notices k) start steps) : (run k steps).Follows k :=
  Along.invariant (fun _ _ follows notices => follows.step notices) (follows_start k) notices

/-! ## A log that only grows -/

def appended : TailStep → Bytes
  | .append bytes => bytes
  | _ => []

/-- While the log only grows, the reader is never misled. -/
theorem grows_run {k : Inst} {steps : List TailStep} (grows : ∀ step ∈ steps, step ≠ .truncate)
    {t : Tail} (steady : t.emptied = false) :
    Along (Tail.step k) (Notices k) t steps ∧ (steps.foldl (step k) t).emptied = false ∧
      (steps.foldl (step k) t).file k = t.file k ++ steps.flatMap appended := by
  induction steps generalizing t with
  | nil => exact ⟨trivial, steady, (List.append_nil _).symm⟩
  | cons step steps ih =>
      have later := fun {t : Tail} => ih (t := t) fun s member =>
        grows s (List.mem_cons_of_mem _ member)
      cases step with
      | truncate => exact absurd rfl (grows _ List.mem_cons_self)
      | append bytes =>
          obtain ⟨along, calm, file⟩ := later (t := t.step k (.append bytes)) steady
          refine ⟨⟨trivial, along⟩, calm, ?_⟩
          rw [List.foldl_cons, file, file_append, List.append_assoc]
          rfl
      | read short =>
          obtain ⟨along, calm, file⟩ := later (t := t.step k (.read short)) rfl
          exact ⟨⟨Or.inl steady, along⟩, calm, file⟩

end Tail

/-- However a log is appended and read, what the reader has handed out are the
lines that a replay of the bytes it has read hands out, and it has kept the bytes
after their last line end.  A read that is not cut short has read all. -/
theorem tailing_replays (k : Inst) (steps : List TailStep)
    (grows : ∀ step ∈ steps, step ≠ .truncate) :
    let t := Tail.run k steps
    t.file k = steps.flatMap Tail.appended ∧
      t.seen k <+: t.file k ∧
      t.heard = replayLoop (Dir.empty.write (.log k) (t.seen k)) (.log k) ∧
      (∃ front, t.seen k = front ++ t.reader.leftover ∧ NL ∉ t.reader.leftover ∧
        (front = [] ∨ ∃ before, front = before ++ [NL])) ∧
      ∀ before, steps = before ++ [.read 0] → t.seen k = t.file k := by
  intro t
  obtain ⟨along, steady, file⟩ := Tail.grows_run (k := k) grows (t := .start) rfl
  have follows := Tail.follows_run along
  have kept := (follows.stands steady).leftover
  refine ⟨file, List.take_prefix _ _, ?_, ?_, ?_⟩
  · rw [replayLoop_eq, replayFile, Dir.read_write_same]
    exact follows.heard steady
  · obtain ⟨front, whole, ends⟩ := exists_front NL (t.seen k)
    have rest : rest NL (t.seen k) = t.reader.leftover := kept
    rw [rest] at whole
    exact ⟨front, whole, rest ▸ sep_not_mem_rest NL _, ends⟩
  · rintro before rfl
    rw [Along.append] at along
    have last := ((Tail.follows_run along.1).read along.2.1).2 rfl
    simpa only [t, Tail.run_snoc] using last

/-- Appends and reads that fall anywhere in the lines. -/
def growingSchedule : List TailStep :=
  [.append [97, 98], .read 0, .read 0, .append [99, NL, NL, 100], .read 2, .append [101, NL],
   .read 1, .append [102], .read 0]

theorem tailing_replays_growing :
    (Tail.run 5 growingSchedule).heard = [[97, 98, 99], [100, 101]] ∧
      (Tail.run 5 growingSchedule).reader.leftover = [102] ∧
      (Tail.run 5 growingSchedule).heard =
        replayLoop (Dir.empty.write (.log 5) ((Tail.run 5 growingSchedule).seen 5)) (.log 5) :=
  ⟨by decide +kernel, by decide +kernel,
    (tailing_replays 5 growingSchedule (by simp [growingSchedule])).2.2.1⟩

/-! ## A log that is emptied -/

/-- The lines that were appended since the log was last emptied. -/
def Tail.appendedLines (steps : List TailStep) : List Bytes :=
  steps.foldl (fun ls step => match step with
    | .append bytes => ls ++ lines NL bytes
    | .truncate => []
    | .read _ => ls) []

/-- Appends of whole lines leave a log of whole lines. -/
theorem Tail.lines_file {k : Inst} {steps : List TailStep}
    (whole : ∀ bytes, .append bytes ∈ steps → rest NL bytes = []) :
    rest NL ((run k steps).file k) = [] ∧ lines NL ((run k steps).file k) = appendedLines steps := by
  induction steps using List.reverseRecOn with
  | nil => exact ⟨rfl, rfl⟩
  | append_singleton steps last ih =>
      obtain ⟨ended, sofar⟩ := ih fun bytes member => whole bytes (List.mem_append_left _ member)
      rw [run_snoc, appendedLines, List.foldl_append]
      cases last with
      | read short => exact ⟨ended, sofar⟩
      | truncate =>
          rw [file_truncate]
          exact ⟨rfl, rfl⟩
      | append bytes =>
          have scanned := scan_append NL [] ((run k steps).file k) bytes
          rw [show (scan NL [] ((run k steps).file k)).2 = [] from ended] at scanned
          rw [file_append]
          constructor
          · rw [rest, scanned]
            exact whole bytes (List.mem_append_right _ List.mem_cons_self)
          · rw [lines, scanned]
            exact congrArg (· ++ lines NL bytes) sofar

/-- When no read is misled by a log that was emptied and has grown again, a read
that is not cut short has handed out every line appended since, once and in
order. -/
theorem truncation_survived (k : Inst) (steps : List TailStep)
    (whole : ∀ bytes, .append bytes ∈ steps → rest NL bytes = [])
    (notices : Along (Tail.step k) (Tail.Notices k) .start (steps ++ [.read 0])) :
    (Tail.run k (steps ++ [.read 0])).heard = Tail.appendedLines steps := by
  have along := Along.append.mp notices
  have all := ((Tail.follows_run along.1).read along.2.1).2 rfl
  have follows := Tail.follows_run notices
  rw [Tail.run_snoc] at follows ⊢
  rw [follows.heard rfl, all]
  exact (Tail.lines_file whole).2

/-- A log that is emptied after a read and grows by a shorter line before the
next one. -/
def emptiedSchedule : List TailStep :=
  [.append [97, 98, NL, 99, NL], .read 2, .read 0, .truncate, .append [100, NL], .read 1,
   .append [101, NL]]

theorem truncation_survived_emptied :
    (Tail.run 5 (emptiedSchedule ++ [.read 0])).heard = [[100], [101]] := by
  refine (truncation_survived 5 emptiedSchedule (fun bytes member => ?_) (by decide +kernel)).trans
    (by decide +kernel)
  simp only [emptiedSchedule, List.mem_cons, TailStep.append.injEq, reduceCtorEq, false_or,
    or_false, List.not_mem_nil] at member
  rcases member with rfl | rfl | rfl
  · decide +kernel
  · decide +kernel
  · decide +kernel

/-- A log that is emptied after a read and grows past the offset before the next
one. -/
def outgrownSchedule : List TailStep :=
  [.append [97, 98, NL], .read 0, .truncate, .append [99, 100, NL, 101, NL]]

/-- The first line of the new log is never handed out. -/
theorem outgrown_loses_line :
    Tail.appendedLines outgrownSchedule = [[99, 100], [101]] ∧
      (Tail.run 5 (outgrownSchedule ++ [.read 0])).heard = [[101]] ∧
      (Tail.run 5 (outgrownSchedule ++ [.read 0])).heard ≠ Tail.appendedLines outgrownSchedule := by
  decide +kernel

end Shrt.Store
