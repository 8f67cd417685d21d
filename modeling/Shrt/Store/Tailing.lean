import Mathlib.Data.List.Infix
import Shrt.Store.Refinement

/-!
# Tailing a log that grows

A reader that stands in a log knows how many bytes lie before it and which of
them belong to a line not yet complete.  As long as the log only grows, its
reads hand out the lines of the log in order, each once.
-/

namespace Shrt.Store

open Shrt.Codec Shrt.Lib Shrt.Lib.Framing

/-- The reader stands inside these bytes: its leftover is what follows the last
line end in front of its offset. -/
structure TailReader.Stands (r : TailReader) (data : Bytes) : Prop where
  inside : r.offset ≤ data.length
  leftover : rest NL (data.take r.offset) = r.leftover

namespace TailReader

theorem stands_fromStart (data : Bytes) : fromStart.Stands data :=
  ⟨Nat.zero_le _, rfl⟩

theorem take_grown {r : TailReader} {data : Bytes} (stands : r.Stands data) (more : Bytes) :
    (data ++ more).take r.offset = data.take r.offset :=
  List.take_append_of_le_length stands.inside

theorem Stands.grow {r : TailReader} {data : Bytes} (stands : r.Stands data) (more : Bytes) :
    r.Stands (data ++ more) := by
  refine ⟨?_, ?_⟩
  · rw [List.length_append]
    exact Nat.le_add_right_of_le stands.inside
  · rw [take_grown stands]
    exact stands.leftover

/-- A read hands out the lines between the old and the new offset. -/
theorem Stands.readNew {r : TailReader} {dir : Dir} {f : FileName}
    (stands : r.Stands (dir.read f)) (short : Nat) :
    ∃ r' ls, r.readNew dir f short = (r', ls) ∧ r'.Stands (dir.read f) ∧
      lines NL ((dir.read f).take r'.offset) = lines NL ((dir.read f).take r.offset) ++ ls ∧
      (short = 0 → r'.offset = (dir.read f).length) := by
  generalize data : dir.read f = bytes at stands
  have kept : r.rewind bytes.length = r := if_neg (Nat.not_lt.mpr stands.inside)
  rw [TailReader.readNew, data]
  simp only [kept]
  split
  · rename_i done
    refine ⟨r, [], rfl, stands, by simp, fun _ => ?_⟩
    exact Nat.le_antisymm stands.inside done
  · have joined : bytes.take (r.offset + (bytes.length - r.offset - short)) =
        bytes.take r.offset ++ (bytes.drop r.offset).take (bytes.length - r.offset - short) :=
      List.take_add
    have size : ((bytes.drop r.offset).take (bytes.length - r.offset - short)).length =
        bytes.length - r.offset - short := by
      rw [List.length_take, List.length_drop]
      omega
    have free : NL ∉ r.leftover := by
      rw [← stands.leftover]
      exact sep_not_mem_rest NL _
    have scanned := scan_append NL [] (bytes.take r.offset)
      ((bytes.drop r.offset).take (bytes.length - r.offset - short))
    rw [← joined, show (scan NL [] (bytes.take r.offset)).2 = r.leftover from stands.leftover,
      scan_eq_scan_nil free] at scanned
    refine ⟨_, _, rfl, ⟨?_, ?_⟩, ?_, ?_⟩
    · simp only [size]
      have := stands.inside
      omega
    · simp only [size, rest, scanned]
    · simp only [size, lines, scanned]
    · rintro rfl
      simp only [size]
      have := stands.inside
      omega

/-- A reader beyond the end of a file starts over. -/
theorem readNew_rewound {r : TailReader} {dir : Dir} {f : FileName}
    (beyond : (dir.read f).length < r.offset) (short : Nat) :
    r.readNew dir f short = fromStart.readNew dir f short := by
  have back : r.rewind (dir.read f).length = fromStart := if_pos beyond
  have stay : fromStart.rewind (dir.read f).length = fromStart := if_neg (Nat.not_lt_zero _)
  simp only [readNew, back, stay]

end TailReader

/-! ## Logs of records -/

/-- The reader stands in this log and has handed out the first records. -/
structure Seen (r : TailReader) (log seen : List Rec) : Prop where
  stands : r.Stands (logBytes log)
  lines : lines NL ((logBytes log).take r.offset) = seen.map Rec.line

theorem seen_fromStart (log : List Rec) : Seen TailReader.fromStart log [] :=
  ⟨TailReader.stands_fromStart _, rfl⟩

theorem Seen.grow {r : TailReader} {log log' seen : List Rec} (read : Seen r log seen)
    (grown : log <+: log') : Seen r log' seen := by
  obtain ⟨more, rfl⟩ := grown
  refine ⟨?_, ?_⟩
  · rw [logBytes_append]
    exact read.stands.grow _
  · rw [logBytes_append, TailReader.take_grown read.stands]
    exact read.lines

/-- The lines in front of any offset are the first lines of the log. -/
theorem lines_take_logBytes {log : List Rec} (ok : AllOk log) (n : Nat) :
    lines NL ((logBytes log).take n) <+: log.map Rec.line := by
  have whole : lines NL (logBytes log) = log.map Rec.line := lines_unlines (framed_lines ok)
  have scanned := scan_append NL [] ((logBytes log).take n) ((logBytes log).drop n)
  rw [List.take_append_drop] at scanned
  rw [← whole]
  exact ⟨_, (congrArg Prod.fst scanned).symm⟩

/-- A read hands out the next records of the log, all of them when it is not
cut short. -/
theorem Seen.readNew {r : TailReader} {log seen unseen : List Rec}
    (read : Seen r log seen) (split : log = seen ++ unseen) (ok : AllOk log) {dir : Dir}
    {f : FileName} (bytes : dir.read f = logBytes log) (short : Nat) :
    ∃ new left r', r.readNew dir f short = (r', new.map Rec.line) ∧
      unseen = new ++ left ∧ Seen r' log (seen ++ new) ∧ (short = 0 → left = []) := by
  have stands : r.Stands (dir.read f) := bytes ▸ read.stands
  obtain ⟨r', ls, got, stands', handed, whole⟩ := stands.readNew short
  rw [bytes] at stands' handed whole
  have within := lines_take_logBytes ok r'.offset
  rw [handed, read.lines, split, List.map_append, List.prefix_append_right_inj] at within
  have taken : ls = (unseen.take ls.length).map Rec.line := by
    rw [List.map_take]
    exact List.prefix_iff_eq_take.mp within
  refine ⟨unseen.take ls.length, unseen.drop ls.length, r', ?_,
    (List.take_append_drop _ _).symm, ⟨stands', ?_⟩, ?_⟩
  · rw [got, ← taken]
  · rw [handed, read.lines, List.map_append, ← taken]
  · intro full
    have all := whole full
    have every : Framing.lines NL (logBytes log) = log.map Rec.line :=
      lines_unlines (framed_lines ok)
    rw [all, List.take_length, every, read.lines, split, List.map_append,
      List.append_cancel_left_eq] at handed
    have same := congrArg List.length handed
    rw [List.length_map] at same
    rw [List.drop_eq_nil_iff, same]

/-- Lines of records are folded as the records. -/
theorem readSibling_records {dir : Dir} {f : Inst} {r r' : TailReader} {env : Env}
    {new : List Rec} (ok : AllOk new)
    (got : r.readNew dir (.log f) (env.short f) = (r', new.map Rec.line)) (inst : Inst)
    (v : View) : readSibling env inst dir f v r = (replay env inst v new, r') := by
  rw [Store.readSibling, got]
  dsimp only
  rw [foldl_applyLine, filterMap_parseOp_lines ok]
  rfl

/-- A read of a sibling's log folds its next records, all of them when it is
not cut short. -/
theorem Seen.readSibling {r : TailReader} {log seen unseen : List Rec}
    (read : Seen r log seen) (split : log = seen ++ unseen) (ok : AllOk log) {dir : Dir}
    {f : Inst} (bytes : dir.read (.log f) = logBytes log) (env : Env) (inst : Inst)
    (v : View) :
    ∃ new left r', readSibling env inst dir f v r = (replay env inst v new, r') ∧
      unseen = new ++ left ∧ Seen r' log (seen ++ new) ∧ (env.short f = 0 → left = []) := by
  obtain ⟨new, left, r', got, parts, seen', whole⟩ := read.readNew split ok bytes (env.short f)
  have okNew : AllOk new := fun s hs =>
    ok s (split ▸ List.mem_append_right _ (parts ▸ List.mem_append_left _ hs))
  exact ⟨new, left, r', readSibling_records okNew got inst v, parts, seen', whole⟩

/-- A reader beyond the end of the log starts over. -/
theorem readSibling_rewound {r : TailReader} {dir : Dir} {f : Inst}
    (beyond : (dir.read (.log f)).length < r.offset) (env : Env) (inst : Inst) (v : View) :
    readSibling env inst dir f v r = readSibling env inst dir f v TailReader.fromStart := by
  rw [Store.readSibling, TailReader.readNew_rewound beyond]
  rfl

/-- An empty log yields nothing. -/
theorem readSibling_empty {dir : Dir} {f : Inst} (empty : dir.read (.log f) = []) (env : Env)
    (inst : Inst) (v : View) (r : TailReader) :
    (readSibling env inst dir f v r).1 = v := by
  simp [readSibling, TailReader.readNew, empty]

/-- A store that reads siblings keeps what it has to write. -/
structure OnlyReads (s s' : Inner) : Prop where
  inst : s'.inst = s.inst
  dirty : s'.dirty = s.dirty
  aof : s'.aof = s.aof
  closed : s'.closed = s.closed

theorem onlyReads_pollLocked (env : Env) (s : Inner) (dir : Dir) :
    OnlyReads s (s.pollLocked env dir) :=
  ⟨rfl, rfl, rfl, rfl⟩

theorem onlyReads_tailMissed (env : Env) (s : Inner) (dir : Dir) (code : String) :
    OnlyReads s (s.tailMissed env dir code) := by
  unfold Inner.tailMissed
  split
  · simp only []
    split
    · exact ⟨rfl, rfl, rfl, rfl⟩
    · split
      · exact onlyReads_pollLocked env s dir
      · exact ⟨rfl, rfl, rfl, rfl⟩
  · exact ⟨rfl, rfl, rfl, rfl⟩

/-! ## Opening beside siblings -/

/-- The own files, then the snapshots of the siblings present; a reader at the
start of each of their logs. -/
theorem loadAll_eq (env : Env) (inst : Inst) (dir : Dir) :
    loadAll env inst dir =
      ((shardFiles dir inst).foldl (fun v f => replayInto env inst dir (.snap f) v)
        (replayInto env inst dir (.log inst) (replayInto env inst dir (.snap inst) .empty)),
       (shardFiles dir inst).foldl (fun m f => m.insert f TailReader.fromStart) ∅) := by
  rw [loadAll]
  generalize replayInto env inst dir (.log inst) _ = v
  generalize (∅ : Map Inst TailReader) = m
  induction shardFiles dir inst generalizing v m with
  | nil => rfl
  | cons f fs ih => exact ih _ _

theorem lookup_fromStart {fs : List Inst} {m : Map Inst TailReader} {k : Inst}
    (start : (m.lookup k).getD TailReader.fromStart = TailReader.fromStart) :
    ((fs.foldl (fun m f => m.insert f TailReader.fromStart) m).lookup k).getD
      TailReader.fromStart = TailReader.fromStart := by
  induction fs generalizing m with
  | nil => exact start
  | cons f fs ih =>
      apply ih
      rw [Map.lookup_insert_eq]
      split
      · rfl
      · exact start

def Inner.heard (s : Inner) (k : Inst) : TailReader :=
  (s.readers.lookup k).getD TailReader.fromStart

theorem heard_new (env : Env) (dir : Dir) (inst : Inst) (locked : Bool) (k : Inst) :
    (Inner.new env dir inst locked).1.heard k = TailReader.fromStart := by
  simp only [Inner.new, Inner.heard, loadAll_eq]
  exact lookup_fromStart rfl

/-- When only one sibling can have a snapshot, it is the only one loaded. -/
theorem foldl_replayInto_one (env : Env) (inst : Inst) {dir : Dir} {b : Inst}
    (missing : ∀ k, k ≠ inst → k ≠ b → dir (.snap k) = none) {fs : List Inst}
    (others : ∀ f ∈ fs, f ≠ inst) (distinct : fs.Nodup) (v : View) :
    fs.foldl (fun v f => replayInto env inst dir (.snap f) v) v =
      if b ∈ fs then replayInto env inst dir (.snap b) v else v := by
  induction fs generalizing v with
  | nil => rfl
  | cons f fs ih =>
      obtain ⟨absent, distinct⟩ := List.nodup_cons.mp distinct
      have tail := fun v => ih (fun g hg => others g (List.mem_cons_of_mem _ hg)) distinct v
      rw [List.foldl_cons, tail]
      by_cases same : f = b
      · subst same
        simp [absent]
      · rw [replayInto_missing env inst (missing f (others f List.mem_cons_self) same)]
        simp [Ne.symm same]

end Shrt.Store
