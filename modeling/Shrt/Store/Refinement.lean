import Mathlib.Data.List.Basic
import Shrt.Store.History
import Shrt.Store.Journal

/-!
# A store alone in its directory is a journal

As long as no sibling wrote to the directory, the snapshot, the log and the
queue hold the bytes of three lists of records.  Every call keeps that form,
and what it does to the index, the dirty map and the records together is a
path of journal acts.
-/

namespace Shrt.Store

open Shrt.Codec Shrt.Lib Shrt.Lib.Framing Shrt.Lib.Utf8

/-- The store is open, and these records are in its snapshot, at the end of its
log and in its queue.  The log may hold other bytes in front. -/
structure Holds (w : World) (front : Bytes) (snap log buf : List Rec) : Prop where
  opened : w.store.closed = false
  snapBytes : w.dir.read (.snap w.store.inst) = logBytes snap
  logFile : w.dir.read (.log w.store.inst) = front ++ logBytes log
  queue : w.store.aof = some ⟨logBytes buf⟩

/-- The store is also alone: no sibling has a log. -/
structure Sole (w : World) (front : Bytes) (snap log buf : List Rec) : Prop
    extends Holds w front snap log buf where
  alone : ∀ k, k ≠ w.store.inst → w.dir (.log k) = none
  unread : ∀ k r, w.store.readers.lookup k = some r →
    k ≠ w.store.inst ∧ r = TailReader.fromStart

def World.journal (w : World) (recs : List Rec) : Journal :=
  ⟨w.store.index, w.store.dirty, recs⟩

/-! ## What a writing call leaves alone -/

/-- No sibling's files changed, the own log is still there, and no log was
read. -/
structure Frame (w w' : World) : Prop where
  inst : w'.store.inst = w.store.inst
  readers : w'.store.readers = w.store.readers
  files : ∀ f : FileName, f.owner ≠ w.store.inst → w'.dir f = w.dir f
  present : (w.dir (.log w.store.inst)).isSome → (w'.dir (.log w.store.inst)).isSome

theorem Frame.refl (w : World) : Frame w w :=
  ⟨rfl, rfl, fun _ _ => rfl, id⟩

theorem Frame.of_dir {s s' : Inner} {dir : Dir} (inst : s'.inst = s.inst)
    (readers : s'.readers = s.readers) : Frame ⟨s, dir⟩ ⟨s', dir⟩ :=
  ⟨inst, readers, fun _ _ => rfl, id⟩

theorem Frame.trans {first second third : World} (one : Frame first second)
    (two : Frame second third) : Frame first third := by
  refine ⟨two.inst.trans one.inst, two.readers.trans one.readers, fun f other => ?_, ?_⟩
  · exact (two.files f (one.inst ▸ other)).trans (one.files f other)
  · have later := two.present
    rw [one.inst] at later
    exact later ∘ one.present

theorem Holds.sole {w w' : World} {front front' : Bytes} {snap log buf : List Rec}
    {snap' log' buf' : List Rec} (holds : Holds w' front' snap' log' buf')
    (sole : Sole w front snap log buf) (frame : Frame w w') :
    Sole w' front' snap' log' buf' := by
  refine ⟨holds, fun k other => ?_, ?_⟩
  · rw [frame.inst] at other
    rw [frame.files (.log k) other, sole.alone k other]
  · rw [frame.inst, frame.readers]
    exact sole.unread

theorem frame_flush (s : Inner) (dir : Dir) (a : Aof) (s' : Inner) (inst : s'.inst = s.inst)
    (readers : s'.readers = s.readers) : Frame ⟨s, dir⟩ ⟨s', (a.flush dir s.inst).2⟩ :=
  ⟨inst, readers, fun _ other =>
    Aof.flush_other (fun same => other (congrArg FileName.owner same)) _ _,
    Aof.flush_present _ _ _⟩

theorem frame_logRaw (s : Inner) (dir : Dir) (bytes : Bytes) :
    Frame ⟨s, dir⟩ ⟨(s.logRaw dir bytes).1, (s.logRaw dir bytes).2⟩ := by
  unfold Inner.logRaw
  split
  · exact .refl _
  · simp only []
    split
    · exact frame_flush s dir _ _ rfl rfl
    · exact .of_dir rfl rfl

theorem index_logRaw (s : Inner) (dir : Dir) (bytes : Bytes) :
    (s.logRaw dir bytes).1.index = s.index := by
  unfold Inner.logRaw
  split
  · rfl
  · simp only []
    split
    · rfl
    · rfl

theorem frame_flushLocked (s : Inner) (dir : Dir) (env : Env) :
    Frame ⟨s, dir⟩ ⟨(s.flushLocked env dir).1, (s.flushLocked env dir).2⟩ := by
  unfold Inner.flushLocked
  split
  · exact .refl _
  · exact frame_flush s dir _ _ rfl rfl

/-! ## Queueing and flushing -/

theorem Holds.pushed {s : Inner} {dir : Dir} {front : Bytes}
    {snap log buf : List Rec} (holds : Holds ⟨s, dir⟩ front snap log buf) (rs : List Rec) :
    Holds ⟨{ s with aof := some ⟨logBytes (buf ++ rs)⟩ }, dir⟩ front snap log (buf ++ rs) :=
  ⟨holds.opened, holds.snapBytes, holds.logFile, rfl⟩

theorem Holds.flushed {s : Inner} {dir : Dir} {front : Bytes}
    {snap log buf : List Rec} (holds : Holds ⟨s, dir⟩ front snap log buf) :
    Holds ⟨{ s with aof := some (Aof.flush ⟨logBytes buf⟩ dir s.inst).1 },
      (Aof.flush ⟨logBytes buf⟩ dir s.inst).2⟩ front snap (log ++ buf) [] where
  opened := holds.opened
  snapBytes := by
    rw [← holds.snapBytes, Dir.read, Dir.read]
    exact congrArg (Option.getD · []) (Aof.flush_other (by simp) _ _)
  logFile := by
    rw [logBytes_append, ← List.append_assoc, ← holds.logFile]
    exact Aof.flush_read_log _ _ _
  queue := congrArg some (congrArg Aof.mk (Aof.flush_buf _ _ _))

/-- Queued records end up in the queue or, past the threshold, in the log. -/
theorem Holds.logRaw {s : Inner} {dir : Dir} {front : Bytes}
    {snap log buf : List Rec} (holds : Holds ⟨s, dir⟩ front snap log buf) (rs : List Rec) :
    ∃ s' dir' log' buf', s.logRaw dir (logBytes rs) = (s', dir') ∧
      Holds ⟨s', dir'⟩ front snap log' buf' ∧ log <+: log' ∧ log' ++ buf' = log ++ buf ++ rs ∧
      s'.inst = s.inst ∧ s'.index = s.index ∧ s'.dirty = s.dirty := by
  have queue : s.aof = some ⟨logBytes buf⟩ := holds.queue
  have joined : Aof.pushRaw ⟨logBytes buf⟩ (logBytes rs) = ⟨logBytes (buf ++ rs)⟩ := by
    rw [Aof.pushRaw, logBytes_append]
  simp only [Inner.logRaw, queue, joined]
  split
  · exact ⟨_, _, _, _, rfl, (holds.pushed rs).flushed, List.prefix_append _ _, by simp,
      rfl, rfl, rfl⟩
  · exact ⟨_, _, _, _, rfl, holds.pushed rs, List.prefix_rfl, by simp, rfl, rfl, rfl⟩

theorem Holds.logPush {s : Inner} {dir : Dir} {front : Bytes}
    {snap log buf : List Rec} (holds : Holds ⟨s, dir⟩ front snap log buf) (r : Rec) :
    Holds ⟨s.logPush r.line, dir⟩ front snap log (buf ++ [r]) := by
  have queue : s.aof = some ⟨logBytes buf⟩ := holds.queue
  have same : s.logPush r.line = { s with aof := some ⟨logBytes (buf ++ [r])⟩ } := by
    simp [Inner.logPush, queue, Aof.push, logBytes_append, logBytes_singleton]
  rw [same]
  exact holds.pushed [r]

theorem Sole.logRaw {s : Inner} {dir : Dir} {front : Bytes}
    {snap log buf : List Rec} (sole : Sole ⟨s, dir⟩ front snap log buf) (rs : List Rec) :
    ∃ s' dir' log' buf', s.logRaw dir (logBytes rs) = (s', dir') ∧
      Sole ⟨s', dir'⟩ front snap log' buf' ∧ log' ++ buf' = log ++ buf ++ rs ∧
      s'.inst = s.inst ∧ s'.index = s.index ∧ s'.dirty = s.dirty := by
  obtain ⟨s', dir', log', buf', queued, holds, -, moved, same⟩ := sole.toHolds.logRaw rs
  have frame := frame_logRaw s dir (logBytes rs)
  rw [queued] at frame
  exact ⟨s', dir', log', buf', queued, holds.sole sole frame, moved, same⟩

theorem Sole.logPush {s : Inner} {dir : Dir} {front : Bytes}
    {snap log buf : List Rec} (sole : Sole ⟨s, dir⟩ front snap log buf) (r : Rec) :
    Sole ⟨s.logPush r.line, dir⟩ front snap log (buf ++ [r]) :=
  (sole.toHolds.logPush r).sole sole (.of_dir rfl rfl)

theorem hitLines_eq (env : Env) (s : Inner) :
    s.hitLines env = logBytes (hitRecs s.inst (env.dirtyOrder.iter s.dirty)) := by
  rw [Inner.hitLines]
  suffices ∀ (l : List (String × Int64)) (lines : Bytes),
      l.foldl (fun lines kd => hitLineInto lines kd.1 kd.2 s.inst.i64 ++ [NL]) lines =
        lines ++ logBytes (hitRecs s.inst l) by
    simpa using this (env.dirtyOrder.iter s.dirty) []
  intro l
  induction l with
  | nil => simp [hitRecs]
  | cons kd l ih =>
      intro lines
      have joined : hitRecs s.inst (kd :: l) =
          .hit kd.1 kd.2 s.inst.i64 :: hitRecs s.inst l := rfl
      rw [List.foldl_cons, ih, hitLineInto_eq, joined, logBytes_cons]
      simp [Rec.line]

theorem flushLocked_eq (env : Env) {s : Inner} {buf : Bytes} (queue : s.aof = some ⟨buf⟩)
    (dir : Dir) :
    s.flushLocked env dir = ({ s with dirty := ∅, aof := some ⟨[]⟩ },
      (Aof.flush ⟨buf ++ s.hitLines env⟩ dir s.inst).2) := by
  have empty : (Aof.flush ⟨buf ++ s.hitLines env⟩ dir s.inst).1 = ⟨[]⟩ :=
    congrArg Aof.mk (Aof.flush_buf _ _ _)
  simp only [Inner.flushLocked, queue, Aof.pushRaw, empty]

/-- A flush moves the queue and the drained counts to the log. -/
theorem Holds.flushLocked {s : Inner} {dir : Dir} {front : Bytes}
    {snap log buf : List Rec} (holds : Holds ⟨s, dir⟩ front snap log buf) (env : Env) :
    ∃ dir', s.flushLocked env dir = ({ s with dirty := ∅, aof := some ⟨[]⟩ }, dir') ∧
      Holds ⟨{ s with dirty := ∅, aof := some ⟨[]⟩ }, dir'⟩ front snap
        (log ++ buf ++ hitRecs s.inst (env.dirtyOrder.iter s.dirty)) [] := by
  have moved := (holds.pushed (hitRecs s.inst (env.dirtyOrder.iter s.dirty))).flushed
  rw [logBytes_append, ← hitLines_eq, ← List.append_assoc] at moved
  exact ⟨_, flushLocked_eq env holds.queue dir, moved.opened, moved.snapBytes, moved.logFile, rfl⟩

theorem Sole.flushLocked {s : Inner} {dir : Dir} {front : Bytes}
    {snap log buf : List Rec} (sole : Sole ⟨s, dir⟩ front snap log buf) (env : Env) :
    ∃ dir', s.flushLocked env dir = ({ s with dirty := ∅, aof := some ⟨[]⟩ }, dir') ∧
      Sole ⟨{ s with dirty := ∅, aof := some ⟨[]⟩ }, dir'⟩ front snap
        (log ++ buf ++ hitRecs s.inst (env.dirtyOrder.iter s.dirty)) [] := by
  obtain ⟨dir', flushed, holds⟩ := sole.toHolds.flushLocked env
  have frame := frame_flushLocked s dir env
  rw [flushed] at frame
  exact ⟨dir', flushed, holds.sole sole frame⟩

/-! ## Reading siblings that are not there -/

theorem readNew_missing {dir : Dir} {k : Inst} (missing : dir (.log k) = none) (short : Nat) :
    TailReader.fromStart.readNew dir (.log k) short = (TailReader.fromStart, []) := by
  simp [TailReader.readNew, TailReader.rewind, TailReader.fromStart, Dir.read, missing]

theorem readSibling_missing (env : Env) (inst : Inst) {dir : Dir} {k : Inst}
    (missing : dir (.log k) = none) (v : View) :
    readSibling env inst dir k v TailReader.fromStart = (v, TailReader.fromStart) := by
  simp [readSibling, readNew_missing missing]

/-- Readers of absent logs other than the own one. -/
def Unread (inst : Inst) (readers : Map Inst TailReader) : Prop :=
  ∀ k r, readers.lookup k = some r → k ≠ inst ∧ r = TailReader.fromStart

theorem Unread.insert {inst : Inst} {readers : Map Inst TailReader}
    (unread : Unread inst readers) {k : Inst} (other : k ≠ inst) :
    Unread inst (readers.insert k TailReader.fromStart) := by
  intro k' r found
  rw [Map.lookup_insert_eq] at found
  split at found
  · rename_i same
    subst same
    cases found
    exact ⟨other, rfl⟩
  · exact unread k' r found

theorem pull_missing (env : Env) (inst : Inst) {dir : Dir}
    (alone : ∀ k, k ≠ inst → dir (.log k) = none) {l : List (Inst × TailReader)}
    (pending : ∀ fr ∈ l, fr.1 ≠ inst ∧ fr.2 = TailReader.fromStart) (v : View)
    {readers : Map Inst TailReader} (unread : Unread inst readers) :
    ∃ readers', Unread inst readers' ∧
      l.foldl (fun (acc : View × Map Inst TailReader) fr =>
        let got := readSibling env inst dir fr.1 acc.1 fr.2
        (got.1, acc.2.insert fr.1 got.2)) (v, readers) = (v, readers') := by
  induction l generalizing readers with
  | nil => exact ⟨readers, unread, rfl⟩
  | cons fr l ih =>
      obtain ⟨other, start⟩ := pending fr List.mem_cons_self
      have read := readSibling_missing env inst (alone fr.1 other) v
      rw [← start] at read
      have kept : Unread inst (readers.insert fr.1 fr.2) := by
        rw [start]
        exact unread.insert other
      obtain ⟨readers', unread', pulled⟩ :=
        ih (fun x hx => pending x (List.mem_cons_of_mem _ hx)) kept
      refine ⟨readers', unread', ?_⟩
      rw [List.foldl_cons]
      simp only [read]
      exact pulled

/-- A poll of an empty directory only moves the clock. -/
theorem Sole.pollLocked {s : Inner} {dir : Dir} {front : Bytes}
    {snap log buf : List Rec} (sole : Sole ⟨s, dir⟩ front snap log buf) (env : Env) :
    ∃ readers', Unread s.inst readers' ∧
      s.pollLocked env dir = { s with readers := readers', lastPoll := env.clock 2 } := by
  have none_present : shardFiles dir s.inst = [] := by
    rw [List.eq_nil_iff_forall_not_mem]
    intro k member
    obtain ⟨other, present⟩ := mem_shardFiles.mp member
    have missing : dir (.log k) = none := sole.alone k other
    simp [missing] at present
  obtain ⟨readers', unread', pulled⟩ := pull_missing env s.inst sole.alone
    (l := env.readerOrder.iter s.readers)
    (fun fr member => sole.unread fr.1 fr.2 (env.readerOrder.mem_iter_iff.mp member))
    s.view sole.unread
  refine ⟨readers', unread', ?_⟩
  rw [Inner.pollLocked, none_present]
  simp only [List.foldl_nil, pulled]
  rfl

/-- A miss finds nothing more in an empty directory. -/
theorem Sole.tailMissed {s : Inner} {dir : Dir} {front : Bytes}
    {snap log buf : List Rec} (sole : Sole ⟨s, dir⟩ front snap log buf) (env : Env) (code : String) :
    ∃ readers' lastPoll', Unread s.inst readers' ∧
      s.tailMissed env dir code = { s with readers := readers', lastPoll := lastPoll' } := by
  cases bytes : encode code with
  | nil =>
      rw [Inner.tailMissed, bytes]
      exact ⟨s.readers, s.lastPoll, sole.unread, rfl⟩
  | cons first rest =>
      have queue : s.aof = some ⟨logBytes buf⟩ := sole.queue
      rw [Inner.tailMissed, bytes, queue]
      cases picked : (alphaIdx first).filter (· ≠ s.inst) with
      | some owner =>
          have other : owner ≠ s.inst := by
            have := Option.filter_eq_some_iff.mp picked
            simpa using this.2
          have missing : dir (.log owner) = none := sole.alone owner other
          have start : (s.readers.lookup owner).getD TailReader.fromStart =
              TailReader.fromStart := by
            cases found : s.readers.lookup owner with
            | none => rfl
            | some r => exact (sole.unread owner r found).2
          simp only [picked, start, readSibling_missing env s.inst missing]
          exact ⟨_, _, Unread.insert sole.unread other, rfl⟩
      | none =>
          simp only [picked]
          split
          · obtain ⟨readers', unread', polled⟩ := sole.pollLocked env
            rw [← queue]
            exact ⟨readers', _, unread', polled⟩
          · rw [← queue]
            exact ⟨s.readers, s.lastPoll, sole.unread, rfl⟩

/-! ## Hits left over from earlier links -/

/-- The operations the store has written, in its snapshot, log and queue. -/
def World.storedOps (w : World) : List Op :=
  readOps (w.dir.read (.snap w.store.inst)) ++ readOps (w.dir.read (.log w.store.inst)) ++
    readOps ((w.store.aof.map Aof.buf).getD [])

/-- No hit of an earlier link waits for the code, logged or not. -/
def World.NoLeftover (w : World) (c : String) : Prop :=
  w.store.dirty.lookup c = none ∧ ¬ EndsInHit c w.storedOps

def World.created (w : World) : Env × Call → List String
  | (_, .shorten _ (some a) _) => if a.val ∈ w.store.index then [] else [a.val]
  | (env, .shorten _ none _) =>
      ((Inner.freshCode w.store.inst w.store.index env.rng).map Prod.fst).toList
  | (env, .shortenMany urls ttl) =>
      ((w.store.shortenMany env w.dir urls ttl).map Prod.fst).getD []
  | _ => []

def Call.updated : Call → Option String
  | .update code _ _ _ => some code
  | _ => none

/-- The call leaves logged hit counts alone: links are created only under
codes with no hit left over, and a link is updated only while all its hits are
still in the dirty map. -/
def World.KeepsHits (w : World) (call : Env × Call) : Prop :=
  (∀ c ∈ w.created call, w.NoLeftover c) ∧
  ∀ c ∈ call.2.updated, ∀ ent ∈ w.store.index.lookup c,
    ent.h = (w.store.dirty.lookup c).getD 0

instance (w : World) (c : String) : Decidable (w.NoLeftover c) :=
  inferInstanceAs (Decidable (_ ∧ ¬ EndsInHit c w.storedOps))

instance (w : World) (call : Env × Call) : Decidable (w.KeepsHits call) :=
  inferInstanceAs (Decidable ((∀ c ∈ w.created call, w.NoLeftover c) ∧
    ∀ c ∈ call.2.updated, ∀ ent ∈ w.store.index.lookup c,
      ent.h = (w.store.dirty.lookup c).getD 0))

theorem Holds.storedOps {w : World} {snap log buf : List Rec} (holds : Holds w [] snap log buf)
    (ok : AllOk (snap ++ log ++ buf)) :
    w.storedOps = (snap ++ log ++ buf).map Rec.op := by
  have okSnap : AllOk snap := fun r hr =>
    ok r (List.mem_append_left _ (List.mem_append_left _ hr))
  have okLog : AllOk log := fun r hr =>
    ok r (List.mem_append_left _ (List.mem_append_right _ hr))
  have okBuf : AllOk buf := fun r hr => ok r (List.mem_append_right _ hr)
  rw [World.storedOps, holds.snapBytes, holds.logFile, holds.queue, readOps_logBytes okSnap,
    List.nil_append, readOps_logBytes okLog]
  simp [readOps_logBytes okBuf]

/-! ## One call -/

/-- The call only added the records `rs` to log and queue, touched nothing else,
and moves of `R` lead from the old journal to the new one.  The records `old`
are those that the added ones follow. -/
def ExtendsBy (R : Journal → Journal → Prop) (front : Bytes) (snap old log buf : List Rec)
    (w w' : World) : Prop :=
  ∃ log' buf' rs, Holds w' front snap log' buf' ∧ Frame w w' ∧ log <+: log' ∧
    log' ++ buf' = log ++ buf ++ rs ∧
    Relation.ReflTransGen R (w.journal (old ++ log ++ buf)) (w'.journal (old ++ log' ++ buf'))

/-- The call only added the records `rs` to log and queue, touched nothing else,
and journal acts lead from the old journal to the new one. -/
def Extends (safe : Prop) (front : Bytes) (snap old log buf : List Rec) (w w' : World) :
    Prop :=
  ∃ log' buf' rs, Holds w' front snap log' buf' ∧ Frame w w' ∧ log <+: log' ∧
    log' ++ buf' = log ++ buf ++ rs ∧
    Journal.Path w.store.inst safe (w.journal (old ++ log ++ buf))
      (w'.journal (old ++ log' ++ buf'))

theorem ExtendsBy.mono {R R' : Journal → Journal → Prop} {front : Bytes}
    {snap old log buf : List Rec} {w w' : World}
    (extended : ExtendsBy R front snap old log buf w w')
    (sub : ∀ j j', R j j' → R' j j') : ExtendsBy R' front snap old log buf w w' := by
  obtain ⟨log', buf', rs, holds', frame, grown, moved, path⟩ := extended
  exact ⟨log', buf', rs, holds', frame, grown, moved, Relation.ReflTransGen.mono sub _ _ path⟩

theorem ExtendsBy.of_same {R : Journal → Journal → Prop} {front : Bytes} {w w' : World}
    {snap log buf : List Rec} (old : List Rec) (holds : Holds w' front snap log buf)
    (frame : Frame w w') (index : w'.store.index = w.store.index)
    (dirty : w'.store.dirty = w.store.dirty) : ExtendsBy R front snap old log buf w w' := by
  refine ⟨log, buf, [], holds, frame, List.prefix_rfl, by simp, ?_⟩
  rw [World.journal, World.journal, index, dirty]

theorem Holds.create {R : Journal → Journal → Prop} {s : Inner} {dir : Dir} {front : Bytes}
    {snap old log buf : List Rec} (holds : Holds ⟨s, dir⟩ front snap log buf) {c : String}
    (url : String) (now exp : Int64)
    (admits : R (World.journal ⟨s, dir⟩ (old ++ log ++ buf))
      ⟨s.index.insert c ⟨url, now, exp, s.inst.i32, 0, 0⟩, s.dirty,
        old ++ log ++ buf ++ [.row c url now exp s.inst.i64 0]⟩) :
    ExtendsBy R front snap old log buf ⟨s, dir⟩
      ⟨(s.create dir c url now exp).1, (s.create dir c url now exp).2⟩ := by
  have inserted : Holds ⟨{ s with index := s.index.insert c (s.newEntry url now exp) }, dir⟩
      front snap log buf :=
    ⟨holds.opened, holds.snapBytes, holds.logFile, holds.queue⟩
  obtain ⟨s', dir', log', buf', created, holds', grown, moved, inst, index, dirty⟩ :=
    inserted.logRaw [.row c url now exp s.inst.i64 0]
  have frame : Frame ⟨s, dir⟩ ⟨s', dir'⟩ := by
    have queued := frame_logRaw { s with index := s.index.insert c (s.newEntry url now exp) } dir
      (logBytes [.row c url now exp s.inst.i64 0])
    rw [created] at queued
    exact ⟨queued.inst, queued.readers, queued.files, queued.present⟩
  rw [logBytes_singleton] at created
  have result : s.create dir c url now exp = (s', dir') := created
  rw [result]
  have arrived : World.journal ⟨s', dir'⟩ (old ++ log' ++ buf') =
      ⟨s.index.insert c ⟨url, now, exp, s.inst.i32, 0, 0⟩, s.dirty,
        old ++ log ++ buf ++ [.row c url now exp s.inst.i64 0]⟩ := by
    rw [World.journal, List.append_assoc, moved, index, dirty]
    simp [Inner.newEntry]
  refine ⟨log', buf', _, holds', frame, grown, moved, ?_⟩
  rw [arrived]
  exact .single admits

theorem freshCode_spec {inst : Inst} {index : Index} {rng rest : List Suffix} {c : String}
    (drawn : Inner.freshCode inst index rng = some (c, rest)) :
    c ∉ index ∧ ∃ buf ∈ rng, c = genCode inst buf := by
  induction rng with
  | nil => cases drawn
  | cons buf rng ih =>
      rw [Inner.freshCode] at drawn
      split at drawn
      · obtain ⟨free, b, member, rfl⟩ := ih drawn
        exact ⟨free, b, List.mem_cons_of_mem _ member, rfl⟩
      · rename_i free
        cases drawn
        exact ⟨free, buf, List.mem_cons_self, rfl⟩

/-- A row settles its code and leaves the other codes as they were. -/
theorem not_endsInHit_row {c k : String} {u : String} {a e i n : Int64} {rs : List Rec}
    (plain : Plain k) (settled : ¬ EndsInHit k (rs.map Rec.op)) :
    ¬ EndsInHit k ((rs ++ [Rec.row c u a e i n]).map Rec.op) := by
  rw [EndsInHit, List.map_append, List.map_singleton, lastAbout_snoc]
  split
  · rintro ⟨o, isRow, same⟩
    cases isRow
    exact plain.nonempty same.symm
  · exact settled

/-- The loop of `shorten_many` only adds to the codes it returns. -/
theorem bulk_codes {inst : Inst} {now exp : Int64} {entry : String → Entry}
    {items : List (String × Suffix)} {retries : List Suffix} {index index' : Index}
    {rows rows' : Bytes} {codes codes' : List String}
    (done : Inner.bulk inst now exp entry items retries index rows codes =
      some (index', rows', codes')) : ∀ c ∈ codes, c ∈ codes' := by
  induction items generalizing retries index rows codes with
  | nil =>
      cases done
      exact fun c hc => hc
  | cons item items ih =>
      obtain ⟨url, buf⟩ := item
      rw [Inner.bulk, Option.bind_eq_some_iff] at done
      obtain ⟨fresh, -, done⟩ := done
      exact fun c hc => ih done c (List.mem_append_left _ hc)

def AllRows (rs : List Rec) : Prop :=
  ∀ r ∈ rs, ∃ c u a e i n, r = Rec.row c u a e i n

theorem not_endsInHit_rows {k : String} (plain : Plain k) {recs rs : List Rec}
    (settled : ¬ EndsInHit k (recs.map Rec.op)) (rows : AllRows rs) :
    ¬ EndsInHit k ((recs ++ rs).map Rec.op) := by
  induction rs using List.reverseRecOn with
  | nil => rwa [List.append_nil]
  | append_singleton rs r ih =>
      obtain ⟨c, u, a, e, i, n, rfl⟩ := rows r (by simp)
      rw [← List.append_assoc]
      exact not_endsInHit_row plain (ih fun r hr => rows r (List.mem_append_left _ hr))

/-- The loop of `shorten_many` creates its codes one after another. -/
theorem bulk_by {R : Journal → Journal → Prop} {inst : Inst} {now exp : Int64} {dirty : Dirty}
    {recs : List Rec} {items : List (String × Suffix)} {retries : List Suffix}
    {index index' : Index} {rows rows' : Bytes} {codes codes' : List String}
    (done : Inner.bulk inst now exp (fun url => ⟨url, now, exp, inst.i32, 0, 0⟩)
      items retries index rows codes = some (index', rows', codes'))
    (admits : ∀ (b : Suffix) (url : String) (index : Index) (rs : List Rec),
      genCode inst b ∈ codes' → index.lookup (genCode inst b) = none → AllRows rs →
      R ⟨index, dirty, recs ++ rs⟩
        ⟨index.insert (genCode inst b) ⟨url, now, exp, inst.i32, 0, 0⟩, dirty,
          recs ++ rs ++ [.row (genCode inst b) url now exp inst.i64 0]⟩) :
    ∃ rs, rows' = rows ++ logBytes rs ∧
      Relation.ReflTransGen R ⟨index, dirty, recs⟩ ⟨index', dirty, recs ++ rs⟩ := by
  induction items generalizing retries index rows codes recs with
  | nil =>
      cases done
      exact ⟨[], by simp, by simpa using Relation.ReflTransGen.refl⟩
  | cons item items ih =>
      obtain ⟨url, buf⟩ := item
      rw [Inner.bulk, Option.bind_eq_some_iff] at done
      obtain ⟨⟨c, rest⟩, drawn, done⟩ := done
      obtain ⟨free, b, -, rfl⟩ := freshCode_spec drawn
      have returned : genCode inst b ∈ codes' := bulk_codes done _ (by simp)
      have first := admits b url index [] returned (Map.not_mem_iff_lookup.mp free)
        (fun r member => by cases member)
      rw [List.append_nil] at first
      have admits' : ∀ (b' : Suffix) (url' : String) (index : Index) (rs : List Rec),
          genCode inst b' ∈ codes' → index.lookup (genCode inst b') = none → AllRows rs →
          R ⟨index, dirty, recs ++ [.row (genCode inst b) url now exp inst.i64 0] ++ rs⟩
            ⟨index.insert (genCode inst b') ⟨url', now, exp, inst.i32, 0, 0⟩, dirty,
              recs ++ [.row (genCode inst b) url now exp inst.i64 0] ++ rs ++
                [.row (genCode inst b') url' now exp inst.i64 0]⟩ := by
        intro b' url' index rs listed fresh rows
        rw [List.append_assoc recs, List.singleton_append]
        refine admits b' url' index (.row (genCode inst b) url now exp inst.i64 0 :: rs) listed
          fresh fun r member => ?_
        rcases List.mem_cons.mp member with rfl | member
        · exact ⟨_, _, _, _, _, _, rfl⟩
        · exact rows r member
      obtain ⟨rs, joined, path⟩ := ih done admits'
      refine ⟨.row (genCode inst b) url now exp inst.i64 0 :: rs, ?_, ?_⟩
      · rw [joined, rowLineInto_eq, logBytes_cons]
        simp [Rec.line]
      · rw [show recs ++ Rec.row (genCode inst b) url now exp inst.i64 0 :: rs =
          recs ++ [Rec.row (genCode inst b) url now exp inst.i64 0] ++ rs by simp]
        exact .head first path

section Calls

variable {w : World} {front : Bytes} {snap old log buf : List Rec} {safe : Prop}
  {R : Journal → Journal → Prop}

/-- A call that creates at most one link, generated or under an alias. -/
theorem Holds.shortenBy (holds : Holds w front snap log buf) (env : Env) (url : String)
    (aliasCode : Option Alias) (ttl : Int64)
    (admits : ∀ c now exp, c ∈ w.created (env, .shorten url aliasCode ttl) → Plain c →
      w.store.index.lookup c = none →
      R (w.journal (old ++ log ++ buf))
        ⟨w.store.index.insert c ⟨url, now, exp, w.store.inst.i32, 0, 0⟩, w.store.dirty,
          old ++ log ++ buf ++ [.row c url now exp w.store.inst.i64 0]⟩) :
    ExtendsBy R front snap old log buf w (w.step (env, .shorten url aliasCode ttl)) := by
  have stay : ExtendsBy R front snap old log buf w w := .of_same old holds (.refl w) rfl rfl
  cases aliasCode with
  | some a =>
      by_cases taken : a.val ∈ w.store.index
      · simpa only [World.step, Inner.shorten, Option.map_some, if_pos taken] using stay
      · simp only [World.step, Inner.shorten, Option.map_some, if_neg taken]
        exact holds.create _ _ _ (admits a.val _ _ (by simp [World.created, taken])
          (Plain.of_codeOk a.property) (Map.not_mem_iff_lookup.mp taken))
  | none =>
      cases drawn : Inner.freshCode w.store.inst w.store.index env.rng with
      | none =>
          simpa only [World.step, Inner.shorten, Option.map_none, drawn] using stay
      | some fresh =>
          obtain ⟨c, rest⟩ := fresh
          obtain ⟨free, b, -, rfl⟩ := freshCode_spec drawn
          simp only [World.step, Inner.shorten, Option.map_none, drawn, Option.map_some]
          exact holds.create _ _ _ (admits _ _ _ (by simp [World.created, drawn])
            (plain_genCode _ b) (Map.not_mem_iff_lookup.mp free))

theorem Holds.shorten (holds : Holds w front snap log buf) (env : Env) (url : String)
    (aliasCode : Option Alias) (ttl : Int64)
    (keeps : safe → w.KeepsHits (env, .shorten url aliasCode ttl) ∧
      w.storedOps = (old ++ log ++ buf).map Rec.op) :
    Extends safe front snap old log buf w (w.step (env, .shorten url aliasCode ttl)) := by
  refine holds.shortenBy env url aliasCode ttl fun c now exp member plain fresh => ?_
  refine ⟨_, .create plain fresh url now exp, fun careful => ?_⟩
  obtain ⟨keeps, stored⟩ := keeps careful
  rw [Journal.KeepsHits, World.journal, ← stored]
  exact keeps.1 c member

theorem Holds.shortenManyBy (holds : Holds w front snap log buf) (env : Env)
    (urls : List String) (ttl : Int64)
    (admits : ∀ (b : Suffix) (url : String) (now exp : Int64) (index : Index) (rs : List Rec),
      genCode w.store.inst b ∈ w.created (env, .shortenMany urls ttl) →
      index.lookup (genCode w.store.inst b) = none → AllRows rs →
      R ⟨index, w.store.dirty, old ++ log ++ buf ++ rs⟩
        ⟨index.insert (genCode w.store.inst b) ⟨url, now, exp, w.store.inst.i32, 0, 0⟩,
          w.store.dirty, old ++ log ++ buf ++ rs ++
            [.row (genCode w.store.inst b) url now exp w.store.inst.i64 0]⟩) :
    ExtendsBy R front snap old log buf w (w.step (env, .shortenMany urls ttl)) := by
  cases result : w.store.shortenMany env w.dir urls ttl with
  | none =>
      simp only [World.step, result]
      exact .of_same old holds (.refl w) rfl rfl
  | some outcome =>
      have called := result
      simp only [World.step, result]
      simp only [Inner.shortenMany] at called
      split at called
      · cases called
      · obtain ⟨⟨index, rows, codes⟩, done, rfl⟩ := Option.map_eq_some_iff.mp called
        have created : w.created (env, .shortenMany urls ttl) = codes := by
          simp [World.created, result]
        rw [created] at admits
        obtain ⟨rs, joined, path⟩ := bulk_by done
          fun b url index rs => admits b url (env.clock 0) _ index rs
        have indexed : Holds ⟨{ w.store with index := index }, w.dir⟩ front snap log buf :=
          ⟨holds.opened, holds.snapBytes, holds.logFile, holds.queue⟩
        obtain ⟨s', dir', log', buf', queued, holds', grown, moved, inst, index', dirty'⟩ :=
          indexed.logRaw rs
        have frame : Frame w ⟨s', dir'⟩ := by
          have pushed := frame_logRaw { w.store with index := index } w.dir (logBytes rs)
          rw [queued] at pushed
          exact ⟨pushed.inst, pushed.readers, pushed.files, pushed.present⟩
        rw [List.nil_append] at joined
        rw [joined, queued]
        refine ⟨log', buf', rs, holds', frame, grown, moved, ?_⟩
        have arrived : World.journal ⟨s', dir'⟩ (old ++ log' ++ buf') =
            ⟨index, w.store.dirty, old ++ log ++ buf ++ rs⟩ := by
          rw [World.journal, List.append_assoc, moved, index', dirty']
          simp
        rw [arrived]
        exact path

theorem Holds.shortenMany (holds : Holds w front snap log buf) (env : Env)
    (urls : List String) (ttl : Int64)
    (keeps : safe → w.KeepsHits (env, .shortenMany urls ttl) ∧
      w.storedOps = (old ++ log ++ buf).map Rec.op) :
    Extends safe front snap old log buf w (w.step (env, .shortenMany urls ttl)) := by
  refine holds.shortenManyBy env urls ttl fun b url now exp index rs member fresh rows => ?_
  have plain := plain_genCode w.store.inst b
  refine ⟨_, .create plain fresh url now exp, fun careful => ?_⟩
  obtain ⟨keeps, stored⟩ := keeps careful
  obtain ⟨unlogged, settled⟩ := keeps.1 _ member
  rw [stored] at settled
  exact ⟨unlogged, not_endsInHit_rows plain settled rows⟩

theorem Holds.updateBy (holds : Holds w front snap log buf) (env : Env) (code url : String)
    (ttl : Int64) (hasTtl : Bool)
    (admits : ∀ ent exp, w.store.index.lookup code = some ent → ent.i = w.store.inst.i32 →
      R (w.journal (old ++ log ++ buf))
        ⟨w.store.index.insert code { ent with u := url, e := exp }, w.store.dirty,
          old ++ log ++ buf ++ [.row code url ent.a exp w.store.inst.i64 0]⟩) :
    ExtendsBy R front snap old log buf w (w.step (env, .update code url ttl hasTtl)) := by
  have stay : ExtendsBy R front snap old log buf w w := .of_same old holds (.refl w) rfl rfl
  cases found : w.store.index.lookup code with
  | none => simpa only [World.step, Inner.update, found] using stay
  | some ent =>
      by_cases remote : ent.i ≠ w.store.inst.i32
      · simpa only [World.step, Inner.update, found, if_pos remote] using stay
      · simp only [World.step, Inner.update, found, if_neg remote]
        generalize (if hasTtl = true then Inner.expiry (env.clock 0) ttl else ent.e) = exp
        have indexed : Holds
            ⟨{ w.store with index := w.store.index.insert code { ent with u := url, e := exp } },
              w.dir⟩ front snap log buf :=
          ⟨holds.opened, holds.snapBytes, holds.logFile, holds.queue⟩
        refine ⟨log, _, _, indexed.logPush (.row code url ent.a exp w.store.inst.i64 0),
          .of_dir rfl rfl, List.prefix_rfl, (List.append_assoc _ _ _).symm, ?_⟩
        rw [← List.append_assoc]
        exact .single (admits ent exp found (not_not.mp remote))

theorem Holds.update (holds : Holds w front snap log buf) (env : Env) (code url : String)
    (ttl : Int64) (hasTtl : Bool)
    (keeps : safe → w.KeepsHits (env, .update code url ttl hasTtl)) :
    Extends safe front snap old log buf w (w.step (env, .update code url ttl hasTtl)) :=
  holds.updateBy env code url ttl hasTtl fun _ exp found _ =>
    ⟨_, .amend found url exp, fun careful => (keeps careful).2 code rfl⟩

theorem Holds.removeBy (holds : Holds w front snap log buf) (env : Env) (code : String)
    (admits : ∀ ent, w.store.index.lookup code = some ent → ent.i = w.store.inst.i32 →
      R (w.journal (old ++ log ++ buf))
        ⟨w.store.index.erase code, w.store.dirty, old ++ log ++ buf ++ [.del code]⟩) :
    ExtendsBy R front snap old log buf w (w.step (env, .remove code)) := by
  have stay : ExtendsBy R front snap old log buf w w := .of_same old holds (.refl w) rfl rfl
  cases found : w.store.index.lookup code with
  | none => simpa only [World.step, Inner.remove, found] using stay
  | some ent =>
      by_cases remote : ent.i ≠ w.store.inst.i32
      · simpa only [World.step, Inner.remove, found, if_pos remote] using stay
      · simp only [World.step, Inner.remove, found, if_neg remote]
        have erased : Holds ⟨{ w.store with index := w.store.index.erase code }, w.dir⟩
            front snap log buf :=
          ⟨holds.opened, holds.snapBytes, holds.logFile, holds.queue⟩
        refine ⟨log, _, _, erased.logPush (.del code), .of_dir rfl rfl, List.prefix_rfl,
          (List.append_assoc _ _ _).symm, ?_⟩
        rw [← List.append_assoc]
        exact .single (admits ent found (not_not.mp remote))

theorem Holds.remove (holds : Holds w front snap log buf) (env : Env) (code : String) :
    Extends safe front snap old log buf w (w.step (env, .remove code)) :=
  holds.removeBy env code fun _ found _ => ⟨_, .drop found, fun _ => trivial⟩

theorem Holds.bumpBy (holds : Holds w front snap log buf) (env : Env) {code : String}
    {ent : Entry} (admits : env.trackHits = true →
      R (w.journal (old ++ log ++ buf))
        ⟨w.store.index.insert code { ent with h := ent.h + 1, oh := ent.oh + 1 },
          w.store.dirty.insert code ((w.store.dirty.lookup code).getD 0 + 1),
          old ++ log ++ buf⟩) :
    ExtendsBy R front snap old log buf w ⟨w.store.bump env code ent, w.dir⟩ := by
  by_cases counted : env.trackHits = true
  · rw [Inner.bump, if_pos counted]
    have bumped : Holds
        ⟨{ w.store with
            index := w.store.index.insert code { ent with h := ent.h + 1, oh := ent.oh + 1 }
            dirty := w.store.dirty.insert code ((w.store.dirty.lookup code).getD 0 + 1) },
          w.dir⟩ front snap log buf :=
      ⟨holds.opened, holds.snapBytes, holds.logFile, holds.queue⟩
    exact ⟨log, buf, [], bumped, .of_dir rfl rfl, List.prefix_rfl, by simp,
      .single (admits counted)⟩
  · rw [Inner.bump, if_neg counted]
    exact .of_same old holds (.refl w) rfl rfl

theorem Holds.bump (holds : Holds w front snap log buf) (env : Env) {code : String}
    {ent : Entry} (found : w.store.index.lookup code = some ent) :
    Extends safe front snap old log buf w ⟨w.store.bump env code ent, w.dir⟩ :=
  holds.bumpBy env fun _ => ⟨_, .hit found, fun _ => trivial⟩

theorem Holds.flushBy (holds : Holds w front snap log buf) (env : Env)
    (admits : R (w.journal (old ++ log ++ buf))
      ⟨w.store.index, ∅,
        old ++ log ++ buf ++ hitRecs w.store.inst (env.dirtyOrder.iter w.store.dirty)⟩) :
    ExtendsBy R front snap old log buf w (w.step (env, .flush)) := by
  obtain ⟨dir', flushed, holds'⟩ := holds.flushLocked env
  have frame := frame_flushLocked w.store w.dir env
  rw [flushed] at frame
  simp only [World.step, flushed]
  refine ⟨_, _, _, holds', frame, ⟨_, (List.append_assoc _ _ _).symm⟩, List.append_nil _, ?_⟩
  rw [List.append_nil, ← List.append_assoc, ← List.append_assoc]
  exact .single admits

theorem Holds.flush (holds : Holds w front snap log buf) (env : Env) :
    Extends safe front snap old log buf w (w.step (env, .flush)) :=
  holds.flushBy env ⟨_, .drain env.dirtyOrder, fun _ => trivial⟩

/-- A flush is a drain. -/
theorem drain_path (w : World) (old log buf : List Rec) (env : Env) (safe : Prop) :
    Journal.Path w.store.inst safe (w.journal (old ++ log ++ buf))
      ⟨w.store.index, ∅,
        old ++ (log ++ buf ++ hitRecs w.store.inst (env.dirtyOrder.iter w.store.dirty)) ++ []⟩ := by
  have step : Journal.Step w.store.inst (w.journal (old ++ log ++ buf))
      (.drain env.dirtyOrder) _ := .drain env.dirtyOrder
  rw [List.append_nil, ← List.append_assoc, ← List.append_assoc]
  exact .single step fun _ => trivial

end Calls

/-! ## Compacting -/

/-- Writing a snapshot, renaming it into place and truncating the log. -/
theorem Holds.snapshot {s : Inner} {dir : Dir} {front : Bytes} {snap log : List Rec}
    (holds : Holds ⟨s, dir⟩ front snap log []) (rows : List Rec) :
    Holds ⟨s, ((dir.write (.snapTmp s.inst) (logBytes rows)).rename (.snapTmp s.inst)
      (.snap s.inst)).write (.log s.inst) []⟩ [] rows [] [] where
  opened := holds.opened
  snapBytes := by
    rw [Dir.read_write_other (by simp), Dir.read, Dir.rename_target (by simp)]
    exact Dir.read_write_same _ _ _
  logFile := Dir.read_write_same _ _ _
  queue := holds.queue

theorem frame_snapshot (s : Inner) (dir : Dir) (rows : Bytes) :
    Frame ⟨s, dir⟩ ⟨s, ((dir.write (.snapTmp s.inst) rows).rename (.snapTmp s.inst)
      (.snap s.inst)).write (.log s.inst) []⟩ := by
  refine ⟨rfl, rfl, fun f other => ?_, fun _ => by simp [Dir.write]⟩
  have apart : ∀ g : FileName, g.owner = s.inst → f ≠ g := fun g own same => other (same ▸ own)
  change Dir.write _ (.log s.inst) [] f = dir f
  rw [Dir.write_other (apart _ rfl), Dir.rename_other (apart _ rfl) (apart _ rfl),
    Dir.write_other (apart _ rfl)]

theorem Sole.snapshot {s : Inner} {dir : Dir} {front : Bytes} {snap log : List Rec}
    (sole : Sole ⟨s, dir⟩ front snap log []) (rows : List Rec) :
    Sole ⟨s, ((dir.write (.snapTmp s.inst) (logBytes rows)).rename (.snapTmp s.inst)
      (.snap s.inst)).write (.log s.inst) []⟩ [] rows [] [] :=
  (sole.toHolds.snapshot rows).sole sole (frame_snapshot s dir (logBytes rows))

/-- A compaction is a drain and a snapshot of the own entries. -/
theorem Holds.compact {w : World} {front : Bytes} {snap log buf : List Rec}
    (holds : Holds w front snap log buf) (old : List Rec) (env : Env) {safe : Prop} :
    Holds (w.step (env, .compact)) []
      (snapshotOf w.store.inst (env.indexOrder.iter w.store.index)) [] [] ∧
    Frame w (w.step (env, .compact)) ∧
    Journal.Path w.store.inst safe (w.journal (old ++ log ++ buf))
      ((w.step (env, .compact)).journal
        (snapshotOf w.store.inst (env.indexOrder.iter w.store.index))) := by
  obtain ⟨dir', flushed, holds'⟩ := holds.flushLocked env
  have frame := frame_flushLocked w.store w.dir env
  rw [flushed] at frame
  simp only [World.step, Inner.compact, holds.queue, flushed]
  refine ⟨holds'.snapshot _, frame.trans (frame_snapshot _ _ _), ?_⟩
  have step : Journal.Step w.store.inst
      ⟨w.store.index, ∅,
        old ++ (log ++ buf ++ hitRecs w.store.inst (env.dirtyOrder.iter w.store.dirty)) ++ []⟩
      (.snapshot env.indexOrder) _ := .snapshot env.indexOrder rfl
  exact (drain_path w old log buf env safe).trans (Journal.Path.single step fun _ => trivial)

/-! ## A store that is alone -/

/-- The store is still alone, and journal acts lead from the old journal to
the new one. -/
def Reaches (safe : Prop) (w : World) (recs : List Rec) (w' : World) : Prop :=
  ∃ snap log buf, Sole w' [] snap log buf ∧ w'.store.inst = w.store.inst ∧
    Journal.Path w.store.inst safe (w.journal recs) (w'.journal (snap ++ log ++ buf))

theorem Extends.reaches {safe : Prop} {w w' : World} {snap log buf : List Rec}
    (extended : Extends safe [] snap snap log buf w w') (sole : Sole w [] snap log buf) :
    Reaches safe w (snap ++ log ++ buf) w' := by
  obtain ⟨log', buf', rs, holds, frame, -, -, path⟩ := extended
  exact ⟨snap, log', buf', holds.sole sole frame, frame.inst, path⟩

section Alone

variable {w : World} {snap log buf : List Rec} {safe : Prop}

theorem Sole.resolve (sole : Sole w [] snap log buf) (env : Env) (code : String) :
    Reaches safe w (snap ++ log ++ buf) (w.step (env, .resolve code)) := by
  cases found : w.store.index.lookup code with
  | some ent =>
      simp only [World.step, Inner.resolve, found]
      split
      · exact (sole.toHolds.bump env found).reaches sole
      · exact ⟨snap, log, buf, sole, rfl, .refl⟩
  | none =>
      obtain ⟨readers', lastPoll', unread', missed⟩ := sole.tailMissed env code
      simp only [World.step, Inner.resolve, found, sole.queue, missed]
      exact ⟨snap, log, buf, ⟨⟨sole.opened, sole.snapBytes, sole.logFile, rfl⟩, sole.alone,
        unread'⟩, rfl, .refl⟩

theorem Sole.poll (sole : Sole w [] snap log buf) (env : Env) :
    Reaches safe w (snap ++ log ++ buf) (w.step (env, .poll)) := by
  obtain ⟨readers', unread', polled⟩ := sole.pollLocked env
  simp only [World.step, Inner.pollTails, sole.queue, polled]
  exact ⟨snap, log, buf, ⟨⟨sole.opened, sole.snapBytes, sole.logFile, rfl⟩, sole.alone,
    unread'⟩, rfl, .refl⟩

theorem Sole.compact (sole : Sole w [] snap log buf) (env : Env) :
    Reaches safe w (snap ++ log ++ buf) (w.step (env, .compact)) := by
  obtain ⟨holds, frame, path⟩ := sole.toHolds.compact snap env
  refine ⟨_, _, _, holds.sole sole frame, frame.inst, ?_⟩
  rw [List.append_nil, List.append_nil]
  exact path

end Alone

/-- What a store that opens alone replays: the records of its snapshot, then
the operations read from its log. -/
theorem new_front (env : Env) {dir : Dir} {inst : Inst} {front : Bytes} {snap log : List Rec}
    (okSnap : AllOk snap) (snapBytes : dir.read (.snap inst) = logBytes snap)
    (logFile : dir.read (.log inst) = front ++ logBytes log)
    (alone : ∀ k, k ≠ inst → dir (.log k) = none) (locked : Bool) :
    ∃ s' dir', Inner.new env dir inst locked = (s', dir') ∧ Sole ⟨s', dir'⟩ front snap log [] ∧
      s'.inst = inst ∧ s'.dirty = ∅ ∧
      s'.index = ((readOps (front ++ logBytes log)).foldl (apply env inst)
        (replay env inst .empty snap)).index := by
  have snapBytes' : (dir.write (.log inst) (dir.read (.log inst))).read (.snap inst) =
      logBytes snap := by
    rw [Dir.read_write_other (by simp), snapBytes]
  have logFile' : (dir.write (.log inst) (dir.read (.log inst))).read (.log inst) =
      front ++ logBytes log := by
    rw [Dir.read_write_same, logFile]
  have alone' : ∀ k, k ≠ inst →
      dir.write (.log inst) (dir.read (.log inst)) (.log k) = none := by
    intro k other
    rw [Dir.write_other (by simpa using other), alone k other]
  have none_present : shardFiles (dir.write (.log inst) (dir.read (.log inst))) inst = [] := by
    rw [List.eq_nil_iff_forall_not_mem]
    intro k member
    obtain ⟨other, present⟩ := mem_shardFiles.mp member
    simp [alone' k other] at present
  have loaded : loadAll env inst (dir.write (.log inst) (dir.read (.log inst))) =
      ((readOps (front ++ logBytes log)).foldl (apply env inst)
        (replay env inst .empty snap), ∅) := by
    rw [loadAll, none_present, replayInto_records env inst okSnap snapBytes',
      replayInto_ops, logFile']
    rfl
  refine ⟨_, _, rfl, ?_, rfl, rfl, ?_⟩
  · refine ⟨⟨rfl, snapBytes', logFile', rfl⟩, alone', ?_⟩
    intro k r found
    simp only [loaded] at found
    cases found
  · simp only [loaded]

/-- The records of the two own files, replayed by a store that opens alone. -/
theorem new_alone (env : Env) {dir : Dir} {inst : Inst} {snap log : List Rec}
    (ok : AllOk (snap ++ log)) (snapBytes : dir.read (.snap inst) = logBytes snap)
    (logFile : dir.read (.log inst) = logBytes log)
    (alone : ∀ k, k ≠ inst → dir (.log k) = none) (locked : Bool) :
    ∃ s' dir', Inner.new env dir inst locked = (s', dir') ∧ Sole ⟨s', dir'⟩ [] snap log [] ∧
      s'.inst = inst ∧ s'.dirty = ∅ ∧
      s'.index = (replay env inst .empty (snap ++ log)).index := by
  have okSnap : AllOk snap := fun r hr => ok r (List.mem_append_left _ hr)
  have okLog : AllOk log := fun r hr => ok r (List.mem_append_right _ hr)
  have logFile' : dir.read (.log inst) = [] ++ logBytes log := logFile
  obtain ⟨s', dir', opened, sole, inst', dirty', index'⟩ :=
    new_front env okSnap snapBytes logFile' alone locked
  refine ⟨s', dir', opened, sole, inst', dirty', ?_⟩
  rw [index', List.nil_append, readOps_logBytes okLog, replay_append]
  rfl

/-- Closing flushes; only the lock file is removed. -/
theorem Holds.close {w : World} {front : Bytes} {snap log buf : List Rec}
    (holds : Holds w front snap log buf) (env : Env) :
    (w.close env).store.inst = w.store.inst ∧
    (w.close env).dir.read (.snap w.store.inst) = logBytes snap ∧
    (w.close env).dir.read (.log w.store.inst) = front ++
      logBytes (log ++ buf ++ hitRecs w.store.inst (env.dirtyOrder.iter w.store.dirty)) ∧
    (∀ f : FileName, f.owner ≠ w.store.inst → (w.close env).dir f = w.dir f) ∧
    ((w.dir (.log w.store.inst)).isSome → ((w.close env).dir (.log w.store.inst)).isSome) := by
  obtain ⟨dir', flushed, holds'⟩ := holds.flushLocked env
  have frame := frame_flushLocked w.store w.dir env
  rw [flushed] at frame
  have queue : ({ w.store with closed := true, stop := true, threads := [] } : Inner).aof =
      some ⟨logBytes buf⟩ := holds.queue
  have stopped := flushLocked_eq env queue w.dir
  have same : dir' = (Aof.flush ⟨logBytes buf ++ w.store.hitLines env⟩ w.dir w.store.inst).2 := by
    rw [flushLocked_eq env holds.queue w.dir] at flushed
    exact (congrArg Prod.snd flushed).symm
  have kept : ∀ f, f ≠ .lock w.store.inst → (w.close env).dir f = dir' f := by
    intro f file
    simp only [World.close, Inner.close, holds.opened, Bool.false_eq_true, if_false, stopped]
    rw [same]
    split
    · exact Dir.remove_other file _
    · rfl
  refine ⟨?_, ?_, ?_, ?_, ?_⟩
  · simp only [World.close, Inner.close, holds.opened, Bool.false_eq_true, if_false, stopped]
  · rw [Dir.read, kept _ (by simp)]
    exact holds'.snapBytes
  · rw [Dir.read, kept _ (by simp)]
    exact holds'.logFile
  · intro f other
    rw [kept f fun same => other (congrArg FileName.owner same)]
    exact frame.files f other
  · rw [kept _ (by simp)]
    exact frame.present

/-- Closing drains, opening replays snapshot and log. -/
theorem Sole.reopened {w : World} {snap log buf : List Rec} (sole : Sole w [] snap log buf)
    (sound : (w.journal (snap ++ log ++ buf)).Sound w.store.inst) (closing opening : Env) :
    ∃ s' dir' log', (w.close closing).reopen opening = ⟨s', dir'⟩ ∧
      Sole ⟨s', dir'⟩ [] snap log' [] ∧ s'.inst = w.store.inst ∧ s'.dirty = ∅ ∧
      s'.index = (replay opening w.store.inst .empty (snap ++ log')).index ∧
      ∀ safe, Journal.Path w.store.inst safe (w.journal (snap ++ log ++ buf))
        ⟨w.store.index, ∅, snap ++ log'⟩ := by
  obtain ⟨inst, snapBytes, logFile, others, -⟩ := sole.toHolds.close closing
  have alone : ∀ k, k ≠ w.store.inst → (w.close closing).dir (.log k) = none := fun k other =>
    (others (.log k) other).trans (sole.alone k other)
  have drained := drain_path w snap log buf closing
  simp only [List.append_nil] at drained
  obtain ⟨s', dir', opened, sole', inst', dirty', index'⟩ :=
    new_alone opening (sound.path (drained True)).allOk snapBytes logFile alone false
  refine ⟨s', dir', _, ?_, sole', inst', dirty', index', drained⟩
  rw [World.reopen, inst, opened]

theorem Sole.reopen {w : World} {snap log buf : List Rec} (sole : Sole w [] snap log buf)
    (sound : (w.journal (snap ++ log ++ buf)).Sound w.store.inst)
    (closing opening : Env) {safe : Prop} :
    Reaches safe w (snap ++ log ++ buf) ((w.close closing).reopen opening) := by
  obtain ⟨s', dir', log', opened, sole', inst', dirty', index', drained⟩ :=
    sole.reopened sound closing opening
  have step : Journal.Step w.store.inst ⟨w.store.index, ∅, snap ++ log'⟩
      (.restart opening) _ := .restart opening rfl
  have arrived := (drained safe).trans (Journal.Path.single step fun _ => trivial)
  have same : World.journal ⟨s', dir'⟩ (snap ++ log' ++ []) =
      ⟨(replay opening w.store.inst .empty (snap ++ log')).index, ∅, snap ++ log'⟩ := by
    rw [World.journal, index', dirty', List.append_nil]
  rw [opened]
  refine ⟨_, _, _, sole', inst', ?_⟩
  rw [same]
  exact arrived

/-! ## Whole histories -/

/-- Every call is a path of journal acts. -/
theorem Sole.step {w : World} {snap log buf : List Rec} (sole : Sole w [] snap log buf)
    (sound : (w.journal (snap ++ log ++ buf)).Sound w.store.inst) (call : Env × Call) :
    Reaches (w.KeepsHits call) w (snap ++ log ++ buf) (w.step call) := by
  obtain ⟨env, call⟩ := call
  have stored := sole.storedOps sound.allOk
  cases call with
  | shorten url aliasCode ttl =>
      exact (sole.shorten env url aliasCode ttl fun keeps => ⟨keeps, stored⟩).reaches sole
  | shortenMany urls ttl =>
      exact (sole.shortenMany env urls ttl fun keeps => ⟨keeps, stored⟩).reaches sole
  | update code url ttl hasTtl =>
      exact (sole.update env code url ttl hasTtl fun keeps => keeps).reaches sole
  | remove code => exact (sole.remove env code).reaches sole
  | resolve code => exact sole.resolve env code
  | flush => exact (sole.flush env).reaches sole
  | compact => exact sole.compact env
  | poll => exact sole.poll env
  | restart => exact sole.reopen sound env env

/-- The store is alone and its records give its index. -/
def Settled (w : World) : Prop :=
  ∃ snap log buf, Sole w [] snap log buf ∧ (w.journal (snap ++ log ++ buf)).Sound w.store.inst

/-- Also the hits agree. -/
def HitsSettled (w : World) : Prop :=
  ∃ snap log buf, Sole w [] snap log buf ∧ (w.journal (snap ++ log ++ buf)).Sound w.store.inst ∧
    (w.journal (snap ++ log ++ buf)).HitsAgree

theorem HitsSettled.settled {w : World} (settled : HitsSettled w) : Settled w := by
  obtain ⟨snap, log, buf, sole, sound, -⟩ := settled
  exact ⟨snap, log, buf, sole, sound⟩

theorem hitsSettled_fresh (env : Env) (inst : Inst) : HitsSettled (World.fresh env inst) := by
  have empty : ∀ f, Dir.empty.read f = logBytes [] := fun _ => rfl
  obtain ⟨s', dir', opened, sole, inst', dirty', index'⟩ :=
    new_alone env allOk_nil (empty (.snap inst)) (empty (.log inst)) (fun _ _ => rfl) false
  have same : World.fresh env inst = ⟨s', dir'⟩ := by
    rw [World.fresh, opened]
  rw [same]
  refine ⟨[], [], [], sole, ?_, ?_⟩
  · exact ⟨allOk_nil, by simp [World.journal], by simp [World.journal, index', View.empty],
      by simp [World.journal, dirty'], by simp [World.journal, index']; rfl⟩
  · intro c ent found
    simp [World.journal, index', View.empty] at found

theorem Settled.step {w : World} (settled : Settled w) (call : Env × Call) :
    Settled (w.step call) := by
  obtain ⟨snap, log, buf, sole, sound⟩ := settled
  obtain ⟨snap', log', buf', sole', inst, path⟩ := sole.step sound call
  rw [← inst] at sound path
  exact ⟨snap', log', buf', sole', sound.path path⟩

theorem HitsSettled.step {w : World} (settled : HitsSettled w) {call : Env × Call}
    (keeps : w.KeepsHits call) : HitsSettled (w.step call) := by
  obtain ⟨snap, log, buf, sole, sound, agree⟩ := settled
  obtain ⟨snap', log', buf', sole', inst, path⟩ := sole.step sound call
  rw [← inst] at sound path
  exact ⟨snap', log', buf', sole', sound.path path, agree.path keeps sound path⟩

end Shrt.Store
