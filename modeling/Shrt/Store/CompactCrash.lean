import Mathlib.Data.List.Basic
import Shrt.Store.Restart

/-!
# A crash in the middle of a compaction

The process may die between any two file steps of `compact`: with the
temporary file missing, partly written or complete, with the new snapshot in
place but the log not yet emptied, or at the end.  Between the rename and the
truncation a reopening store reads the new snapshot and then the whole old
log, so hits that the snapshot holds already are counted again unless a row of
the log starts their count afresh.
-/

namespace Shrt.Store

open Shrt.Codec Shrt.Lib Shrt.Lib.Runs

/-- Where the process dies. -/
inductive CrashPoint where
  /-- Before the temporary file is created. -/
  | start
  /-- With this many bytes in the temporary file. -/
  | writing (written : Nat)
  /-- After the rename. -/
  | renamed
  /-- After the log was truncated. -/
  | truncated
  deriving DecidableEq, Repr

/-- The directory that a `compact` leaves when it is cut off. -/
def Inner.compactUntil (env : Env) (s : Inner) (dir : Dir) (point : CrashPoint) : Dir :=
  let flushed := s.flushLocked env dir
  let rows := logBytes (flushed.1.snapshotRows env)
  match point with
  | .start => flushed.2
  | .writing written => flushed.2.write (.snapTmp s.inst) (rows.take written)
  | .renamed =>
      (flushed.2.write (.snapTmp s.inst) rows).rename (.snapTmp s.inst) (.snap s.inst)
  | .truncated =>
      ((flushed.2.write (.snapTmp s.inst) rows).rename (.snapTmp s.inst)
        (.snap s.inst)).write (.log s.inst) []

/-- A `compact` that is not cut off reaches the last point. -/
theorem compact_eq_compactUntil (env : Env) {s : Inner} {buf : Bytes}
    (queue : s.aof = some ⟨buf⟩) (dir : Dir) :
    (s.compact env dir).2 = s.compactUntil env dir .truncated := by
  simp only [Inner.compact, Inner.compactUntil, queue, flushLocked_eq env queue dir]
  rfl

def loggedHits (c : String) (ops : List Op) : Int64 :=
  ((ops.filter fun o => o.h = c).map Op.d).sum

/-- Every live code with hits in the log has a row in the log as well. -/
def World.LogRestartsCounts (w : World) : Prop :=
  ∀ c, w.store.index.lookup c ≠ none →
    (∀ o ∈ readOps (w.dir.read (.log w.store.inst)), o.c ≠ c) →
    loggedHits c (readOps (w.dir.read (.log w.store.inst))) = 0

/-- A store opened after the crash reports every link as the old one did. -/
def World.Recovers (w : World) (compacting opening : Env) (point : CrashPoint) : Prop :=
  ∀ c, (Inner.new opening (w.store.compactUntil compacting w.dir point) w.store.inst
    false).1.stats c = w.store.stats c

/-! ## Records and operations -/

theorem loggedHits_op {rs : List Rec} {c : String} (plain : Plain c) :
    loggedHits c (rs.map Rec.op) = hitSum c rs := by
  induction rs with
  | nil => rfl
  | cons r rs ih =>
      have named : ¬ "" = c := fun h => plain.nonempty h.symm
      rw [loggedHits] at ih
      rw [hitSum_cons, ← ih, loggedHits, List.map_cons]
      cases r with
      | row c' u a e i n => simp [Rec.op, recHits, named]
      | del c' => simp [Rec.op, recHits, named]
      | hit c' d i =>
          by_cases same : c' = c
          · simp [Rec.op, recHits, same]
          · simp [Rec.op, recHits, same]

theorem noRow_iff {rs : List Rec} {c : String} (plain : Plain c) :
    (∀ o ∈ rs.map Rec.op, o.c ≠ c) ↔ Track.NoRow c rs := by
  have named : ¬ "" = c := fun h => plain.nonempty h.symm
  constructor
  · intro none r member _ u a e i n row
    subst row
    exact none _ (List.mem_map_of_mem member) rfl
  · intro none o member
    obtain ⟨r, stored, rfl⟩ := List.mem_map.mp member
    cases r with
    | row c' u a e i n =>
        intro same
        change c' = c at same
        subst same
        exact none _ stored rfl u a e i n rfl
    | hit c' d i => exact named
    | del c' => exact named

/-! ## The files at each point -/

/-- A store that has just been flushed: its records are all in its files. -/
structure Flushed (w : World) (snap log : List Rec) : Prop where
  sole : Sole w [] snap log []
  idle : w.store.dirty = ∅
  sound : (w.journal (snap ++ log)).Sound w.store.inst

theorem Flushed.flushLocked {w : World} {snap log : List Rec} (flushed : Flushed w snap log)
    (env : Env) : w.store.flushLocked env w.dir = (w.store, w.dir) := by
  have queue : w.store.aof = some ⟨[]⟩ := flushed.sole.queue
  have nothing : w.store.hitLines env = [] := by
    have empty : env.dirtyOrder.iter w.store.dirty = [] := by
      have perm := env.dirtyOrder.perm w.store.dirty
      rw [flushed.idle] at perm ⊢
      exact List.Perm.eq_nil perm
    rw [hitLines_eq, empty]
    rfl
  rw [flushLocked_eq env queue, nothing, ← queue, ← flushed.idle]
  rfl

theorem flushed_step {w : World} {snap log buf : List Rec} (sole : Sole w [] snap log buf)
    (sound : (w.journal (snap ++ log ++ buf)).Sound w.store.inst) (flushing : Env) :
    ∃ log', Flushed (w.step (flushing, .flush)) snap log' ∧
      ((w.journal (snap ++ log ++ buf)).HitsAgree →
        ((w.step (flushing, .flush)).journal (snap ++ log')).HitsAgree) := by
  obtain ⟨dir', flushed, sole'⟩ := sole.flushLocked flushing
  have drained := drain_path w snap log buf flushing True
  rw [List.append_nil] at drained
  simp only [World.step, flushed]
  exact ⟨_, ⟨sole', rfl, sound.path drained⟩, fun agree => agree.path trivial sound drained⟩

/-- The records of the snapshot file at a point: the old ones or the new. -/
def CrashPoint.snapRecs (point : CrashPoint) (old new : List Rec) : List Rec :=
  match point with
  | .start => old
  | .writing _ => old
  | .renamed => new
  | .truncated => new

def CrashPoint.logRecs (point : CrashPoint) (log : List Rec) : List Rec :=
  match point with
  | .truncated => []
  | _ => log

theorem Flushed.files {w : World} {snap log : List Rec} (flushed : Flushed w snap log)
    (env : Env) (point : CrashPoint) :
    (w.store.compactUntil env w.dir point).read (.snap w.store.inst) =
      logBytes (point.snapRecs snap (w.store.snapshotRows env)) ∧
    (w.store.compactUntil env w.dir point).read (.log w.store.inst) =
      logBytes (point.logRecs log) ∧
    ∀ k, k ≠ w.store.inst → w.store.compactUntil env w.dir point (.log k) = none := by
  have nothing := flushed.flushLocked env
  have snapBytes := flushed.sole.snapBytes
  have logFile : w.dir.read (.log w.store.inst) = logBytes log := flushed.sole.logFile
  have alone := flushed.sole.alone
  cases point with
  | start =>
      simp only [Inner.compactUntil, nothing]
      exact ⟨snapBytes, logFile, alone⟩
  | writing written =>
      simp only [Inner.compactUntil, nothing]
      refine ⟨?_, ?_, fun k other => ?_⟩
      · rw [Dir.read_write_other (by simp)]
        exact snapBytes
      · rw [Dir.read_write_other (by simp)]
        exact logFile
      · rw [Dir.write_other (by simp)]
        exact alone k other
  | renamed =>
      simp only [Inner.compactUntil, nothing]
      refine ⟨?_, ?_, fun k other => ?_⟩
      · rw [Dir.read, Dir.rename_target (by simp)]
        exact Dir.read_write_same _ _ _
      · rw [Dir.read, Dir.rename_other (by simp) (by simp), Dir.write_other (by simp)]
        exact logFile
      · rw [Dir.rename_other (by simp) (by simp), Dir.write_other (by simp)]
        exact alone k other
  | truncated =>
      simp only [Inner.compactUntil, nothing]
      have written := flushed.sole.snapshot (w.store.snapshotRows env)
      exact ⟨written.snapBytes, written.logFile, written.alone⟩

/-- What a store opened at a point replays. -/
theorem Flushed.index_new {w : World} {snap log : List Rec} (flushed : Flushed w snap log)
    (compacting opening : Env) (point : CrashPoint) :
    (Inner.new opening (w.store.compactUntil compacting w.dir point) w.store.inst
      false).1.index =
      (replay opening w.store.inst .empty
        (point.snapRecs snap (w.store.snapshotRows compacting) ++ point.logRecs log)).index := by
  have okSnap : AllOk snap := fun r hr => flushed.sound.allOk r (List.mem_append_left _ hr)
  have okLog : AllOk log := fun r hr => flushed.sound.allOk r (List.mem_append_right _ hr)
  have okNew : AllOk (w.store.snapshotRows compacting) :=
    (flushed.sound.step (.snapshot compacting.indexOrder flushed.idle)).allOk
  have ok : AllOk (point.snapRecs snap (w.store.snapshotRows compacting) ++
      point.logRecs log) := by
    cases point with
    | start => exact okSnap.append okLog
    | writing written => exact okSnap.append okLog
    | renamed => exact okNew.append okLog
    | truncated => exact okNew.append allOk_nil
  obtain ⟨snapBytes, logFile, alone⟩ := flushed.files compacting point
  obtain ⟨s', dir', opened, -, -, -, index⟩ :=
    new_alone opening ok snapBytes logFile alone false
  rw [opened]
  exact index

/-! ## Between the rename and the truncation -/

/-- Two stores with the same row of a code report it alike when the hits are
the same. -/
theorem stats_eq_iff {s t : Inner} {c : String} (rows : s.index.rows c = t.index.rows c) :
    s.stats c = t.stats c ↔ s.hits c = t.hits c := by
  constructor
  · intro same
    rw [Inner.hits, Inner.hits, same]
  · intro same
    rw [Inner.hits_eq, Inner.hits_eq] at same
    simp only [Index.rows] at rows
    rw [Inner.stats, Inner.stats]
    cases left : s.index.lookup c with
    | none =>
        rw [left] at rows
        have right : t.index.lookup c = none := by simpa using rows.symm
        rw [right]
    | some e =>
        cases right : t.index.lookup c with
        | none => simp [left, right] at rows
        | some e' =>
            simp only [left, right, Option.map_some, Option.some.injEq, Entry.row,
              Row.mk.injEq] at rows same
            simp [rows, same]

/-- Replaying the old log over the new snapshot gives the rows once more. -/
theorem Flushed.rows_renamed {w : World} {snap log : List Rec} (flushed : Flushed w snap log)
    (compacting opening : Env) :
    (replay opening w.store.inst .empty (w.store.snapshotRows compacting ++ log)).index.rows =
      w.store.index.rows := by
  have sound := flushed.sound
  have okLog : AllOk log := fun r hr => sound.allOk r (List.mem_append_right _ hr)
  have newRows : (replay opening w.store.inst .empty (w.store.snapshotRows compacting)).index.rows =
      w.store.index.rows :=
    (sound.step (.snapshot compacting.indexOrder flushed.idle)).rows_replay opening
  have oldRows : KeyedLog.run (fun _ => none) ((snap ++ log).map recEvent) =
      w.store.index.rows := sound.rows
  rw [List.map_append, KeyedLog.run_append] at oldRows
  rw [replay_append, rows_replay opening w.store.inst okLog, newRows, ← oldRows,
    KeyedLog.run_run_self]

/-- The hits of a live code after the old log was replayed once more: doubled
for the part in the log, unless a row in the log starts afresh. -/
theorem Flushed.track_renamed {w : World} {snap log : List Rec} (flushed : Flushed w snap log)
    (agree : (w.journal (snap ++ log)).HitsAgree) (compacting : Env) {c : String} {ent : Entry}
    (found : w.store.index.lookup c = some ent) :
    (Track.NoRow c log → Track.run c .gone (w.store.snapshotRows compacting ++ log) =
      .live (ent.h + hitSum c log)) ∧
    (¬ Track.NoRow c log → Track.run c .gone (w.store.snapshotRows compacting ++ log) =
      .live ent.h) := by
  have restored : Track.run c .gone (w.store.snapshotRows compacting) = .live ent.h := by
    have idle : (w.journal (snap ++ log)).dirty = ∅ := flushed.idle
    have step : Journal.Step w.store.inst (w.journal (snap ++ log))
        (.snapshot compacting.indexOrder) _ := .snapshot compacting.indexOrder idle
    have hits : Track.run c .gone (w.store.snapshotRows compacting) = .live (ent.h - 0) :=
      (agree.step flushed.sound step trivial) c ent found
    simpa using hits
  have before : Track.run c (Track.run c .gone snap) log = .live ent.h := by
    have hits := agree c ent found
    have idle : (w.journal (snap ++ log)).dirty = ∅ := flushed.idle
    rw [idle] at hits
    rw [← Track.run_append]
    simpa [World.journal] using hits
  rw [Track.run_append, restored]
  constructor
  · intro none
    exact Track.run_hits (Track.onlyHits_of_noRow none before) ent.h
  · intro some
    refine Track.run_live_of_assigned (fun only => some ?_) before ent.h
    intro r member named u a e i n row
    obtain ⟨d, i', hit⟩ := only r member named
    rw [row] at hit
    cases hit

theorem Flushed.recovers_renamed {w : World} {snap log : List Rec}
    (flushed : Flushed w snap log) (agree : (w.journal (snap ++ log)).HitsAgree)
    (compacting opening : Env) :
    w.Recovers compacting opening .renamed ↔ w.LogRestartsCounts := by
  have okLog : AllOk log := fun r hr => flushed.sound.allOk r (List.mem_append_right _ hr)
  have okNew : AllOk (w.store.snapshotRows compacting) :=
    (flushed.sound.step (.snapshot compacting.indexOrder flushed.idle)).allOk
  have logOps : readOps (w.dir.read (.log w.store.inst)) = log.map Rec.op := by
    rw [flushed.sole.logFile, List.nil_append, readOps_logBytes okLog]
  have index := flushed.index_new compacting opening .renamed
  have rows := flushed.rows_renamed compacting opening
  simp only [CrashPoint.snapRecs, CrashPoint.logRecs] at index
  rw [← index] at rows
  have newHits : ∀ c h, Track.run c .gone (w.store.snapshotRows compacting ++ log) = .live h →
      (Inner.new opening (w.store.compactUntil compacting w.dir .renamed) w.store.inst
        false).1.hits c = some h := by
    intro c h track
    have agrees := Track.agrees_replay_empty opening w.store.inst c (okNew.append okLog)
    rw [track] at agrees
    obtain ⟨ent, found, hits⟩ := agrees
    rw [Inner.hits_eq, index, found, ← hits]
    rfl
  rw [World.LogRestartsCounts, logOps]
  constructor
  · intro same c live none
    obtain ⟨ent, found⟩ := Option.ne_none_iff_exists'.mp live
    have plain := (flushed.sound.mine c ent found).1
    have doubled := newHits c _
      ((flushed.track_renamed agree compacting found).1 ((noRow_iff plain).mp none))
    rw [Inner.hits, same c, ← Inner.hits, Inner.hits_eq, found, Option.map_some,
      Option.some.injEq] at doubled
    rw [loggedHits_op plain]
    simpa using doubled.symm
  · intro restarts c
    -- The rows agree in any case, so only the hits of a live code are left.
    rw [stats_eq_iff (congrFun rows c)]
    cases found : w.store.index.lookup c with
    | none =>
        have missing := congrFun rows c
        simp only [Index.rows, found, Option.map_none, Option.map_eq_none_iff] at missing
        rw [Inner.hits_eq, Inner.hits_eq, missing, found]
    | some ent =>
        have plain := (flushed.sound.mine c ent found).1
        rw [Inner.hits_eq w.store, found]
        apply newHits
        by_cases none : Track.NoRow c log
        · have nothing := restarts c (by simp [found]) ((noRow_iff plain).mpr none)
          rw [loggedHits_op plain] at nothing
          rw [(flushed.track_renamed agree compacting found).1 none, nothing, Int64.add_zero]
        · exact (flushed.track_renamed agree compacting found).2 none

/-- The rows are there at every point. -/
theorem Flushed.rows_new {w : World} {snap log : List Rec} (flushed : Flushed w snap log)
    (compacting opening : Env) (point : CrashPoint) :
    (Inner.new opening (w.store.compactUntil compacting w.dir point) w.store.inst
      false).1.index.rows = w.store.index.rows := by
  rw [flushed.index_new compacting opening point]
  cases point with
  | start => exact flushed.sound.rows_replay opening
  | writing written => exact flushed.sound.rows_replay opening
  | renamed => exact flushed.rows_renamed compacting opening
  | truncated =>
      simp only [CrashPoint.snapRecs, CrashPoint.logRecs, List.append_nil]
      exact (flushed.sound.step
        (.snapshot compacting.indexOrder flushed.idle)).rows_replay opening

/-- Before the rename the old files are read, after the truncation the new
snapshot alone. -/
theorem Flushed.recovers_elsewhere {w : World} {snap log : List Rec}
    (flushed : Flushed w snap log) {point : CrashPoint} (elsewhere : point ≠ .renamed)
    (agree : point ≠ .truncated → (w.journal (snap ++ log)).HitsAgree)
    (compacting opening : Env) : w.Recovers compacting opening point := by
  have index := flushed.index_new compacting opening point
  have lookups : ∀ c, (replay opening w.store.inst .empty
      (point.snapRecs snap (w.store.snapshotRows compacting) ++
        point.logRecs log)).index.lookup c = w.store.index.lookup c := by
    intro c
    cases point with
    | start => exact (agree (by simp)).lookup_replay flushed.sound flushed.idle opening c
    | writing written =>
        exact (agree (by simp)).lookup_replay flushed.sound flushed.idle opening c
    | renamed => exact absurd rfl elsewhere
    | truncated =>
        simp only [CrashPoint.snapRecs, CrashPoint.logRecs, List.append_nil]
        exact (lookup_snapshotOf opening w.store.inst compacting.indexOrder
          flushed.sound.mine).2 c
  intro c
  rw [Inner.stats, Inner.stats, index, lookups c]

/-- A compaction cut off anywhere loses and doubles nothing, except that one
cut off between the rename and the truncation counts the hits in the log of
every code without a row there a second time. -/
theorem crash_recovers_iff (env flushing compacting opening : Env) (inst : Inst)
    (history : List (Env × Call)) (point : CrashPoint)
    (careful : point ≠ .truncated →
      Along World.step World.KeepsHits (World.fresh env inst) history) :
    (((World.fresh env inst).run history).step (flushing, .flush)).Recovers compacting opening
        point ↔
      (point = .renamed →
        (((World.fresh env inst).run history).step (flushing, .flush)).LogRestartsCounts) := by
  by_cases renamed : point = .renamed
  · subst renamed
    obtain ⟨snap, log, buf, sole, sound, agree⟩ := hitsSettled_run (careful (by simp))
    obtain ⟨log', flushed, agreeFlushed⟩ := flushed_step sole sound flushing
    rw [flushed.recovers_renamed (agreeFlushed agree) compacting opening]
    simp
  · have recovers : (((World.fresh env inst).run history).step (flushing, .flush)).Recovers
        compacting opening point := by
      by_cases truncated : point = .truncated
      · obtain ⟨snap, log, buf, sole, sound⟩ := settled_run env inst history
        obtain ⟨log', flushed, -⟩ := flushed_step sole sound flushing
        exact flushed.recovers_elsewhere renamed (fun h => absurd truncated h) compacting opening
      · obtain ⟨snap, log, buf, sole, sound, agree⟩ := hitsSettled_run (careful truncated)
        obtain ⟨log', flushed, agreeFlushed⟩ := flushed_step sole sound flushing
        exact flushed.recovers_elsewhere renamed (fun _ => agreeFlushed agree) compacting opening
    exact ⟨fun _ h => absurd h renamed, fun _ => recovers⟩

/-- A link whose row and hit are both still in the log. -/
def rowAndHitLogged : List (Env × Call) :=
  [(.at 1 [], .shorten "https://a" (some promo) 0), (.at 2 [], .resolve "promo")]

theorem crash_recovers_row_logged :
    Along World.step World.KeepsHits (World.fresh (.at 0 []) 0) rowAndHitLogged ∧
    (((World.fresh (.at 0 []) 0).run rowAndHitLogged).step (.at 3 [], .flush)).Recovers
      (.at 4 []) (.at 5 []) .renamed := by
  have careful : Along World.step World.KeepsHits (World.fresh (.at 0 []) 0)
      rowAndHitLogged := by
    decide +kernel
  refine ⟨careful, (crash_recovers_iff _ _ _ _ _ _ _ (fun _ => careful)).mpr fun _ => ?_⟩
  intro c live none
  have keys : (((World.fresh (.at 0 []) 0).run rowAndHitLogged).step
      (.at 3 [], .flush)).store.index.keys = ["promo"] := by
    decide +kernel
  have member := Map.mem_iff_lookup.mpr live
  rw [AList.mem_keys, keys, List.mem_singleton] at member
  subst member
  revert none
  decide +kernel

/-- A link whose row is in the snapshot when it is hit again. -/
def hitAfterCompact : List (Env × Call) :=
  [(.at 1 [], .shorten "https://a" (some promo) 0), (.at 2 [], .compact),
   (.at 3 [], .resolve "promo")]

/-- A crash after the rename then counts the hit twice. -/
theorem crash_after_rename_doubles_hits :
    ¬ ∀ (env flushing compacting opening : Env) (inst : Inst) (history : List (Env × Call))
      (point : CrashPoint),
      (((World.fresh env inst).run history).step (flushing, .flush)).Recovers compacting opening
        point := by
  intro recovers
  have same := recovers (.at 0 []) (.at 4 []) (.at 5 []) (.at 6 []) 0 hitAfterCompact .renamed
    "promo"
  revert same
  decide +kernel

end Shrt.Store
