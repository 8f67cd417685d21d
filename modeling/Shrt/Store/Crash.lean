import Mathlib.Data.List.Basic
import Mathlib.Data.List.Induction
import Shrt.Store.Bulk
import Shrt.Store.CompactCrash
import Shrt.Store.Tailing
import Shrt.Store.TornTail

/-!
# Killed at any time

A process that dies loses the queue of its log, and a write that it was in the
middle of may end at any byte.  What the next one replays are the rows after some
first part of the calls, with no call left out that a flush came after, and of a
bulk creation perhaps only the first links.
-/

namespace Shrt.Store

open Shrt.Codec Shrt.Lib Shrt.Lib.Framing Shrt.Lib.Runs
open Shrt.Store.Inner (expiry)

/-- The calls that write the queue out. -/
def Call.settles : Call → Bool
  | .flush | .compact | .restart => true
  | _ => false

namespace World

/-- The call whose writing to the log a call begins with. -/
def writing (call : Env × Call) : Env × Call :=
  if call.2.settles then (call.1, .flush) else call

def logged (w : World) (call : Env × Call) : Bytes :=
  ((w.step (writing call)).dir.read (.log w.store.inst)).drop
    (w.dir.read (.log w.store.inst)).length

/-- What is on disk when the process dies after the call appended `k` bytes to the log:
nothing of the queue is behind them. -/
def cutLog (w : World) (call : Env × Call) (k : Nat) : Dir :=
  w.dir.write (.log w.store.inst) (w.dir.read (.log w.store.inst) ++ (w.logged call).take k)

/-- What is on disk when the process dies in a call.  A compaction that appended everything
to the log goes on to its own files, and dies at a point of these. -/
def killed (w : World) (call : Env × Call) (k : Nat) (point : CrashPoint) : Dir :=
  match call.2 with
  | .compact =>
      if (w.logged call).length ≤ k then w.store.compactUntil call.1 w.dir point
      else w.cutLog call k
  | _ => w.cutLog call k

/-- The rows within the next call: those of a bulk creation are there one after the other,
and any other call is done at once. -/
def within (w : World) (j : Nat) : Option (Env × Call) → String → Option Row
  | none => w.store.index.rows
  | some (env, .shortenMany urls ttl) =>
      match w.store.shortenMany env w.dir urls ttl with
      | none => w.store.index.rows
      | some done =>
          ((urls.zip done.1).take j).foldl (fun rows made =>
            Function.update rows made.2 (some ⟨made.1, env.clock 0, expiry (env.clock 0) ttl,
              w.store.inst.i32⟩)) w.store.index.rows
  | some call => if j = 0 then w.store.index.rows else (w.step call).store.index.rows

end World

/-- How many calls there are up to the last one that wrote the queue out. -/
def settledCalls (history : List (Env × Call)) : Nat :=
  (history.reverse.dropWhile fun call => !call.2.settles).length

theorem settledCalls_concat (history : List (Env × Call)) (call : Env × Call) :
    settledCalls (history ++ [call]) =
      if call.2.settles then history.length + 1 else settledCalls history := by
  rw [settledCalls, settledCalls, List.reverse_concat, List.dropWhile_cons]
  cases call.2.settles with
  | true => simp
  | false => simp

theorem settledCalls_le (history : List (Env × Call)) : settledCalls history ≤ history.length := by
  have reversed : history.reverse.length = history.length := List.length_reverse
  rw [settledCalls, ← reversed]
  exact (List.dropWhile_suffix _).length_le

/-! ## The rows of first parts -/

/-- What is read of a log that was cut at some byte behind its first records. -/
theorem readOps_cut {log more : List Rec} (ok : AllOk (log ++ more)) (k : Nat) :
    ∃ q, q <+: more ∧
      readOps (logBytes log ++ (logBytes more).take k) = (log ++ q).map Rec.op := by
  have okLog : AllOk log := fun r hr => ok r (List.mem_append_left _ hr)
  have okMore : AllOk more := fun r hr => ok r (List.mem_append_right _ hr)
  obtain ⟨count, cut⟩ : ∃ count, lines NL ((logBytes more).take k) =
      (more.take count).map Rec.line := by
    have start := lines_take_logBytes okMore k
    refine ⟨(lines NL ((logBytes more).take k)).length, ?_⟩
    rw [List.map_take]
    exact List.prefix_iff_eq_take.mp start
  have okCut : AllOk (more.take count) := fun r hr => okMore r (List.mem_of_mem_take hr)
  refine ⟨more.take count, List.take_prefix _ _, ?_⟩
  have same : readOps ((logBytes more).take k) = (more.take count).map Rec.op := by
    rw [← readOps_logBytes okCut, readOps, readOps, cut]
    exact congrArg (List.filterMap parseOp) (lines_unlines (framed_lines okCut)).symm
  rw [readOps_logBytes_append okLog, same, List.map_append]

/-- The rows of a bulk creation, link by link. -/
theorem bulk_rows {inst : Inst} {now exp : Int64} {items : List (String × Suffix)}
    {retries : List Suffix} {index index' : Index} {rows rows' : Bytes}
    {codes codes' : List String}
    (done : Inner.bulk inst now exp (fun url => ⟨url, now, exp, inst.i32, 0, 0⟩) items retries
      index rows codes = some (index', rows', codes')) :
    ∃ drawn, codes' = codes ++ drawn ∧ (∀ c ∈ drawn, Plain c) ∧
      rows' = rows ++ logBytes (newRows inst now exp (items.map Prod.fst) drawn) ∧
      index'.rows = KeyedLog.run index.rows
        ((newRows inst now exp (items.map Prod.fst) drawn).map recEvent) := by
  induction items generalizing retries index rows codes with
  | nil =>
      cases done
      exact ⟨[], (List.append_nil _).symm, by simp, (List.append_nil _).symm, rfl⟩
  | cons item items ih =>
      obtain ⟨url, buf⟩ := item
      rw [Inner.bulk, Option.bind_eq_some_iff] at done
      obtain ⟨⟨c, rest⟩, took, done⟩ := done
      obtain ⟨free, b, -, rfl⟩ := freshCode_spec took
      obtain ⟨drawn, rfl, plain, rfl, same⟩ := ih done
      refine ⟨genCode inst b :: drawn, List.append_assoc _ _ _, ?_, ?_, ?_⟩
      · exact List.forall_mem_cons.mpr ⟨plain_genCode inst b, plain⟩
      · dsimp only
        rw [rowLineInto_eq, List.map_cons, newRows, newRows, List.zipWith_cons_cons,
          logBytes_cons]
        simp [Rec.line]
      · rw [same, Journal.rows_insert]
        simp [newRows, KeyedLog.run, KeyedLog.step, recEvent, Entry.row, inst.i64_toInt32]

/-- The rows are the instance's own, of codes that a line can hold. -/
theorem newRows_spec {inst : Inst} {now exp : Int64} {urls codes : List String}
    (plain : ∀ c ∈ codes, Plain c) :
    ∀ r ∈ newRows inst now exp urls codes, r.Ok ∧ r.Own inst := by
  intro r among
  rw [newRows, ← List.map_uncurry_zip_eq_zipWith] at among
  obtain ⟨⟨url, c⟩, paired, rfl⟩ := List.mem_map.mp among
  exact ⟨plain c (List.of_mem_zip paired).2, rfl⟩

theorem run_newRows (inst : Inst) (now exp : Int64) (urls codes : List String)
    (m : String → Option Row) (j : Nat) :
    KeyedLog.run m (((newRows inst now exp urls codes).take j).map recEvent) =
      ((urls.zip codes).take j).foldl (fun (rows : String → Option Row) made =>
        Function.update rows made.2 (some ⟨made.1, now, exp, inst.i32⟩)) m := by
  rw [newRows]
  induction urls generalizing codes m j with
  | nil => simp [KeyedLog.run]
  | cons url urls ih =>
      cases codes with
      | nil => simp [KeyedLog.run]
      | cons c codes =>
          cases j with
          | zero => rfl
          | succ j =>
              have later := ih codes (Function.update m c (some ⟨url, now, exp, inst.i32⟩)) j
              simpa [KeyedLog.run, KeyedLog.step, recEvent, inst.i64_toInt32] using later

/-! ## What a call brings -/

/-- From the first journal, at most one record in one act. -/
def Once (inst : Inst) (start : Journal) (j j' : Journal) : Prop :=
  j = start ∧ (∃ act, Journal.Step inst start act j') ∧
    ∃ rs, j'.recs = start.recs ++ rs ∧ rs.length ≤ 1

theorem once_path {inst : Inst} {start j : Journal}
    (path : Relation.ReflTransGen (Once inst start) start j) :
    Journal.Path inst False start j ∧ ∃ rs, j.recs = start.recs ++ rs ∧ rs.length ≤ 1 := by
  induction path with
  | refl => exact ⟨.refl, [], (List.append_nil _).symm, Nat.zero_le 1⟩
  | tail _ last _ =>
      obtain ⟨-, ⟨act, step⟩, short⟩ := last
      exact ⟨.single step False.elim, short⟩

theorem World.within_zero (w : World) (call : Option (Env × Call)) :
    w.within 0 call = w.store.index.rows := by
  cases call with
  | none => rfl
  | some call =>
      obtain ⟨env, call⟩ := call
      cases call with
      | shortenMany urls ttl =>
          simp only [World.within]
          cases w.store.shortenMany env w.dir urls ttl with
          | none => rfl
          | some done => rfl
      | shorten url aliasCode ttl => rfl
      | update code url ttl hasTtl => rfl
      | remove code => rfl
      | resolve code => rfl
      | flush => rfl
      | compact => rfl
      | poll => rfl
      | restart => rfl

/-- What a call does to a store that is alone: its records follow those of the log and
the queue, and every first part of them leads to rows within the call. -/
structure Brings (w : World) (call : Env × Call) (snap log buf log' buf' rs : List Rec) :
    Prop where
  sole : Sole (w.step call) [] snap log' buf'
  inst : (w.step call).store.inst = w.store.inst
  sound : ((w.step call).journal (snap ++ log' ++ buf')).Sound w.store.inst
  grown : log <+: log'
  moved : log' ++ buf' = log ++ buf ++ rs
  within : ∀ q, q <+: rs →
    ∃ j, KeyedLog.run w.store.index.rows (q.map recEvent) = w.within j (some call)

section Calls

variable {w : World} {snap log buf : List Rec}

/-- A call that is at most one act. -/
theorem Sole.brings_once (sole : Sole w [] snap log buf)
    (sound : (w.journal (snap ++ log ++ buf)).Sound w.store.inst) {call : Env × Call}
    (extended : ExtendsBy (Once w.store.inst (w.journal (snap ++ log ++ buf))) [] snap snap log
      buf w (w.step call))
    (whole : w.within 1 (some call) = (w.step call).store.index.rows) :
    ∃ log' buf' rs, Brings w call snap log buf log' buf' rs := by
  obtain ⟨log', buf', rs, holds, frame, grown, moved, path⟩ := extended
  obtain ⟨path', rs', added, short⟩ := once_path path
  have sound' := sound.path path'
  have joined : snap ++ log' ++ buf' = snap ++ log ++ buf ++ rs := by
    rw [List.append_assoc, moved]
    simp
  have same : rs' = rs := by
    have added' : snap ++ log' ++ buf' = snap ++ log ++ buf ++ rs' := added
    exact List.append_cancel_left (added'.symm.trans joined)
  subst same
  refine ⟨log', buf', rs', holds.sole sole frame, frame.inst, sound', grown, moved, ?_⟩
  intro q start
  by_cases empty : q = []
  · refine ⟨0, ?_⟩
    rw [empty, w.within_zero]
    rfl
  · have filled : 0 < q.length := List.length_pos_iff.mpr empty
    have all : q = rs' := start.eq_of_length (by have := start.length_le; omega)
    refine ⟨1, ?_⟩
    have before : KeyedLog.run (fun _ => none) ((snap ++ log ++ buf).map recEvent) =
        w.store.index.rows := sound.rows
    have after : KeyedLog.run (fun _ => none) ((snap ++ log' ++ buf').map recEvent) =
        (w.step call).store.index.rows := sound'.rows
    rw [all, whole, ← before, ← run_recs_append, ← joined, after]

/-- A call that queues nothing and changes no row. -/
theorem Sole.brings_none (sound : (w.journal (snap ++ log ++ buf)).Sound w.store.inst)
    {call : Env × Call} (sole : Sole (w.step call) [] snap log buf)
    (inst : (w.step call).store.inst = w.store.inst)
    (index : (w.step call).store.index = w.store.index)
    (dirty : (w.step call).store.dirty = w.store.dirty) :
    Brings w call snap log buf log buf [] where
  sole := sole
  inst := inst
  sound := by
    rw [World.journal, index, dirty]
    exact sound
  grown := List.prefix_rfl
  moved := (List.append_nil _).symm
  within := by
    intro q start
    rw [List.prefix_nil.mp start]
    exact ⟨0, (w.within_zero _).symm⟩

theorem Sole.brings_resolve (sole : Sole w [] snap log buf)
    (sound : (w.journal (snap ++ log ++ buf)).Sound w.store.inst) (env : Env) (code : String) :
    ∃ log' buf' rs, Brings w (env, .resolve code) snap log buf log' buf' rs := by
  cases found : w.store.index.lookup code with
  | some ent =>
      by_cases alive : Inner.live ent (env.clock 0) = true
      · have bumped : w.step (env, .resolve code) = ⟨w.store.bump env code ent, w.dir⟩ := by
          simp only [World.step, Inner.resolve, found, if_pos alive]
        refine sole.brings_once sound ?_ rfl
        rw [bumped]
        exact sole.toHolds.bumpBy env fun _ =>
          ⟨rfl, ⟨_, .hit found⟩, [], (List.append_nil _).symm, Nat.zero_le 1⟩
      · have same : w.step (env, .resolve code) = w := by
          simp only [World.step, Inner.resolve, found, if_neg alive]
        exact ⟨log, buf, [], Sole.brings_none sound (by rw [same]; exact sole) (by rw [same])
          (by rw [same]) (by rw [same])⟩
  | none =>
      obtain ⟨readers', lastPoll', unread', missed⟩ := sole.tailMissed env code
      have same : w.step (env, .resolve code) =
          ⟨{ w.store with readers := readers', lastPoll := lastPoll' }, w.dir⟩ := by
        simp only [World.step, Inner.resolve, found, sole.queue, missed]
      have sole' : Sole (w.step (env, .resolve code)) [] snap log buf := by
        rw [same]
        exact ⟨⟨sole.opened, sole.snapBytes, sole.logFile, sole.queue⟩, sole.alone, unread'⟩
      exact ⟨log, buf, [], Sole.brings_none sound sole' (by rw [same]) (by rw [same])
        (by rw [same])⟩

theorem Sole.brings_poll (sole : Sole w [] snap log buf)
    (sound : (w.journal (snap ++ log ++ buf)).Sound w.store.inst) (env : Env) :
    Brings w (env, .poll) snap log buf log buf [] := by
  obtain ⟨readers', unread', polled⟩ := sole.pollLocked env
  have same : w.step (env, .poll) =
      ⟨{ w.store with readers := readers', lastPoll := env.clock 2 }, w.dir⟩ := by
    simp only [World.step, Inner.pollTails, sole.queue, polled]
  have sole' : Sole (w.step (env, .poll)) [] snap log buf := by
    rw [same]
    exact ⟨⟨sole.opened, sole.snapBytes, sole.logFile, sole.queue⟩, sole.alone, unread'⟩
  exact Sole.brings_none sound sole' (by rw [same]) (by rw [same]) (by rw [same])

theorem Sole.brings_shortenMany (sole : Sole w [] snap log buf)
    (sound : (w.journal (snap ++ log ++ buf)).Sound w.store.inst) (env : Env)
    (urls : List String) (ttl : Int64) :
    ∃ log' buf' rs, Brings w (env, .shortenMany urls ttl) snap log buf log' buf' rs := by
  cases result : w.store.shortenMany env w.dir urls ttl with
  | none =>
      have same : w.step (env, .shortenMany urls ttl) = w := by simp only [World.step, result]
      exact ⟨log, buf, [], Sole.brings_none sound (by rw [same]; exact sole) (by rw [same])
        (by rw [same]) (by rw [same])⟩
  | some outcome =>
      have called := result
      simp only [Inner.shortenMany] at called
      split at called
      · cases called
      rename_i enough
      obtain ⟨⟨index, rows, codes⟩, done, rfl⟩ := Option.map_eq_some_iff.mp called
      have names : (urls.zip env.rng).map Prod.fst = urls := List.map_fst_zip (by omega)
      obtain ⟨drawn, made, plain, bytes, landed⟩ := bulk_rows done
      rw [List.nil_append] at made bytes
      subst made
      rw [names] at bytes landed
      let rs := newRows w.store.inst (env.clock 0) (expiry (env.clock 0) ttl) urls codes
      have indexed : Sole ⟨{ w.store with index := index }, w.dir⟩ [] snap log buf :=
        ⟨⟨sole.opened, sole.snapBytes, sole.logFile, sole.queue⟩, sole.alone, sole.unread⟩
      obtain ⟨s', dir', log', buf', queued, holds, grown, moved, inst, index', dirty⟩ :=
        indexed.toHolds.logRaw rs
      have frame := frame_logRaw { w.store with index := index } w.dir (logBytes rs)
      rw [queued] at frame
      have stepped : w.step (env, .shortenMany urls ttl) = ⟨s', dir'⟩ := by
        simp only [World.step, result, bytes]
        exact congrArg (fun done : Inner × Dir => World.mk done.1 done.2) queued
      have extended : Extends False [] snap snap log buf w (w.step (env, .shortenMany urls ttl)) :=
        sole.toHolds.shortenMany env urls ttl False.elim
      obtain ⟨_, _, _, -, -, -, -, path⟩ := extended
      have other := sound.path path
      rw [stepped] at other
      have joined : snap ++ log' ++ buf' = snap ++ log ++ buf ++ rs := by
        rw [List.append_assoc, moved]
        simp
      have sound' : (World.journal ⟨s', dir'⟩ (snap ++ log' ++ buf')).Sound w.store.inst := by
        rw [joined]
        refine ⟨sound.allOk.append ?_, ?_, other.mine, other.dirtyPlain, ?_⟩
        · exact fun r among => (newRows_spec plain r among).1
        · intro r among
          rcases List.mem_append.mp among with old | new
          · exact sound.own r old
          · exact (newRows_spec plain r new).2
        · have before : KeyedLog.run (fun _ => none) ((snap ++ log ++ buf).map recEvent) =
              w.store.index.rows := sound.rows
          dsimp only [World.journal]
          rw [run_recs_append, before, index']
          exact landed.symm
      refine ⟨log', buf', rs, ?_, ?_, ?_, grown, moved, ?_⟩
      · rw [stepped]
        exact holds.sole indexed frame
      · rw [stepped]
        exact inst
      · rw [stepped]
        exact sound'
      · intro q start
        refine ⟨q.length, ?_⟩
        simp only [World.within, result]
        rw [← run_newRows]
        exact congrArg (fun l => KeyedLog.run w.store.index.rows (l.map recEvent))
          (List.prefix_iff_eq_take.mp start)

/-- Every call that does not write the queue out. -/
theorem Sole.brings (sole : Sole w [] snap log buf)
    (sound : (w.journal (snap ++ log ++ buf)).Sound w.store.inst) {call : Env × Call}
    (queues : call.2.settles = false) :
    ∃ log' buf' rs, Brings w call snap log buf log' buf' rs := by
  obtain ⟨env, call⟩ := call
  cases call with
  | shorten url aliasCode ttl =>
      refine sole.brings_once sound ?_ rfl
      exact sole.toHolds.shortenBy env url aliasCode ttl fun c now exp _ plain fresh =>
        ⟨rfl, ⟨_, .create plain fresh url now exp⟩, _, rfl, Nat.le_refl 1⟩
  | shortenMany urls ttl => exact sole.brings_shortenMany sound env urls ttl
  | update code url ttl hasTtl =>
      refine sole.brings_once sound ?_ rfl
      exact sole.toHolds.updateBy env code url ttl hasTtl fun ent exp found _ =>
        ⟨rfl, ⟨_, .amend found url exp⟩, _, rfl, Nat.le_refl 1⟩
  | remove code =>
      refine sole.brings_once sound ?_ rfl
      exact sole.toHolds.removeBy env code fun ent found _ =>
        ⟨rfl, ⟨_, .drop found⟩, _, rfl, Nat.le_refl 1⟩
  | resolve code => exact sole.brings_resolve sound env code
  | poll => exact ⟨log, buf, [], sole.brings_poll sound env⟩
  | flush => cases queues
  | compact => cases queues
  | restart => cases queues

end Calls

/-! ## Killed and reopened -/

/-- The rows within some call of a list, with at least the first calls done. -/
def LandsIn (w₀ : World) (calls : List (Env × Call)) (least most : Nat)
    (rows : String → Option Row) : Prop :=
  ∃ n j, least ≤ n ∧ n ≤ most ∧ rows = (w₀.run (calls.take n)).within j calls[n]?

theorem LandsIn.concat {w₀ : World} {calls : List (Env × Call)} {least : Nat}
    {rows : String → Option Row} (lands : LandsIn w₀ calls least calls.length rows)
    (call : Env × Call) : LandsIn w₀ (calls ++ [call]) least calls.length rows := by
  obtain ⟨n, j, low, high, rfl⟩ := lands
  rcases Nat.lt_or_eq_of_le high with inside | rfl
  · refine ⟨n, j, low, high, ?_⟩
    rw [List.take_append_of_le_length high, List.getElem?_append_left inside]
  · refine ⟨calls.length, 0, low, le_rfl, ?_⟩
    rw [List.take_left, List.take_length, List.getElem?_eq_none le_rfl, World.within_zero]
    rfl

/-- Every first part of what the store wrote or queued, from the log on, leads to rows
that were there within some call. -/
def Trail (w₀ : World) (history : List (Env × Call)) : Prop :=
  (w₀.run history).store.inst = w₀.store.inst ∧
  ∃ snap log buf, Sole (w₀.run history) [] snap log buf ∧
    ((w₀.run history).journal (snap ++ log ++ buf)).Sound (w₀.run history).store.inst ∧
    ∀ p, log <+: p → p <+: log ++ buf →
      LandsIn w₀ history (settledCalls history) history.length (rowsOf (snap ++ p))

/-- The same of what a next call queues. -/
theorem lands_next {w₀ : World} {history : List (Env × Call)} {snap log buf rs : List Rec}
    (sound : ((w₀.run history).journal (snap ++ log ++ buf)).Sound (w₀.run history).store.inst)
    (lands : ∀ p, log <+: p → p <+: log ++ buf →
      LandsIn w₀ history (settledCalls history) history.length (rowsOf (snap ++ p)))
    {call : Env × Call}
    (within : ∀ q, q <+: rs → ∃ j,
      KeyedLog.run (w₀.run history).store.index.rows (q.map recEvent) =
        (w₀.run history).within j (some call))
    {p : List Rec} (behind : log <+: p) (start : p <+: log ++ buf ++ rs) :
    LandsIn w₀ (history ++ [call]) (settledCalls history) history.length (rowsOf (snap ++ p)) := by
  rcases cut_append start with ⟨early, -⟩ | ⟨q, rfl, late⟩
  · exact (lands p behind early).concat call
  · obtain ⟨j, reached⟩ := within q late
    refine ⟨history.length, j, settledCalls_le history, le_rfl, ?_⟩
    have before : KeyedLog.run (fun _ => none) ((snap ++ log ++ buf).map recEvent) =
        (w₀.run history).store.index.rows := sound.rows
    rw [List.take_left, List.getElem?_concat_length, ← reached, rowsOf, ← List.append_assoc,
      ← List.append_assoc, run_recs_append, before]

theorem eq_nil_of_logBytes {rs : List Rec} (empty : logBytes rs = []) : rs = [] := by
  cases rs with
  | nil => rfl
  | cons r rs =>
      rw [logBytes_cons] at empty
      simp at empty

/-- The calls that write the queue out leave none. -/
theorem Sole.queue_settled {w : World} {snap log buf : List Rec} (sole : Sole w [] snap log buf)
    {call : Env × Call} (settles : call.2.settles = true) :
    (w.step call).store.aof = some ⟨[]⟩ := by
  obtain ⟨env, call⟩ := call
  cases call with
  | flush => simp only [World.step, flushLocked_eq env sole.queue]
  | compact =>
      simp only [World.step, Inner.compact, sole.queue, flushLocked_eq env sole.queue,
        Aof.truncate_eq]
  | restart => simp only [World.step, World.reopen, Inner.new]
  | shorten url aliasCode ttl => cases settles
  | shortenMany urls ttl => cases settles
  | update code url ttl hasTtl => cases settles
  | remove code => cases settles
  | resolve code => cases settles
  | poll => cases settles

theorem Trail.concat {w₀ : World} {history : List (Env × Call)} (trail : Trail w₀ history)
    (call : Env × Call) : Trail w₀ (history ++ [call]) := by
  obtain ⟨own, snap, log, buf, sole, sound, lands⟩ := trail
  have next : w₀.run (history ++ [call]) = (w₀.run history).step call := by
    rw [World.run, List.foldl_concat]
    rfl
  rw [Trail, next, settledCalls_concat, List.length_append, List.length_singleton]
  cases settles : call.2.settles with
  | false =>
      obtain ⟨log', buf', rs, brings⟩ := sole.brings sound settles
      refine ⟨brings.inst.trans own, snap, log', buf', brings.sole, brings.inst ▸ brings.sound,
        fun p behind start => ?_⟩
      rw [brings.moved] at start
      obtain ⟨n, j, low, high, rows⟩ :=
        lands_next sound lands brings.within (brings.grown.trans behind) start
      exact ⟨n, j, low, by omega, rows⟩
  | true =>
      obtain ⟨snap', log', buf', sole', inst, path⟩ := sole.step sound call
      have sound' := sound.path path
      have queue : some (⟨[]⟩ : Aof) = some ⟨logBytes buf'⟩ :=
        (sole.queue_settled settles).symm.trans sole'.queue
      have none_left : buf' = [] :=
        eq_nil_of_logBytes (congrArg Aof.buf (Option.some.inj queue)).symm
      subst none_left
      refine ⟨inst.trans own, snap', log', [], sole', inst ▸ sound', fun p behind start => ?_⟩
      rw [List.append_nil] at start
      have all : p = log' := start.eq_of_length_le behind.length_le
      refine ⟨history.length + 1, 0, by simp, le_rfl, ?_⟩
      have length : history.length + 1 = (history ++ [call]).length := by simp
      have rows : KeyedLog.run (fun _ => none) ((snap' ++ log' ++ []).map recEvent) =
          ((w₀.run history).step call).store.index.rows := sound'.rows
      rw [all, length, List.take_length, World.within_zero, next, ← rows, List.append_nil, rowsOf]

theorem trail_run (env : Env) (inst : Inst) (history : List (Env × Call)) :
    Trail (World.fresh env inst) history := by
  induction history using List.reverseRecOn with
  | nil =>
      obtain ⟨snap, log, buf, sole, sound⟩ := (hitsSettled_fresh env inst).settled
      have queue : some (⟨[]⟩ : Aof) = some ⟨logBytes buf⟩ := sole.queue
      have none_left : buf = [] :=
        eq_nil_of_logBytes (congrArg Aof.buf (Option.some.inj queue)).symm
      subst none_left
      refine ⟨rfl, snap, log, [], sole, sound, fun p behind start => ⟨0, 0, le_rfl, le_rfl, ?_⟩⟩
      rw [List.append_nil] at start
      have rows : KeyedLog.run (fun _ => none) ((snap ++ log ++ []).map recEvent) =
          (World.fresh env inst).store.index.rows := sound.rows
      rw [start.eq_of_length_le behind.length_le, List.take_nil, World.run_nil,
        World.within_zero, ← rows, List.append_nil, rowsOf]
  | append_singleton history call ih => exact ih.concat call

/-- What a call that writes the queue out appends: the queue, then hits. -/
theorem Sole.drains {w : World} {snap log buf : List Rec} (sole : Sole w [] snap log buf)
    (sound : (w.journal (snap ++ log ++ buf)).Sound w.store.inst) {call : Env × Call}
    (settles : call.2.settles = true) :
    ∃ hits, AllOk (snap ++ (log ++ (buf ++ hits))) ∧
      (w.step (World.writing call)).dir.read (.log w.store.inst) =
        logBytes (log ++ (buf ++ hits)) ∧
      ∀ q, q <+: hits →
        ∃ j, KeyedLog.run w.store.index.rows (q.map recEvent) = w.within j (some call) := by
  obtain ⟨dir', flushed, holds⟩ := sole.toHolds.flushLocked call.1
  have drained := (sound.path (drain_path w snap log buf call.1 True)).allOk
  rw [List.append_nil, List.append_assoc] at drained
  refine ⟨_, drained, ?_, fun q within => ⟨0, ?_⟩⟩
  · rw [World.writing, if_pos settles, ← List.append_assoc]
    simp only [World.step, flushed]
    exact holds.logFile
  · rw [World.within_zero]
    obtain ⟨counts, -, rfl⟩ := List.prefix_map_iff.mp within
    exact run_hitRecs _ _ _

/-- What is reopened after the process died while it appended to the log. -/
theorem Sole.rows_cutLog {w : World} {snap log buf more : List Rec} (sole : Sole w [] snap log buf)
    {call : Env × Call} (ok : AllOk (snap ++ (log ++ more)))
    (logFile : (w.step (World.writing call)).dir.read (.log w.store.inst) =
      logBytes (log ++ more)) (k : Nat) (reopening : Env) :
    ∃ q, q <+: more ∧
      (World.openOn reopening (w.cutLog call k) w.store.inst).store.index.rows =
        rowsOf (snap ++ (log ++ q)) := by
  have okSnap : AllOk snap := fun r hr => ok r (List.mem_append_left _ hr)
  have okAll : AllOk (log ++ more) := fun r hr => ok r (List.mem_append_right _ hr)
  have before : w.dir.read (.log w.store.inst) = logBytes log := sole.logFile
  have appended : w.logged call = logBytes more := by
    rw [World.logged, logFile, before, logBytes_append, List.drop_left]
  obtain ⟨q, start, read⟩ := readOps_cut okAll k
  refine ⟨q, start, ?_⟩
  have snapBytes : (w.cutLog call k).read (.snap w.store.inst) = logBytes snap := by
    rw [World.cutLog, Dir.read_write_other (by simp), sole.snapBytes]
  have cutFile : (w.cutLog call k).read (.log w.store.inst) =
      (logBytes log ++ (logBytes more).take k) ++ logBytes [] := by
    rw [World.cutLog, Dir.read_write_same, before, appended, logBytes_nil, List.append_nil]
  have alone : ∀ i, i ≠ w.store.inst → w.cutLog call k (.log i) = none := by
    intro i other
    rw [World.cutLog, Dir.write_other (by simpa using other), sole.alone i other]
  obtain ⟨s', dir', opened, -, -, -, index⟩ :=
    new_front reopening okSnap snapBytes cutFile alone false
  have okCut : AllOk (snap ++ (log ++ q)) := by
    intro r among
    rcases List.mem_append.mp among with old | new
    · exact okSnap r old
    · rcases List.mem_append.mp new with first | last
      · exact okAll r (List.mem_append_left _ first)
      · exact okAll r (List.mem_append_right _ (start.subset last))
  have replayed : (World.openOn reopening (w.cutLog call k) w.store.inst).store.index =
      (replay reopening w.store.inst .empty (snap ++ (log ++ q))).index := by
    rw [World.openOn, opened]
    change s'.index = _
    rw [index, logBytes_nil, List.append_nil, read, replay_append]
    rfl
  rw [replayed, rows_replay reopening w.store.inst okCut]
  rfl

theorem cutLog_keeps_prefix (env reopening : Env) (inst : Inst) (history : List (Env × Call))
    (call : Env × Call) (k : Nat) :
    LandsIn (World.fresh env inst) (history ++ [call]) (settledCalls history) history.length
      (World.openOn reopening (((World.fresh env inst).run history).cutLog call k)
        inst).store.index.rows := by
  obtain ⟨own, snap, log, buf, sole, sound, lands⟩ := trail_run env inst history
  change ((World.fresh env inst).run history).store.inst = inst at own
  cases settles : call.2.settles with
  | false =>
      obtain ⟨log', buf', rs, brings⟩ := sole.brings sound settles
      obtain ⟨more, rfl⟩ := brings.grown
      have logFile : (((World.fresh env inst).run history).step (World.writing call)).dir.read
          (.log ((World.fresh env inst).run history).store.inst) = logBytes (log ++ more) := by
        rw [World.writing, settles, if_neg Bool.false_ne_true, ← brings.inst]
        exact brings.sole.logFile
      have ok : AllOk (snap ++ (log ++ more)) := fun r hr =>
        brings.sound.allOk r (List.mem_append_left _ hr)
      obtain ⟨q, start, rows⟩ := sole.rows_cutLog ok logFile k reopening
      rw [own] at rows
      rw [rows]
      refine lands_next sound lands brings.within (List.prefix_append _ _) ?_
      rw [← brings.moved]
      exact ((List.prefix_append_right_inj log).mpr start).trans (List.prefix_append _ _)
  | true =>
      obtain ⟨hits, ok, logFile, within⟩ := sole.drains sound settles
      obtain ⟨q, start, rows⟩ := sole.rows_cutLog ok logFile k reopening
      rw [own] at rows
      rw [rows]
      refine lands_next sound lands within (List.prefix_append _ _) ?_
      rw [List.append_assoc]
      exact (List.prefix_append_right_inj log).mpr start

/-- A compaction writes what the next flush would write, and then no other row. -/
theorem Sole.rows_compactUntil {w : World} {snap log buf : List Rec} (sole : Sole w [] snap log buf)
    (sound : (w.journal (snap ++ log ++ buf)).Sound w.store.inst) (compacting reopening : Env)
    (point : CrashPoint) :
    (World.openOn reopening (w.store.compactUntil compacting w.dir point)
      w.store.inst).store.index.rows = w.store.index.rows := by
  obtain ⟨log', flushed, -⟩ := flushed_step sole sound compacting
  have settled := flushed.flushLocked compacting
  have rows := flushed.rows_new compacting reopening point
  have queue : w.store.aof = some ⟨logBytes buf⟩ := sole.queue
  simp only [Inner.compactUntil, settled] at rows
  simp only [World.step, flushLocked_eq compacting queue] at rows
  simp only [Inner.compactUntil, flushLocked_eq compacting queue]
  exact rows

/-- The rows of a store that is reopened after its process died, at any byte that it was
writing and at any point of a compaction: those after a first part of the calls, at least up
to the last one that wrote the queue out, or those within the next call. -/
theorem killed_keeps_prefix (env reopening : Env) (inst : Inst) (history : List (Env × Call))
    (call : Env × Call) (k : Nat) (point : CrashPoint) :
    ∃ n j, settledCalls history ≤ n ∧ n ≤ history.length ∧
      (World.openOn reopening (((World.fresh env inst).run history).killed call k point)
          inst).store.index.rows =
        ((World.fresh env inst).run ((history ++ [call]).take n)).within j
          (history ++ [call])[n]? := by
  rw [World.killed]
  split
  · split
    · refine ⟨history.length, 0, settledCalls_le history, le_rfl, ?_⟩
      obtain ⟨own, snap, log, buf, sole, sound, -⟩ := trail_run env inst history
      have rows := sole.rows_compactUntil sound call.1 reopening point
      rw [own] at rows
      rw [List.take_left, World.within_zero]
      exact rows
    · exact cutLog_keeps_prefix env reopening inst history call k
  · exact cutLog_keeps_prefix env reopening inst history call k

end Shrt.Store
