import Mathlib.Data.List.Basic
import Shrt.Codec.Torn
import Shrt.Store.Restart

/-!
# Reopening after a torn write

A crash in the middle of a write leaves a log that ends in the beginning of a
line.  Replay skips that tail, but the log is reopened for appending, so the
first line written later continues the torn one.  What a second reopen makes
of it depends on where the write was cut.
-/

namespace Shrt.Store

open Shrt.Codec Shrt.Lib Shrt.Lib.Framing Shrt.Lib.Runs

/-- A directory with one instance's snapshot and a log that ends in a torn
write. -/
def tornDir (inst : Inst) (snap recs : List Rec) (tail : Bytes) : Dir :=
  (Dir.empty.write (.snap inst) (logBytes snap)).write (.log inst) (logBytes recs ++ tail)

/-- `LocalStore::new` on a directory. -/
def World.openOn (env : Env) (dir : Dir) (inst : Inst) : World :=
  let opened := Inner.new env dir inst false
  ⟨opened.1, opened.2⟩

/-- The calls that create, change or remove one link. -/
def Call.mutates : Call → Bool
  | .shorten _ _ _ | .update _ _ _ _ | .remove _ => true
  | _ => false

/-- Whatever was logged before the torn write and whatever is done and flushed
after it, a second reopen gives the rows in memory. -/
def Recovers (tail : Bytes) : Prop :=
  ∀ (inst : Inst) (snap recs : List Rec), AllOk (snap ++ recs) →
    (∀ r ∈ snap ++ recs, r.Own inst) →
    ∀ (opening flushing reopening : Env) (history : List (Env × Call)),
      (∀ call ∈ history, call.2.mutates = true) →
      let w := (World.openOn opening (tornDir inst snap recs tail) inst).run history
      ((w.step (flushing, .flush)).reopen reopening).store.index.rows = w.store.index.rows

/-! ## Reading a spliced log -/

theorem readOps_tail {tail : Bytes} (free : NL ∉ tail) : readOps tail = [] := by
  rw [readOps, lines, scan_of_not_mem [] free]
  rfl

/-- The first line behind a torn tail is read together with it. -/
theorem readOps_spliced {tail : Bytes} (free : NL ∉ tail) {r : Rec} {rs : List Rec}
    (ok : AllOk (r :: rs)) :
    readOps (tail ++ logBytes (r :: rs)) = (parseOp (tail ++ r.line)).toList ++ rs.map Rec.op := by
  have okHead : r.Ok := ok r List.mem_cons_self
  have okTail : AllOk rs := fun s hs => ok s (List.mem_cons_of_mem _ hs)
  have freeLine : NL ∉ tail ++ r.line := by
    rw [List.mem_append, not_or]
    exact ⟨free, NL_not_mem_line okHead⟩
  have filled : tail ++ r.line ≠ [] := by simp [line_ne_nil r]
  have rest : (scan NL [] (logBytes rs)).1.filterMap parseOp = rs.map Rec.op :=
    readOps_logBytes okTail
  rw [logBytes_cons, ← List.append_assoc, readOps, lines, scan_line freeLine filled]
  cases parsed : parseOp (tail ++ r.line) with
  | none => rw [List.filterMap_cons_none parsed, rest]; rfl
  | some o => rw [List.filterMap_cons_some parsed, rest]; rfl

/-- On top of clean fields a record does what it does alone. -/
theorem apply_onto (env : Env) (inst : Inst) {o : Op} (clean : o.Clean) {r : Rec} (ok : r.Ok)
    (v : View) : apply env inst v (r.onto o) = apply env inst v r.op := by
  obtain ⟨noHit, noDel, noExpiry⟩ := clean
  cases r with
  | row c u a e i n =>
      by_cases never : e = 0 <;>
        simp [apply, Rec.onto, Rec.op, noHit, noDel, noExpiry, never]
  | hit c d i =>
      have named : c ≠ "" := ok.nonempty
      simp [apply, Rec.onto, Rec.op, noDel, named]
  | del c =>
      have named : c ≠ "" := ok.nonempty
      simp [apply, Rec.onto, Rec.op, named]

/-- Behind a safe tail the later records are replayed as if it were not there. -/
theorem foldl_spliced (env : Env) (inst : Inst) {tail : Bytes} (safe : SafeTail tail)
    (free : NL ∉ tail) {rs : List Rec} (ok : AllOk rs) (v : View) :
    (readOps (tail ++ logBytes rs)).foldl (apply env inst) v = replay env inst v rs := by
  cases rs with
  | nil =>
      rw [logBytes_nil, List.append_nil, readOps_tail free]
      rfl
  | cons r rs =>
      have okHead : r.Ok := ok r List.mem_cons_self
      obtain ⟨o, clean, resumes⟩ := safe.parse_append
      have parsed : parseOp (tail ++ r.line) = some (r.onto o) := by
        rw [parseOp_eq, resumes, parse_line okHead, Option.filter_some, onto_named okHead]
        rfl
      rw [readOps_spliced free ok, parsed, Option.toList_some, List.singleton_append,
        List.foldl_cons, apply_onto env inst clean okHead]
      rfl

/-! ## Opening, running and opening again -/

/-- The first open replays the records and leaves the tail where it is. -/
theorem openOn_torn (env : Env) (inst : Inst) {snap recs : List Rec} (ok : AllOk (snap ++ recs))
    {tail : Bytes} (free : NL ∉ tail) :
    ∃ w, World.openOn env (tornDir inst snap recs tail) inst = w ∧
      Sole w (logBytes recs ++ tail) snap [] [] ∧ w.store.inst = inst ∧ w.store.dirty = ∅ ∧
      w.store.index = (replay env inst .empty (snap ++ recs)).index := by
  have okSnap : AllOk snap := fun r hr => ok r (List.mem_append_left _ hr)
  have okRecs : AllOk recs := fun r hr => ok r (List.mem_append_right _ hr)
  have snapBytes : (tornDir inst snap recs tail).read (.snap inst) = logBytes snap := by
    rw [tornDir, Dir.read_write_other (by simp), Dir.read_write_same]
  have logFile : (tornDir inst snap recs tail).read (.log inst) =
      (logBytes recs ++ tail) ++ logBytes [] := by
    rw [tornDir, Dir.read_write_same, logBytes_nil, List.append_nil]
  have alone : ∀ k, k ≠ inst → tornDir inst snap recs tail (.log k) = none := by
    intro k other
    have apart : FileName.log k ≠ .log inst := by simpa using other
    rw [tornDir, Dir.write_other apart, Dir.write_other (by simp)]
    rfl
  obtain ⟨s', dir', opened, sole, inst', dirty', index'⟩ :=
    new_front env okSnap snapBytes logFile alone false
  refine ⟨⟨s', dir'⟩, by rw [World.openOn, opened], sole, inst', dirty', ?_⟩
  change s'.index = _
  rw [index', logBytes_nil, List.append_nil, readOps_logBytes_append okRecs, readOps_tail free,
    List.append_nil, replay_append]
  rfl

/-- A flush and a second open: the later records are read behind the tail. -/
theorem reopen_torn {w : World} {snap recs log buf : List Rec} {tail : Bytes}
    (sole : Sole w (logBytes recs ++ tail) snap log buf) (okSnap : AllOk snap)
    (okRecs : AllOk recs) (flushing reopening : Env) :
    ((w.step (flushing, .flush)).reopen reopening).store.index =
      ((readOps (tail ++ logBytes (log ++ buf ++
          hitRecs w.store.inst (flushing.dirtyOrder.iter w.store.dirty)))).foldl
        (apply reopening w.store.inst)
        (replay reopening w.store.inst .empty (snap ++ recs))).index := by
  obtain ⟨dir', flushed, sole'⟩ := sole.flushLocked flushing
  obtain ⟨s'', dir'', opened, -, -, -, index''⟩ :=
    new_front reopening okSnap sole'.snapBytes sole'.logFile sole'.alone false
  have result : (w.step (flushing, .flush)).reopen reopening = ⟨s'', dir''⟩ := by
    simp only [World.step, flushed, World.reopen]
    exact congrArg (fun opened : Inner × Dir => World.mk opened.1 opened.2) opened
  rw [result]
  change s''.index = _
  rw [index'', List.append_assoc, readOps_logBytes_append okRecs, List.foldl_append,
    replay_append]
  rfl

/-- With a single later record, its line is all that is read behind the tail. -/
theorem reopen_torn_one {w : World} {recs log buf : List Rec} {tail : Bytes} (free : NL ∉ tail)
    (sole : Sole w (logBytes recs ++ tail) [] log buf) (okRecs : AllOk recs)
    (idle : w.store.dirty = ∅) {r : Rec} (ok : r.Ok) (one : log ++ buf = [r])
    (flushing reopening : Env) :
    ((w.step (flushing, .flush)).reopen reopening).store.index =
      ((parseOp (tail ++ r.line)).toList.foldl (apply reopening w.store.inst)
        (replay reopening w.store.inst .empty recs)).index := by
  have okOne : AllOk [r] := by
    rw [AllOk, List.forall_mem_singleton]
    exact ok
  have later : log ++ buf ++ hitRecs w.store.inst (flushing.dirtyOrder.iter w.store.dirty) =
      [r] := by
    rw [idle, IterOrder.iter_empty, one]
    rfl
  rw [reopen_torn sole allOk_nil okRecs, later, readOps_spliced free okOne, List.map_nil,
    List.append_nil, List.nil_append]

/-- The store opened on a torn log, after some later calls. -/
def Resumed (inst : Inst) (front : Bytes) (snap recs : List Rec) (w : World) : Prop :=
  ∃ log buf, Sole w front snap log buf ∧ w.store.inst = inst ∧
    (w.journal (snap ++ recs ++ log ++ buf)).Sound inst

theorem Resumed.step {inst : Inst} {front : Bytes} {snap recs : List Rec} {w : World}
    (resumed : Resumed inst front snap recs w) {call : Env × Call}
    (mutates : call.2.mutates = true) : Resumed inst front snap recs (w.step call) := by
  obtain ⟨log, buf, sole, rfl, sound⟩ := resumed
  have extended : Extends False front snap (snap ++ recs) log buf w (w.step call) := by
    obtain ⟨env, call⟩ := call
    cases call with
    | shorten url aliasCode ttl => exact sole.shorten env url aliasCode ttl False.elim
    | update code url ttl hasTtl =>
        exact sole.update env code url ttl hasTtl False.elim
    | remove code => exact sole.remove env code
    | shortenMany urls ttl => cases mutates
    | resolve code => cases mutates
    | flush => cases mutates
    | compact => cases mutates
    | poll => cases mutates
    | restart => cases mutates
  obtain ⟨log', buf', rs, holds, frame, -, -, path⟩ := extended
  exact ⟨log', buf', holds.sole sole frame, frame.inst, sound.path path⟩

theorem resumed_run {inst : Inst} {snap recs : List Rec} (ok : AllOk (snap ++ recs))
    (own : ∀ r ∈ snap ++ recs, r.Own inst) {tail : Bytes} (free : NL ∉ tail) (opening : Env)
    {history : List (Env × Call)} (mutates : ∀ call ∈ history, call.2.mutates = true) :
    Resumed inst (logBytes recs ++ tail) snap recs
      ((World.openOn opening (tornDir inst snap recs tail) inst).run history) := by
  have start : Resumed inst (logBytes recs ++ tail) snap recs
      (World.openOn opening (tornDir inst snap recs tail) inst) := by
    obtain ⟨w, opened, sole, inst', dirty', index'⟩ := openOn_torn opening inst ok free
    rw [opened]
    refine ⟨[], [], sole, inst', ?_⟩
    rw [World.journal, index', dirty', List.append_nil, List.append_nil]
    exact Journal.sound_replay opening ok own
  induction history using List.reverseRecOn with
  | nil => exact start
  | append_singleton history call ih =>
      rw [World.run, List.foldl_append]
      exact (ih fun c hc => mutates c (List.mem_append_left _ hc)).step (mutates call (by simp))

/-- A safe tail is harmless after every history. -/
theorem recovers_of_safe {tail : Bytes} (safe : SafeTail tail) (free : NL ∉ tail) :
    Recovers tail := by
  intro inst snap recs ok own opening flushing reopening history mutates
  have okSnap : AllOk snap := fun r hr => ok r (List.mem_append_left _ hr)
  have okRecs : AllOk recs := fun r hr => ok r (List.mem_append_right _ hr)
  obtain ⟨log, buf, sole, inst', sound⟩ := resumed_run ok own free opening mutates
  dsimp only
  rw [reopen_torn sole okSnap okRecs flushing reopening, inst']
  generalize (World.openOn opening (tornDir inst snap recs tail) inst).run history = w at *
  have drained := drain_path w (snap ++ recs) log buf flushing True
  rw [inst'] at drained
  have soundDrained := sound.path drained
  rw [List.append_nil] at soundDrained
  have okLater : AllOk (log ++ buf ++ hitRecs inst (flushing.dirtyOrder.iter w.store.dirty)) :=
    fun r hr => soundDrained.allOk r (List.mem_append_right _ hr)
  rw [foldl_spliced reopening inst safe free okLater, ← replay_append]
  exact soundDrained.rows_replay reopening

/-! ## Tails that lose a call -/

/-- An operation that is no tombstone removes nothing. -/
theorem lookup_apply_ne_none (env : Env) (inst : Inst) {o : Op} (noDel : o.x = "") {v : View}
    {c : String} (live : v.index.lookup c ≠ none) :
    (apply env inst v o).index.lookup c ≠ none := by
  have kept : ∀ k ent, (v.index.insert k ent).lookup c ≠ none := by
    intro k ent
    rw [Map.lookup_insert_eq]
    split
    · exact Option.some_ne_none ent
    · exact live
  rw [apply, if_neg (by simpa using noDel)]
  split
  · cases v.index.lookup o.h with
    | none => exact live
    | some ent => exact kept o.h _
  · split
    · exact live
    · exact kept o.c _

/-- An operation that is no plain row creates no link without expiry. -/
theorem apply_empty_of_harm (env : Env) (inst : Inst) {o : Op}
    (harm : o.x ≠ "" ∨ o.h ≠ "" ∨ o.hasE = true ∧ o.e ≠ 0) {c : String} {ent : Entry}
    (found : (apply env inst .empty o).index.lookup c = some ent) : ent.e ≠ 0 := by
  rw [apply] at found
  split at found
  · rw [Map.lookup_erase_eq] at found
    split at found
    · cases found
    · cases found
  · split at found
    · simp [View.empty] at found
    · split at found
      · simp [View.empty] at found
      · rename_i noDel noHit named
        have expiry := (harm.resolve_left noDel).resolve_left noHit
        simp only [View.empty, expiry.1, if_true] at found
        rw [Map.lookup_insert_eq] at found
        split at found
        · cases found
          exact expiry.2
        · cases found

theorem parse_of_parseOp {b : Bytes} {o : Op} (parsed : parseOp b = some o) :
    parse b {} = some o := by
  rw [parseOp_eq] at parsed
  exact (Option.filter_eq_some_iff.mp parsed).1

theorem plain_promo : Plain "promo" := Plain.of_codeOk promo.property

/-- A link in the log before the torn write. -/
def promoRow : Rec := .row "promo" "https://a" 1 0 0 0

theorem ok_promoRow : AllOk ([] ++ [promoRow]) := by
  rw [List.nil_append, AllOk, List.forall_mem_singleton]
  exact plain_promo

theorem own_promoRow : ∀ r ∈ [] ++ [promoRow], r.Own 0 := by
  rw [List.nil_append, List.forall_mem_singleton]
  exact rfl

/-- Removing the only link behind a tail that loses tombstones. -/
theorem not_recovers_of_losesDel {tail : Bytes} (free : NL ∉ tail) (loses : LosesDel tail) :
    ¬ Recovers tail := by
  intro recovers
  have rows := recovers 0 [] [promoRow] ok_promoRow own_promoRow (.at 2 []) (.at 4 []) (.at 5 [])
    [(.at 3 [], .remove "promo")] (by simp [Call.mutates])
  obtain ⟨w, opened, sole, inst, dirty, index⟩ := openOn_torn (.at 2 []) 0 ok_promoRow free
  have found : w.store.index.lookup "promo" = some ⟨"https://a", 1, 0, 0, 0, 0⟩ := by
    rw [index]
    decide +kernel
  have removed : w.step (.at 3 [], .remove "promo") =
      ⟨{ w.store with index := w.store.index.erase "promo" }.logPush (Rec.del "promo").line,
        w.dir⟩ := by
    simp only [World.step, Inner.remove, found, inst]
    rfl
  have erased : Sole ⟨{ w.store with index := w.store.index.erase "promo" }, w.dir⟩
      (logBytes [promoRow] ++ tail) [] [] [] :=
    ⟨⟨sole.opened, sole.snapBytes, sole.logFile, sole.queue⟩, sole.alone, sole.unread⟩
  simp only [opened, World.run_cons, World.run_nil, removed] at rows
  rw [reopen_torn_one (r := .del "promo") free (erased.logPush (.del "promo")) ok_promoRow dirty
    plain_promo rfl] at rows
  have gone := congrFun rows "promo"
  simp only [Inner.logPush, Index.rows, Map.lookup_erase_eq, if_true, Option.map_none,
    Option.map_eq_none_iff] at gone
  have live : (replay (.at 5 []) w.store.inst .empty [promoRow]).index.lookup "promo" ≠ none := by
    rw [inst]
    decide +kernel
  cases parsed : parseOp (tail ++ (Rec.del "promo").line) with
  | none =>
      rw [parsed] at gone
      exact live gone
  | some o =>
      rw [parsed] at gone
      exact lookup_apply_ne_none _ _ (loses "promo" plain_promo o (parse_of_parseOp parsed))
        live gone

/-- Creating a link behind a tail that loses rows. -/
theorem not_recovers_of_losesRow {tail : Bytes} (free : NL ∉ tail) (loses : LosesRow tail) :
    ¬ Recovers tail := by
  intro recovers
  have okNone : AllOk (([] : List Rec) ++ []) := allOk_nil
  have rows := recovers 0 [] [] okNone (by simp) (.at 2 []) (.at 4 []) (.at 5 [])
    [(.at 3 [], .shorten "https://a" (some promo) 0)] (by simp [Call.mutates])
  obtain ⟨w, opened, sole, inst, dirty, index⟩ := openOn_torn (.at 2 []) 0 okNone free
  let row : Rec := .row "promo" "https://a" 3 0 w.store.inst.i64 0
  have taken : promo.val ∉ w.store.index := by
    rw [index]
    exact AList.notMem_empty _
  let stored : Inner := { w.store with
    index := w.store.index.insert "promo" (w.store.newEntry "https://a" 3 0) }
  have inserted : Sole ⟨stored, w.dir⟩ (logBytes [] ++ tail) [] [] [] :=
    ⟨⟨sole.opened, sole.snapBytes, sole.logFile, sole.queue⟩, sole.alone, sole.unread⟩
  obtain ⟨s', dir', log', buf', queued, sole', one, inst', index', dirty'⟩ :=
    inserted.logRaw [row]
  have created : w.step (.at 3 [], .shorten "https://a" (some promo) 0) = ⟨s', dir'⟩ := by
    simp only [World.step, Inner.shorten, Option.map_some, if_neg taken]
    rw [logBytes_singleton] at queued
    exact congrArg (fun done : Inner × Dir => World.mk done.1 done.2) queued
  simp only [opened, World.run_cons, World.run_nil, created] at rows
  rw [reopen_torn_one (r := row) free sole' allOk_nil (dirty'.trans dirty) plain_promo one]
    at rows
  have here := congrFun rows "promo"
  simp only [Index.rows, index', stored, Map.lookup_insert_eq, if_true, Option.map_some] at here
  obtain ⟨ent, found, same⟩ := Option.map_eq_some_iff.mp here
  have expiry : ent.e = 0 := congrArg Row.e same
  cases parsed : parseOp (tail ++ row.line) with
  | none =>
      rw [parsed] at found
      cases found
  | some o =>
      rw [parsed] at found
      exact apply_empty_of_harm _ _
        (loses "promo" plain_promo _ _ _ _ o (parse_of_parseOp parsed)) found expiry

/-- A second reopen after a torn write is right, whatever came before and
after, exactly when the tail is the beginning of a row without expiry that
was cut behind a whole field. -/
theorem recovers_iff_safeTail {r : Rec} (ok : r.Ok) {tail : Bytes} (torn : tail <+: r.line) :
    Recovers tail ↔ SafeTail tail := by
  have free : NL ∉ tail := fun member => NL_not_mem_line ok (torn.subset member)
  constructor
  · intro recovers
    rcases cut_line ok torn with safe | losesDel | losesRow
    · exact safe
    · exact absurd recovers (not_recovers_of_losesDel free losesDel)
    · exact absurd recovers (not_recovers_of_losesRow free losesRow)
  · intro safe
    exact recovers_of_safe safe free

/-- The row whose write is torn below. -/
def tornRow : Rec := .row "other" "https://b" 2 0 0 0

theorem plain_other : Plain "other" := Plain.of_codeOk (by decide)

/-- Cut behind the comma after the code. -/
theorem recovers_behind_code :
    tornRow.line.take 13 <+: tornRow.line ∧ Recovers (tornRow.line.take 13) := by
  refine ⟨List.take_prefix _ _, ?_⟩
  apply (recovers_iff_safeTail (r := tornRow) plain_other (List.take_prefix _ _)).mpr
  refine ⟨"other", "https://b", 2, 0, 0, tornRow.pieces.take 3, plain_other,
    List.take_prefix _ _, ?_⟩
  decide +kernel

/-- Cut inside the url: the next line is a tombstone and is lost, so the removed
link is back. -/
theorem torn_url_revives_removed :
    ¬ ∀ r : Rec, r.Ok → ∀ tail, tail <+: r.line → Recovers tail := by
  intro always
  have rows := always tornRow plain_other (tornRow.line.take 22) (List.take_prefix _ _)
    0 [] [promoRow] ok_promoRow own_promoRow (.at 2 []) (.at 4 []) (.at 5 [])
    [(.at 3 [], .remove "promo")] (by simp [Call.mutates])
  have revived := congrFun rows "promo"
  revert revived
  decide +kernel

end Shrt.Store
