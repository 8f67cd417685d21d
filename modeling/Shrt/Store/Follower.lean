import Mathlib.Data.List.Basic
import Shrt.Store.Cluster
import Shrt.Store.Pair

/-!
# When a follower keeps up with a compacting owner

In every run the files of the owner hold records whose assignments give its
rows.  What carries the proof is that the follower's rows, followed by the
records it has not read, give the owner's rows as well.  A compaction keeps
that only when the records it removes from the log were read, or would change
nothing.
-/

namespace Shrt.Store

open Shrt.Codec Shrt.Lib Shrt.Lib.Utf8 Shrt.Lib.Framing Shrt.Lib.Runs

/-- Operations that would change no row of the codes they assign change no row
at all. -/
theorem Pair.Merged.run {env : Env} {s : Inner} {rs : List Rec} (ok : AllOk rs)
    (merged : Merged env s (rs.map Rec.op)) :
    KeyedLog.run s.index.rows (rs.map recEvent) = s.index.rows := by
  have folded := rows_replay env s.inst ok s.view
  funext k
  by_cases silent : ∀ r ∈ rs, (recEvent r).on k = none
  · rw [KeyedLog.run_apply, KeyedLog.last_eq_none]
    · rfl
    · intro e member
      obtain ⟨r, listed, rfl⟩ := List.mem_map.mp member
      exact silent r listed
  · push Not at silent
    obtain ⟨r, listed, assigned⟩ := silent
    have named : k ∈ [r.op.c, r.op.x] := by
      cases r with
      | row c u a e i n =>
          have same : c = k := by
            by_contra other
            exact assigned (if_neg other)
          simp [Rec.op, same]
      | hit c d i => exact absurd rfl assigned
      | del c =>
          have same : c = k := by
            by_contra other
            exact assigned (if_neg other)
          simp [Rec.op, same]
    have kept := merged r.op (List.mem_map_of_mem listed) k named
    change (replay env s.inst s.view rs).index.rows k = _ at kept
    rw [folded] at kept
    exact kept

/-! ## The invariant -/

/-- What the owner has written.  The other instances write nothing. -/
structure Pair.Shared (b : Inst) (p : Pair) (snap log buf : List Rec) : Prop where
  quiet : ∀ k, k ≠ b → p.dir.read (.log k) = []
  noSnap : ∀ k, k ≠ b → p.dir (.snap k) = none
  snapFile : p.dir.read (.snap b) = logBytes snap
  logFile : p.dir.read (.log b) = logBytes log
  allOk : AllOk (snap ++ log ++ buf)
  idle : p.owner = none → snap = [] ∧ log = [] ∧ buf = [] ∧ p.truncated = false
  present : p.owner ≠ none → (p.dir (.log b)).isSome
  owned : ∀ o, p.owner = some o → o.inst = b ∧ Holds ⟨o, p.dir⟩ [] snap log buf ∧
    (World.journal ⟨o, p.dir⟩ (snap ++ log ++ buf)).Sound b

/-- The follower has read the records `seen` of the log and none of the others;
with them and the queue its rows become those of the owner. -/
structure Pair.Followed (a b : Inst) (truncated : Bool) (s : Inner)
    (snap log buf seen unseen : List Rec) : Prop where
  inst : s.inst = a
  opened : ∃ q, s.aof = some q
  split : log = seen ++ unseen
  rows : KeyedLog.run s.index.rows ((unseen ++ buf).map recEvent) = rowsOf (snap ++ log ++ buf)
  reading : truncated = false → Seen (s.heard b) log seen
  restarted : truncated = true →
    seen = [] ∧ ((s.heard b).offset = 0 → s.heard b = TailReader.fromStart)

def Pair.Inv (a b : Inst) (p : Pair) : Prop :=
  ∃ snap log buf, p.Shared b snap log buf ∧
    ∀ s, p.follower = some s → ∃ seen unseen,
      Pair.Followed a b p.truncated s snap log buf seen unseen

theorem Pair.inv_start (a b : Inst) : Pair.start.Inv a b := by
  refine ⟨[], [], [], ⟨fun _ _ => rfl, fun _ _ => rfl, rfl, rfl, allOk_nil, ?_, ?_, ?_⟩, ?_⟩
  · exact fun _ => ⟨rfl, rfl, rfl, rfl⟩
  · exact fun running => absurd rfl running
  · rintro o ⟨⟩
  · rintro s ⟨⟩

theorem Pair.Shared.okLog {b : Inst} {p : Pair} {snap log buf : List Rec}
    (shared : p.Shared b snap log buf) : AllOk log :=
  fun r hr => shared.allOk r (List.mem_append_left _ (List.mem_append_right _ hr))

theorem Pair.Shared.okSnap {b : Inst} {p : Pair} {snap log buf : List Rec}
    (shared : p.Shared b snap log buf) : AllOk snap :=
  fun r hr => shared.allOk r (List.mem_append_left _ (List.mem_append_left _ hr))

theorem Pair.Shared.okBuf {b : Inst} {p : Pair} {snap log buf : List Rec}
    (shared : p.Shared b snap log buf) : AllOk buf :=
  fun r hr => shared.allOk r (List.mem_append_right _ hr)

/-- A reader that has read nothing is a fresh one. -/
theorem Seen.fresh {r : TailReader} {log seen : List Rec} (read : Seen r log seen)
    (nothing : r.offset = 0) : r = TailReader.fromStart := by
  have left := read.stands.leftover
  rw [nothing, List.take_zero] at left
  obtain ⟨offset, leftover⟩ := r
  cases nothing
  cases left
  rfl

/-- What the follower has not read, as operations. -/
theorem Pair.Followed.unreadOps {a b : Inst} {p : Pair} {s o : Inner}
    {snap log buf seen unseen : List Rec}
    (followed : Pair.Followed a b p.truncated s snap log buf seen unseen)
    (shared : p.Shared b snap log buf) (owner : p.owner = some o) :
    p.unreadOps b s o = (unseen ++ buf).map Rec.op := by
  obtain ⟨-, holds, -⟩ := shared.owned o owner
  have queue : o.aof = some ⟨logBytes buf⟩ := holds.queue
  rw [Pair.unreadOps, queue, shared.logFile, readOps_logBytes shared.okLog, List.map_append]
  congr 1
  · split
    · rename_i cut
      rw [followed.split, (followed.restarted cut).1, List.nil_append]
    · rename_i whole
      have read := followed.reading (by simpa using whole)
      have count : readOps ((logBytes log).take (s.heard b).offset) = seen.map Rec.op := by
        have okSeen : AllOk seen := fun r hr =>
          shared.okLog r (followed.split ▸ List.mem_append_left _ hr)
        rw [readOps, read.lines, filterMap_parseOp_lines okSeen]
      rw [count, followed.split, List.map_append, List.length_map,
        List.drop_left' (List.length_map _)]
  · simp [readOps_logBytes shared.okBuf]

/-! ## Reading -/

/-- A read that goes through: the next records are folded, all of them when the
read is whole. -/
theorem Pair.Followed.hear {a b : Inst} {p : Pair} {s s' : Inner} {env : Env}
    {snap log buf seen unseen : List Rec}
    (followed : Pair.Followed a b p.truncated s snap log buf seen unseen)
    (shared : p.Shared b snap log buf) (notices : p.Notices b s)
    (follows : Inner.Follows env p.dir b true s s') :
    ∃ seen' left, Pair.Followed a b false s' snap log buf seen' left ∧
      (env.short b = 0 → left = []) := by
  obtain ⟨inst, aof, rows, heard⟩ := follows
  have read : ∃ new left r', readSibling env s.inst p.dir b s.view (s.heard b) =
      (replay env s.inst s.view new, r') ∧ unseen = new ++ left ∧
      Seen r' log (seen ++ new) ∧ (env.short b = 0 → left = []) := by
    cases cut : p.truncated with
    | false =>
        exact (followed.reading cut).readSibling followed.split shared.okLog shared.logFile
          env s.inst s.view
    | true =>
        obtain ⟨nothing, fresh⟩ := followed.restarted cut
        have again : readSibling env s.inst p.dir b s.view (s.heard b) =
            readSibling env s.inst p.dir b s.view TailReader.fromStart := by
          rcases notices cut with shorter | zero
          · exact readSibling_rewound shorter env s.inst s.view
          · rw [fresh zero]
        have split := followed.split
        rw [again, nothing]
        rw [nothing] at split
        exact (seen_fromStart log).readSibling split shared.okLog shared.logFile env s.inst s.view
  obtain ⟨new, left, r', got, parts, seen', whole⟩ := read
  rw [got] at rows heard
  have okNew : AllOk new := fun r hr => shared.okLog r
    (followed.split ▸ List.mem_append_right _ (parts ▸ List.mem_append_left _ hr))
  refine ⟨seen ++ new, left, ⟨inst.trans followed.inst, aof ▸ followed.opened, ?_, ?_, ?_, ?_⟩,
    whole⟩
  · rw [followed.split, parts, List.append_assoc]
  · rw [← followed.rows, rows, rows_replay env s.inst okNew s.view, parts, ← run_recs_append,
      List.append_assoc]
    rfl
  · intro _
    rw [heard]
    exact seen'
  · intro absurdly
    cases absurdly

/-- A step that reads nothing. -/
theorem Pair.Followed.stay {a b : Inst} {truncated : Bool} {s s' : Inner} {env : Env} {dir : Dir}
    {snap log buf seen unseen : List Rec}
    (followed : Pair.Followed a b truncated s snap log buf seen unseen)
    (follows : Inner.Follows env dir b false s s') :
    Pair.Followed a b truncated s' snap log buf seen unseen := by
  obtain ⟨inst, aof, rows, heard⟩ := follows
  refine ⟨inst.trans followed.inst, aof ▸ followed.opened, followed.split, ?_, ?_, ?_⟩
  · rw [rows]
    exact followed.rows
  · rw [heard]
    exact followed.reading
  · rw [heard]
    exact followed.restarted

/-- Reading leaves the owner's part as it is. -/
theorem Pair.Shared.of_dir {b : Inst} {p p' : Pair} {snap log buf : List Rec}
    (shared : p.Shared b snap log buf) (dir : p'.dir = p.dir) (owner : p'.owner = p.owner)
    (truncated : p.truncated = false → p'.truncated = false) : p'.Shared b snap log buf := by
  refine ⟨dir ▸ shared.quiet, dir ▸ shared.noSnap, dir ▸ shared.snapFile, dir ▸ shared.logFile,
    shared.allOk, ?_, ?_, ?_⟩
  · intro absent
    obtain ⟨noSnap, noLog, noBuf, whole⟩ := shared.idle (owner ▸ absent)
    exact ⟨noSnap, noLog, noBuf, truncated whole⟩
  · rw [owner, dir]
    exact shared.present
  · rw [owner, dir]
    exact shared.owned

theorem Pair.Inv.poll {a b : Inst} (apart : a ≠ b) {p : Pair} (inv : p.Inv a b) (env : Env)
    (careful : p.Careful b (.poll env)) : (p.step a b (.poll env)).Inv a b := by
  obtain ⟨snap, log, buf, shared, follower⟩ := inv
  cases running : p.follower with
  | none =>
      simp only [Pair.step, running]
      exact ⟨snap, log, buf, shared, follower⟩
  | some s =>
      simp only [Pair.step, running]
      refine ⟨snap, log, buf, shared.of_dir rfl rfl fun _ => rfl, ?_⟩
      rintro s' ⟨⟩
      obtain ⟨seen, unseen, followed⟩ := follower s running
      obtain ⟨q, queue⟩ := followed.opened
      have other : b ≠ s.inst := by
        rw [followed.inst]
        exact apart.symm
      obtain ⟨seen', left, heard, -⟩ := followed.hear shared (careful s running)
        (follows_pollTails shared.quiet env other queue)
      exact ⟨seen', left, heard⟩

theorem Pair.Inv.resolve {a b : Inst} (apart : a ≠ b) {p : Pair} (inv : p.Inv a b) (env : Env)
    (code : String) (careful : p.Careful b (.resolve env code)) :
    (p.step a b (.resolve env code)).Inv a b := by
  obtain ⟨snap, log, buf, shared, follower⟩ := inv
  cases running : p.follower with
  | none =>
      simp only [Pair.step, running]
      exact ⟨snap, log, buf, shared, follower⟩
  | some s =>
      simp only [Pair.step, running]
      refine ⟨snap, log, buf, shared.of_dir rfl rfl fun whole => by simp [whole], ?_⟩
      rintro s' ⟨⟩
      obtain ⟨seen, unseen, followed⟩ := follower s running
      obtain ⟨q, queue⟩ := followed.opened
      have other : b ≠ s.inst := by
        rw [followed.inst]
        exact apart.symm
      have follows := follows_resolve shared.quiet env other queue code
      cases misses : s.missReads b env code with
      | false =>
          rw [misses] at follows
          simp only [Bool.not_false, Bool.and_true]
          exact ⟨seen, unseen, followed.stay follows⟩
      | true =>
          rw [misses] at follows
          obtain ⟨seen', left, heard, -⟩ :=
            followed.hear shared (careful s running misses) follows
          simp only [Bool.not_true, Bool.and_false]
          exact ⟨seen', left, heard⟩

/-! ## Booting -/

/-- What an instance with empty files loads when only `b` has a snapshot. -/
theorem index_new {dir : Dir} {inst b : Inst} {snap : List Rec} (env : Env)
    (noSnap : ∀ k, k ≠ b → dir (.snap k) = none) (emptyLog : dir.read (.log inst) = [])
    (snapFile : dir.read (.snap b) = logBytes snap) (ok : AllOk snap)
    (present : snap ≠ [] → inst ≠ b ∧ (dir (.log b)).isSome) (locked : Bool) :
    (Inner.new env dir inst locked).1.index = (replay env inst .empty snap).index := by
  let opened : Dir := dir.write (.log inst) (dir.read (.log inst))
  have snapOpened : ∀ k, opened (.snap k) = dir (.snap k) := fun k =>
    Dir.write_other (by simp) _ _
  have bytes : opened.read (.snap b) = logBytes snap := by
    rw [Dir.read_opened, snapFile]
  have ownSnap : replayInto env inst opened (.snap inst) .empty = .empty := by
    by_cases same : inst = b
    · have nothing : snap = [] := by
        by_contra some
        exact (present some).1 same
      rw [nothing] at bytes
      rw [same, replayInto_records env b allOk_nil bytes, replay_nil]
    · exact replayInto_missing env inst ((snapOpened inst).trans (noSnap inst same)) _
  have ownLog : replayInto env inst opened (.log inst) .empty = .empty := by
    have empty : opened.read (.log inst) = logBytes [] := by
      rw [Dir.read_opened, emptyLog, logBytes_nil]
    rw [replayInto_records env inst allOk_nil empty, replay_nil]
  have loaded := congrArg Prod.fst (loadAll_eq env inst opened)
  rw [ownSnap, ownLog, foldl_replayInto_one env inst
    (fun k _ other => (snapOpened k).trans (noSnap k other))
    (fun f member => (mem_shardFiles.mp member).1) (nodup_shardOrder.filter _)] at loaded
  have result : (loadAll env inst opened).1 = replay env inst .empty snap := by
    rw [loaded]
    split
    · exact replayInto_records env inst ok bytes .empty
    · rename_i unlisted
      have nothing : snap = [] := by
        by_contra some
        obtain ⟨other, found⟩ := present some
        apply unlisted
        refine mem_shardFiles.mpr ⟨Ne.symm other, ?_⟩
        rw [show opened (.log b) = dir (.log b) from
          Dir.write_other (by simpa using Ne.symm other) _ _]
        exact found
      rw [nothing, replay_nil]
  exact congrArg View.index result

theorem Pair.Inv.bootFollower {a b : Inst} (apart : a ≠ b) {p : Pair} (inv : p.Inv a b)
    (env : Env) : (p.step a b (.bootFollower env)).Inv a b := by
  obtain ⟨snap, log, buf, shared, follower⟩ := inv
  cases running : p.follower with
  | some s =>
      simp only [Pair.step, running]
      exact ⟨snap, log, buf, shared, follower⟩
  | none =>
      simp only [Pair.step, running]
      have others : ∀ f : FileName, f ≠ .log a →
          (Inner.new env p.dir a false).2 f = p.dir f := fun f other => Dir.write_other other _ _
      have reads : ∀ f, (Inner.new env p.dir a false).2.read f = p.dir.read f :=
        Dir.read_opened p.dir a
      have logOther : FileName.log b ≠ .log a := by simpa using apart.symm
      refine ⟨snap, log, buf, ⟨?_, ?_, ?_, ?_, shared.allOk, ?_, ?_, ?_⟩, ?_⟩
      · intro k other
        exact (reads _).trans (shared.quiet k other)
      · intro k other
        exact (others _ (by simp)).trans (shared.noSnap k other)
      · exact (reads _).trans shared.snapFile
      · exact (reads _).trans shared.logFile
      · intro absent
        obtain ⟨noSnap, noLog, noBuf, -⟩ := shared.idle absent
        exact ⟨noSnap, noLog, noBuf, rfl⟩
      · intro started
        exact (congrArg Option.isSome (others _ logOther)).trans (shared.present started)
      · intro o owner
        obtain ⟨inst, holds, sound⟩ := shared.owned o owner
        exact ⟨inst, ⟨holds.opened, (reads _).trans holds.snapBytes,
          (reads _).trans holds.logFile, holds.queue⟩, sound⟩
      · rintro s ⟨⟩
        have present : snap ≠ [] → a ≠ b ∧ (p.dir (.log b)).isSome := by
          intro some
          exact ⟨apart, shared.present fun absent => some (shared.idle absent).1⟩
        have index := index_new env shared.noSnap (shared.quiet a apart) shared.snapFile
          shared.okSnap present false
        refine ⟨[], log, rfl, ⟨_, rfl⟩, rfl, ?_, ?_, ?_⟩
        · rw [index, rows_replay env a shared.okSnap .empty, ← run_recs_append,
            ← List.append_assoc]
          rfl
        · intro _
          rw [heard_new]
          exact seen_fromStart log
        · intro absurdly
          cases absurdly

theorem Pair.Inv.bootOwner {a b : Inst} {p : Pair} (inv : p.Inv a b)
    (env : Env) : (p.step a b (.bootOwner env)).Inv a b := by
  obtain ⟨snap, log, buf, shared, follower⟩ := inv
  cases running : p.owner with
  | some o =>
      simp only [Pair.step, running]
      exact ⟨snap, log, buf, shared, follower⟩
  | none =>
      simp only [Pair.step, running]
      obtain ⟨rfl, rfl, rfl, whole⟩ := shared.idle running
      have others : ∀ f : FileName, f ≠ .log b →
          (Inner.new env p.dir b false).2 f = p.dir f := fun f other => Dir.write_other other _ _
      have reads : ∀ f, (Inner.new env p.dir b false).2.read f = p.dir.read f :=
        Dir.read_opened p.dir b
      refine ⟨[], [], [], ⟨?_, ?_, ?_, ?_, allOk_nil, ?_, ?_, ?_⟩, follower⟩
      · intro k other
        exact (reads _).trans (shared.quiet k other)
      · intro k other
        exact (others _ (by simp)).trans (shared.noSnap k other)
      · exact (reads _).trans shared.snapFile
      · exact (reads _).trans shared.logFile
      · rintro ⟨⟩
      · intro _
        simp [Inner.new, Dir.write]
      · rintro o ⟨⟩
        have index := index_new env shared.noSnap shared.logFile shared.snapFile allOk_nil
          (fun some => absurd rfl some) false
        refine ⟨rfl, ⟨rfl, (reads _).trans shared.snapFile, (reads _).trans shared.logFile, rfl⟩,
          ?_⟩
        have empty : World.journal ⟨(Inner.new env p.dir b false).1, (Inner.new env p.dir b false).2⟩
            ([] ++ [] ++ []) = ⟨(replay env b .empty []).index, ∅, []⟩ := by
          rw [World.journal, index]
          rfl
        rw [empty]
        exact Journal.sound_replay env allOk_nil fun r member => by cases member

/-! ## Writing -/

/-- The writing calls other than `compact` only add records. -/
theorem Holds.writes {w : World} {snap log buf : List Rec} (holds : Holds w [] snap log buf)
    (env : Env) {call : Call} (writes : call.writes = true) (grows : call.truncates = false) :
    Extends False [] snap snap log buf w (w.step (env, call)) := by
  cases call with
  | shorten url aliasCode ttl => exact holds.shorten env url aliasCode ttl False.elim
  | shortenMany urls ttl => exact holds.shortenMany env urls ttl False.elim
  | update code url ttl hasTtl => exact holds.update env code url ttl hasTtl False.elim
  | remove code => exact holds.remove env code
  | flush => exact holds.flush env
  | compact => cases grows
  | resolve code => cases writes
  | poll => cases writes
  | restart => cases writes

/-- Records that the owner adds are new to the follower. -/
theorem Pair.Followed.grow {a b : Inst} {truncated : Bool} {s : Inner}
    {snap log buf seen unseen log' buf' rs : List Rec}
    (followed : Pair.Followed a b truncated s snap log buf seen unseen) (grown : log <+: log')
    (moved : log' ++ buf' = log ++ buf ++ rs) :
    ∃ unseen', Pair.Followed a b truncated s snap log' buf' seen unseen' := by
  obtain ⟨more, rfl⟩ := grown
  have split := followed.split
  have same : unseen ++ more ++ buf' = unseen ++ buf ++ rs := by
    rw [split] at moved
    simpa only [List.append_assoc, List.append_cancel_left_eq] using moved
  refine ⟨unseen ++ more, followed.inst, followed.opened, ?_, ?_, ?_, followed.restarted⟩
  · rw [split, List.append_assoc]
  · rw [same, run_recs_append, followed.rows, rowsOf, rowsOf, ← run_recs_append,
      List.append_assoc snap (log ++ more), moved]
    simp only [List.append_assoc]
  · intro whole
    exact (followed.reading whole).grow (List.prefix_append log more)

/-- A compaction of records that the follower has merged. -/
theorem Pair.Followed.truncate {a b : Inst} {truncated : Bool} {s : Inner}
    {snap log buf seen unseen snap' : List Rec}
    (followed : Pair.Followed a b truncated s snap log buf seen unseen)
    (merged : KeyedLog.run s.index.rows ((unseen ++ buf).map recEvent) = s.index.rows)
    (saved : rowsOf snap' = rowsOf (snap ++ log ++ buf)) :
    Pair.Followed a b true s snap' [] [] [] [] := by
  refine ⟨followed.inst, followed.opened, rfl, ?_, ?_, ?_⟩
  · rw [List.append_nil, List.append_nil, List.append_nil, saved, ← followed.rows, merged]
    rfl
  · intro absurdly
    cases absurdly
  · intro _
    refine ⟨rfl, fun nothing => ?_⟩
    cases cut : truncated with
    | false => exact (followed.reading cut).fresh nothing
    | true => exact (followed.restarted cut).2 nothing

/-- The owner's part after a call that wrote these records. -/
theorem Pair.Shared.wrote {b : Inst} {p : Pair} {snap log buf : List Rec}
    (shared : p.Shared b snap log buf) {o : Inner} (owner : p.owner = some o) {w : World}
    {snap' log' buf' : List Rec} (frame : Frame ⟨o, p.dir⟩ w)
    (holds : Holds w [] snap' log' buf')
    (sound : (w.journal (snap' ++ log' ++ buf')).Sound b) (truncated : Bool) :
    Pair.Shared b ⟨p.follower, some w.store, w.dir, truncated⟩ snap' log' buf' := by
  obtain ⟨inst, -, -⟩ := shared.owned o owner
  have inst' : w.store.inst = b := frame.inst.trans inst
  have others : ∀ f : FileName, f.owner ≠ b → w.dir f = p.dir f := fun f other =>
    frame.files f (inst.symm ▸ other)
  refine ⟨?_, ?_, ?_, ?_, sound.allOk, ?_, ?_, ?_⟩
  · intro k other
    exact (congrArg (Option.getD · []) (others (.log k) other)).trans (shared.quiet k other)
  · intro k other
    exact (others (.snap k) other).trans (shared.noSnap k other)
  · rw [← inst']
    exact holds.snapBytes
  · rw [← inst']
    exact holds.logFile
  · rintro ⟨⟩
  · intro _
    have kept := frame.present
    rw [show (World.mk o p.dir).store.inst = b from inst] at kept
    exact kept (shared.present (by simp [owner]))
  · rintro o' ⟨⟩
    exact ⟨inst', holds, sound⟩

/-- A compaction leaves the index alone. -/
theorem index_compact (w : World) (env : Env) :
    (w.step (env, .compact)).store.index = w.store.index := by
  cases queue : w.store.aof with
  | none => simp only [World.step, Inner.compact, queue]
  | some q =>
      simp only [World.step, Inner.compact, queue, flushLocked_eq env queue]

theorem Pair.Inv.own {a b : Inst} {p : Pair} (inv : p.Inv a b) (env : Env) (call : Call)
    (careful : p.Careful b (.own env call)) : (p.step a b (.own env call)).Inv a b := by
  obtain ⟨snap, log, buf, shared, follower⟩ := inv
  obtain ⟨writes, merges⟩ := careful
  cases owner : p.owner with
  | none =>
      simp only [Pair.step, owner]
      exact ⟨snap, log, buf, shared, follower⟩
  | some o =>
      obtain ⟨inst, holds, sound⟩ := shared.owned o owner
      simp only [Pair.step, owner]
      cases cuts : call.truncates with
      | false =>
          obtain ⟨log', buf', rs, holds', frame, grown, moved, path⟩ := holds.writes env writes cuts
          rw [show (World.mk o p.dir).store.inst = b from inst] at path
          refine ⟨snap, log', buf', shared.wrote owner frame holds' (sound.path path) _, ?_⟩
          intro s running
          obtain ⟨seen, unseen, followed⟩ := follower s running
          obtain ⟨unseen', later⟩ := followed.grow grown moved
          rw [Bool.or_false]
          exact ⟨seen, unseen', later⟩
      | true =>
          have compacts : call = .compact := by
            cases call <;> first | rfl | cases cuts
          subst compacts
          obtain ⟨holds', frame, path⟩ := @Holds.compact _ _ _ _ _ holds snap env False
          rw [show (World.mk o p.dir).store.inst = b from inst] at path holds'
          have sound' := sound.path path
          have saved := sound'.rows.trans
            ((congrArg Index.rows (index_compact ⟨o, p.dir⟩ env)).trans sound.rows.symm)
          refine ⟨_, [], [], shared.wrote owner frame holds' ?_ _, ?_⟩
          · rw [List.append_nil, List.append_nil]
            exact sound'
          · intro s running
            obtain ⟨seen, unseen, followed⟩ := follower s running
            have merged := merges cuts s running o owner
            rw [followed.unreadOps shared owner] at merged
            have ok : AllOk (unseen ++ buf) := by
              intro r member
              apply shared.allOk
              rw [followed.split]
              simp only [List.mem_append] at member ⊢
              tauto
            rw [Bool.or_true]
            exact ⟨[], [], followed.truncate (Pair.Merged.run ok merged) saved⟩

/-! ## Whole schedules -/

theorem Pair.Inv.step {a b : Inst} (apart : a ≠ b) {p : Pair} (inv : p.Inv a b)
    {step : PairStep} (careful : p.Careful b step) : (p.step a b step).Inv a b := by
  cases step with
  | bootFollower env => exact inv.bootFollower apart env
  | bootOwner env => exact inv.bootOwner env
  | own env call => exact inv.own env call careful
  | poll env => exact inv.poll apart env careful
  | resolve env code => exact inv.resolve apart env code careful

/-- A whole read of a log that is flushed brings the follower up to date. -/
theorem Pair.Inv.caughtUp {a b : Inst} (apart : a ≠ b) {p : Pair} (inv : p.Inv a b)
    {s o : Inner} (running : p.follower = some s) (owner : p.owner = some o)
    (flushed : o.aof = some ⟨[]⟩) (env : Env) (whole : env.short b = 0)
    (careful : p.Careful b (.poll env)) :
    (s.pollTails env p.dir).index.rows = o.index.rows := by
  obtain ⟨snap, log, buf, shared, follower⟩ := inv
  obtain ⟨inst, holds, sound⟩ := shared.owned o owner
  have queue : o.aof = some ⟨logBytes buf⟩ := holds.queue
  have noQueue : buf = [] := by
    apply logBytes_eq_nil
    rw [flushed] at queue
    injection queue with same
    injection same with same
    exact same.symm
  obtain ⟨seen, unseen, followed⟩ := follower s running
  obtain ⟨q, opened⟩ := followed.opened
  have other : b ≠ s.inst := by
    rw [followed.inst]
    exact apart.symm
  obtain ⟨seen', left, heard, all⟩ := followed.hear shared (careful s running)
    (follows_pollTails shared.quiet env other opened)
  have rows := heard.rows
  rw [all whole, noQueue] at rows
  rw [noQueue] at sound
  exact rows.trans sound.rows

/-- After its flush the owner has nothing queued. -/
theorem Pair.Inv.flushed {a b : Inst} {p : Pair} (inv : p.Inv a b) (env : Env) {o : Inner}
    (owner : (p.step a b (.own env .flush)).owner = some o) : o.aof = some ⟨[]⟩ := by
  obtain ⟨snap, log, buf, shared, -⟩ := inv
  cases before : p.owner with
  | none =>
      simp only [Pair.step, before] at owner
      cases owner
  | some o' =>
      obtain ⟨-, holds, -⟩ := shared.owned o' before
      simp only [Pair.step, before, World.step, flushLocked_eq env holds.queue] at owner
      cases owner
      rfl

theorem Pair.step_poll (a b : Inst) (p : Pair) (env : Env) :
    (p.step a b (.poll env)).follower = p.follower.map (fun s => s.pollTails env p.dir) ∧
    (p.step a b (.poll env)).owner = p.owner := by
  cases running : p.follower with
  | none => simp only [Pair.step, running, Option.map_none, and_self]
  | some s => simp only [Pair.step, running, Option.map_some, and_self]

theorem Pair.inv_run {a b : Inst} (apart : a ≠ b) {schedule : List PairStep}
    (careful : Along (Pair.step a b) (Pair.Careful b) Pair.start schedule) :
    (Pair.start.run a b schedule).Inv a b :=
  careful.invariant (fun _ _ inv careful => inv.step apart careful) (Pair.inv_start a b)

/-- Along every careful schedule of a follower and a writing owner, a flush of
the owner and a whole poll of the follower leave both with the same rows:
the same codes, urls, creation times, expiries and owners. -/
theorem follower_rows {a b : Inst} (apart : a ≠ b) (schedule : List PairStep)
    (flushing polling : Env) (whole : polling.short b = 0)
    (careful : Along (Pair.step a b) (Pair.Careful b) Pair.start
      (schedule ++ [.own flushing .flush, .poll polling])) :
    let final := Pair.start.run a b (schedule ++ [.own flushing .flush, .poll polling])
    ∀ s ∈ final.follower, ∀ o ∈ final.owner, s.index.rows = o.index.rows := by
  obtain ⟨before, flushCareful, pollCareful, -⟩ := Along.append.mp careful
  have inv := Pair.inv_run apart before
  rw [Pair.run, List.foldl_append]
  rw [Pair.run] at inv
  generalize schedule.foldl (Pair.step a b) Pair.start = p at inv flushCareful pollCareful
  have written := inv.step apart flushCareful
  have flushed := fun o => inv.flushed (o := o) flushing
  simp only [List.foldl_cons, List.foldl_nil]
  generalize p.step a b (.own flushing .flush) = p' at written pollCareful flushed
  obtain ⟨follower, owner⟩ := Pair.step_poll a b p' polling
  rw [follower, owner]
  rintro s polled o owning
  obtain ⟨s', running, rfl⟩ := Option.map_eq_some_iff.mp polled
  exact written.caughtUp apart running owning (flushed o owning) polling whole pollCareful

/-- Some random bytes for a code. -/
def drawn : Suffix := #v[1, 2, 3, 4, 5, 6, 7]

/-- The owner starts after the follower, creates a link that the follower
reads, compacts, changes the link and creates another. -/
def mergedSchedule : List PairStep :=
  [.bootFollower (.at 0 []), .bootOwner (.at 1 []),
   .own (.at 2 [drawn]) (.shorten "https://a" none 0), .own (.at 3 []) .flush,
   .resolve (.at 4 []) (genCode 1 drawn), .own (.at 5 []) .compact, .poll (.at 6 []),
   .own (.at 7 []) (.update (genCode 1 drawn) "https://b" 0 false),
   .own (.at 8 [drawn.map (· + 1)]) (.shorten "https://c" none 0)]

theorem follower_rows_merged :
    let schedule := mergedSchedule ++ [.own (.at 9 []) .flush, .poll (.at 10 [])]
    Along (Pair.step 0 1) (Pair.Careful 1) Pair.start schedule ∧
    ∀ s ∈ (Pair.start.run 0 1 schedule).follower,
      s.index.rows (genCode 1 drawn) = some ⟨"https://b", 2, 0, 1⟩ := by
  obtain ⟨careful, running, row⟩ : Along (Pair.step 0 1) (Pair.Careful 1) Pair.start
        (mergedSchedule ++ [.own (.at 9 []) .flush, .poll (.at 10 [])]) ∧
      (Pair.start.run 0 1
        (mergedSchedule ++ [.own (.at 9 []) .flush, .poll (.at 10 [])])).owner.isSome = true ∧
      ∀ o ∈ (Pair.start.run 0 1
          (mergedSchedule ++ [.own (.at 9 []) .flush, .poll (.at 10 [])])).owner,
        o.index.rows (genCode 1 drawn) = some ⟨"https://b", 2, 0, 1⟩ := by
    decide +kernel
  have same := follower_rows (by decide) mergedSchedule (.at 9 []) (.at 10 []) rfl careful
  obtain ⟨o, owner⟩ := Option.isSome_iff_exists.mp running
  refine ⟨careful, fun s polled => ?_⟩
  rw [same s polled o owner]
  exact row o owner

/-- The owner only writes, and under generated codes. -/
def PairStep.Generated : PairStep → Prop
  | .own _ (.shorten _ aliasCode _) => aliasCode = none
  | .own _ call => call.writes = true
  | _ => True

/-- The owner writes a link and compacts before the follower has read it. -/
def unreadSchedule : List PairStep :=
  [.bootFollower (.at 0 []), .bootOwner (.at 1 []),
   .own (.at 2 [drawn]) (.shorten "https://a" none 0), .own (.at 3 []) .flush,
   .own (.at 4 []) .compact]

/-- The link is only in the snapshot, which a running follower never reads. -/
theorem compact_hides_unread_row :
    ¬ ∀ (a b : Inst) (schedule : List PairStep) (flushing polling : Env),
      a ≠ b → polling.short b = 0 → (∀ step ∈ schedule, step.Generated) →
      ∀ s ∈ (Pair.start.run a b
          (schedule ++ [.own flushing .flush, .poll polling])).follower,
      ∀ o ∈ (Pair.start.run a b
          (schedule ++ [.own flushing .flush, .poll polling])).owner,
      ∀ c, (encode c).head? = some (prefixByte b) → s.index.rows c = o.index.rows c := by
  intro agree
  have generated : ∀ step ∈ unreadSchedule, step.Generated := by
    simp [unreadSchedule, PairStep.Generated, Call.writes]
  have same := agree 0 1 unreadSchedule (.at 5 []) (.at 6 []) (by decide) rfl generated
  have missed : ∃ s ∈ (Pair.start.run 0 1
        (unreadSchedule ++ [.own (.at 5 []) .flush, .poll (.at 6 [])])).follower,
      ∃ o ∈ (Pair.start.run 0 1
        (unreadSchedule ++ [.own (.at 5 []) .flush, .poll (.at 6 [])])).owner,
      s.index.rows (genCode 1 drawn) ≠ o.index.rows (genCode 1 drawn) := by
    decide +kernel
  obtain ⟨s, running, o, owner, differ⟩ := missed
  exact differ (same s running o owner _ (by rw [encode_genCode]; rfl))

end Shrt.Store
