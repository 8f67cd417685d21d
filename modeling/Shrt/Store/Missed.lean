import Mathlib.Data.List.Basic
import Shrt.Store.Convergence
import Shrt.Store.Ownership

/-!
# Links found on a read miss

A code that one instance alone has written stands in the log of that instance
only, and every sibling has of it what the part of the log that it has read
says.  So a sibling that does not know the code has not read its row, and finds
it as soon as it reads that log.  Whether a read miss does depends on the first
character of the code.
-/

namespace Shrt.Store

open Shrt.Codec Shrt.Lib Shrt.Lib.Utf8 Shrt.Lib.Framing Shrt.Lib.Runs

/-- A checked act of one instance leaves a code alone whose entry names another,
unless it creates the code. -/
theorem Journal.Step.spares {a : String} {b k : Inst} {j j' : Journal} {act : Act} (other : k ≠ b)
    (step : Journal.Step k j act j') (checked : j.Checked k act)
    (owner : ∀ row, j.index.rows a = some row → row.i = b.i32)
    (uncreated : ∀ url now exp, act ≠ .create a url now exp) : act.assigns ≠ some a := by
  intro assigned
  have foreign : ∀ ent, j.index.lookup a = some ent → ent.i ≠ k.i32 := by
    intro ent found mine
    have named := owner ent.row (by rw [Index.rows, found]; rfl)
    exact other (Inst.i32_injective (mine.symm.trans named))
  cases step with
  | create plain fresh url now exp =>
      cases assigned
      exact uncreated url now exp rfl
  | amend found url exp =>
      cases assigned
      exact foreign _ found (checked _ found)
  | drop found =>
      cases assigned
      exact foreign _ found (checked _ found)
  | hit found => cases assigned
  | drain ord => cases assigned
  | snapshot ord idle => cases assigned
  | restart env idle => cases assigned

/-- An act that leaves a code alone keeps its row. -/
theorem Journal.Step.row_kept {a : String} {k : Inst} {j j' : Journal} {act : Act}
    (step : Journal.Step k j act j') (checked : j.Checked k act) (runs : act.Runs)
    (spares : act.assigns ≠ some a) :
    (∃ rs, j'.recs = j.recs ++ rs ∧ ∀ r ∈ rs, (recEvent r).on a = none) ∧
      j'.index.rows a = j.index.rows a := by
  obtain ⟨rs, grown, rows, assigns⟩ := step.rows checked runs
  have silent : ∀ r ∈ rs, (recEvent r).on a = none := by
    intro r member
    by_contra assigned
    exact spares (assigns r member a assigned)
  refine ⟨⟨rs, grown, silent⟩, ?_⟩
  rw [rows]
  apply KeyedLog.run_silent
  intro e member
  obtain ⟨r, listed, rfl⟩ := List.mem_map.mp member
  exact silent r listed

/-! ## A pool in which one instance writes a code -/

/-- Only the instance `b` creates the code, and it is not compacted. -/
def Pool.Rules.sole (a : String) (b : Inst) : Pool.Rules where
  acts k act := k ≠ b → ∀ url now exp, act ≠ .create a url now exp
  saves _ k := k ≠ b
  opens _ _ _ := True

/-- No record of another instance assigns the code, and its rows elsewhere name
the instance `b`. -/
structure Pool.Sole (a : String) (b : Inst) (p : Pool) : Prop where
  noSnap : p.snaps b = []
  silent : ∀ k, k ≠ b → ∀ r ∈ p.snaps k ++ p.recs k, (recEvent r).on a = none
  owner : ∀ k m, k ≠ b → p.members k = some m → ∀ row, m.index.rows a = some row → row.i = b.i32

namespace Pool

variable {a : String} {b : Inst} {p p' : Pool}

theorem sole_start (a : String) (b : Inst) : start.Sole a b :=
  ⟨rfl, fun _ _ _ member => (by cases member), fun _ _ _ up => (by cases up)⟩

theorem Sole.silent_recs (sole : p.Sole a b) {k : Inst} (other : k ≠ b) {r : Rec}
    (member : r ∈ p.recs k) : (recEvent r).on a = none :=
  sole.silent k other r (List.mem_append_right _ member)

theorem Sole.silent_snaps (sole : p.Sole a b) (k : Inst) {r : Rec} (member : r ∈ p.snaps k) :
    (recEvent r).on a = none := by
  by_cases same : k = b
  · rw [same, sole.noSnap] at member
    cases member
  · exact sole.silent k same r (List.mem_append_left _ member)

/-- Records that assign a code nothing leave its row. -/
theorem rows_replay_silent (env : Env) (k : Inst) {rs : List Rec} (ok : AllOk rs)
    (silent : ∀ r ∈ rs, (recEvent r).on a = none) (v : View) :
    (replay env k v rs).index.rows a = v.index.rows a := by
  rw [rows_replay env k ok]
  apply KeyedLog.run_silent
  intro e member
  obtain ⟨r, listed, rfl⟩ := List.mem_map.mp member
  exact silent r listed

/-- What an instance that opens replays is silent about the code. -/
theorem Sole.silent_opened (sole : p.Sole a b) (k : Inst) {log : List Rec}
    (silent : ∀ r ∈ log, (recEvent r).on a = none) (js : List Inst) :
    ∀ r ∈ p.snaps k ++ log ++ js.flatMap p.snaps, (recEvent r).on a = none := by
  intro r member
  rcases List.mem_append.mp member with own | foreign
  · rcases List.mem_append.mp own with saved | logged
    · exact sole.silent_snaps k saved
    · exact silent r logged
  · obtain ⟨j, -, here⟩ := List.mem_flatMap.mp foreign
    exact sole.silent_snaps j here

theorem Sole.act (sole : p.Sole a b) {k : Inst} {m : Member} (up : p.members k = some m)
    {j : Journal} {served : List (Inst × String)}
    (spares : k ≠ b → (∃ rs, j.recs = p.recs k ++ rs ∧ ∀ r ∈ rs, (recEvent r).on a = none) ∧
      j.index.rows a = m.index.rows a) :
    Sole a b ⟨Function.update p.members k (some (m.did j)), p.snaps,
      Function.update p.recs k j.recs, served⟩ := by
  refine ⟨sole.noSnap, ?_, ?_⟩
  · intro i other r member
    simp only [Function.update_apply] at member
    split at member
    · rename_i same
      subst same
      obtain ⟨⟨rs, whole, silent⟩, -⟩ := spares other
      rw [whole, ← List.append_assoc] at member
      rcases List.mem_append.mp member with old | new
      · exact sole.silent i other r old
      · exact silent r new
    · exact sole.silent i other r member
  · intro i q other running row found
    obtain ⟨rfl, rfl⟩ | ⟨-, running⟩ := update_eq_some running
    · exact sole.owner i m other up row ((spares other).2.symm.trans found)
    · exact sole.owner i q other running row found

/-- A snapshot has the own entries only, and the code's entry is none of them. -/
theorem Sole.save (sole : p.Sole a b) {k : Inst} {m : Member} (up : p.members k = some m)
    (ord : IterOrder String Entry) (other : k ≠ b) :
    Sole a b { p with
      snaps := Function.update p.snaps k (snapshotOf k (ord.iter m.index))
      recs := Function.update p.recs k [] } := by
  refine ⟨?_, ?_, sole.owner⟩
  · simp only [Function.update_of_ne (Ne.symm other)]
    exact sole.noSnap
  · intro i foreign r member
    simp only [Function.update_apply] at member
    split at member
    · rename_i same
      subst same
      rw [List.append_nil] at member
      obtain ⟨⟨c, e⟩, listed, rfl⟩ := List.mem_map.mp member
      obtain ⟨stored, mine⟩ := List.mem_filter.mp listed
      have found := ord.mem_iter_iff.mp stored
      have differs : c ≠ a := by
        rintro rfl
        have named := sole.owner i m foreign up e.row (by rw [Index.rows, found]; rfl)
        have own : e.i = i.i32 := by simpa using mine
        exact foreign (Inst.i32_injective (own.symm.trans named))
      exact recEvent_on_other (Ne.symm differs)
    · exact sole.silent i foreign r member

/-- What another instance hears about the code was written by `b`. -/
theorem Sole.hear (sole : p.Sole a b) (sound : p.Sound) {k j : Inst} {m : Member}
    (up : p.members k = some m) (env : Env) {new : List Rec} (written : ∀ r ∈ new, r ∈ p.recs j) :
    Sole a b { p with members := Function.update p.members k (some (m.hear env k new)) } := by
  refine ⟨sole.noSnap, sole.silent, fun i q differs running row found => ?_⟩
  obtain ⟨rfl, rfl⟩ | ⟨-, running⟩ := update_eq_some running
  · have ok : AllOk new := fun r here => sound.okRecs j r (written r here)
    rw [Member.hear, rows_replay env i ok] at found
    rcases row_of_run found with before | ⟨r, member, event⟩
    · exact sole.owner i m differs up row before
    · by_cases same : j = b
      · subst same
        exact owner_of_event (sound.own j r (written r member)) event
      · have quiet := sole.silent_recs same (written r member)
        rw [event] at quiet
        simp [KeyedLog.Event.on] at quiet
  · exact sole.owner i q differs running row found

theorem Sole.boot (sole : p.Sole a b) (sound : p.Sound) (k : Inst) (env : Env) (js : List Inst) :
    Sole a b { p with
      members := Function.update p.members k
        (some (.booted env k (p.snaps k ++ p.recs k ++ js.flatMap p.snaps))) } := by
  refine ⟨sole.noSnap, sole.silent, fun i q other running row found => ?_⟩
  obtain ⟨rfl, rfl⟩ | ⟨-, running⟩ := update_eq_some running
  · have silent := sole.silent_opened i (fun r member => sole.silent_recs other member) js
    have nothing := rows_replay_silent env i (sound.okOpened i (sound.okRecs i) js) silent .empty
    rw [Member.booted, nothing] at found
    cases found
  · exact sole.owner i q other running row found

theorem Sole.step (sole : p.Sole a b) (sound : p.Sound) (step : Step (.sole a b) p p') :
    p'.Sole a b := by
  cases step with
  | @act k m act j up step checked runs allowed =>
      exact sole.act up fun other => step.row_kept checked runs
        (step.spares other checked (sole.owner k m other up) (allowed other))
  | save up idle ord allowed => exact sole.save up ord allowed
  | hear up other env written => exact sole.hear sound up env written
  | boot down env others opened => exact sole.boot sound _ env _
  | stop up idle =>
      exact ⟨sole.noSnap, sole.silent, fun i q other running =>
        sole.owner i q other (update_none_eq_some running).2⟩

theorem Sole.steps (sole : p.Sole a b) (sound : p.Sound) (steps : Steps (.sole a b) p p') :
    p'.Sole a b := by
  suffices both : p'.Sound ∧ p'.Sole a b from both.2
  induction steps with
  | refl => exact ⟨sound, sole⟩
  | tail _ last ih => exact ⟨ih.1.step last, ih.2.step ih.1 last⟩

end Pool

/-! ## What a sibling has of the code -/

def loggedRow (a : String) (bytes : Bytes) : Option Row :=
  ((readOps bytes).foldl (apply (.at 0 []) 0) .empty).index.rows a

theorem loggedRow_nil (a : String) : loggedRow a [] = none :=
  rfl

/-- Lines of records assign the rows of the records. -/
theorem loggedRow_of_lines {bytes : Bytes} {rs : List Rec} (ok : AllOk rs)
    (framed : lines NL bytes = rs.map Rec.line) (a : String) :
    loggedRow a bytes = rowsOf rs a := by
  have ops : readOps bytes = rs.map Rec.op := by
    rw [readOps, framed]
    exact filterMap_parseOp_lines ok
  rw [loggedRow, ops]
  exact congrFun (rows_replay (.at 0 []) 0 ok .empty) a

/-- What a store has of a code is what the part of a log in front of its reader
says. -/
structure Ears.Follows (a : String) (b : Inst) (data : Bytes) (e : Ears) : Prop where
  stands : (e.heard b).Stands data
  row : e.view.index.rows a = loggedRow a (data.take (e.heard b).offset)

section Reading

variable {a : String} {b k : Inst} {dir : Dir} {env : Env}

/-- To read other logs, which assign the code nothing, changes nothing. -/
theorem Ears.Follows.other {e : Ears} {j : Inst} (follows : e.Follows a b (dir.read (.log b)))
    (other : j ≠ b) {new : List Rec} (ok : AllOk new) (ops : e.ops env dir j = new.map Rec.op)
    (silent : ∀ r ∈ new, (recEvent r).on a = none) :
    (e.hear env k dir j).Follows a b (dir.read (.log b)) := by
  have heard := Ears.hear_other env k dir e (Ne.symm other)
  refine ⟨heard ▸ follows.stands, ?_⟩
  rw [heard, Ears.view_hear, ops]
  exact (Pool.rows_replay_silent env k ok silent e.view).trans follows.row

/-- A reader that stands in a log has seen the first of its records. -/
theorem TailReader.Stands.seen {r : TailReader} {log : List Rec} (stands : r.Stands (logBytes log))
    (ok : AllOk log) : ∃ seen unseen, log = seen ++ unseen ∧ Seen r log seen := by
  obtain ⟨seen, ⟨unseen, split⟩, framed⟩ :=
    List.prefix_map_iff.mp (lines_take_logBytes ok r.offset)
  exact ⟨seen, unseen, split.symm, stands, framed⟩

variable (env k) in
/-- To read the log itself adds what its next lines say. -/
theorem Ears.Follows.same {e : Ears} {log : List Rec} (follows : e.Follows a b (dir.read (.log b)))
    (ok : AllOk log) (bytes : dir.read (.log b) = logBytes log) :
    (e.hear env k dir b).Follows a b (dir.read (.log b)) ∧
      (env.short b = 0 → ((e.hear env k dir b).heard b).offset = (dir.read (.log b)).length) := by
  obtain ⟨seen, unseen, split, read⟩ := (bytes ▸ follows.stands).seen ok
  obtain ⟨new, left, r', got, parts, read', -⟩ := read.readNew split ok bytes (env.short b)
  have okSeen : AllOk (seen ++ new) := fun r member => ok r <| by
    rw [split, parts, ← List.append_assoc]
    exact List.mem_append_left _ member
  have okNew : AllOk new := fun r member => okSeen r (List.mem_append_right _ member)
  have heard : (e.hear env k dir b).heard b = r' := by
    rw [Ears.hear_self, readSibling, got]
  have ops : e.ops env dir b = new.map Rec.op := by
    rw [Ears.ops, got]
    exact filterMap_parseOp_lines okNew
  have before : loggedRow a ((dir.read (.log b)).take (e.heard b).offset) = rowsOf seen a := by
    rw [bytes]
    exact loggedRow_of_lines (fun r member => okSeen r (List.mem_append_left _ member)) read.lines a
  refine ⟨⟨?_, ?_⟩, fun full => ?_⟩
  · rw [heard, bytes]
    exact read'.stands
  · calc (e.hear env k dir b).view.index.rows a
        = KeyedLog.run e.view.index.rows (new.map recEvent) a := by
          rw [Ears.view_hear, ops]
          exact congrFun (rows_replay env k okNew e.view) a
      _ = KeyedLog.run (rowsOf seen) (new.map recEvent) a :=
          KeyedLog.run_congr (follows.row.trans before) _
      _ = rowsOf (seen ++ new) a := (congrFun (run_recs_append _ seen new) a).symm
      _ = _ := by
          rw [heard, bytes]
          exact (loggedRow_of_lines okSeen read'.lines a).symm
  · obtain ⟨r'', ls, got', -, -, whole⟩ := follows.stands.readNew (env.short b)
    rw [heard]
    have same : r'' = r' := congrArg Prod.fst (got'.symm.trans got)
    rw [← same]
    exact whole full

/-- What the logs of siblings are about to yield: their own records, and of the
instances but `b` no record that assigns the code. -/
structure Ears.Tells (a : String) (b : Inst) (env : Env) (dir : Dir) (e : Ears) (js : List Inst) :
    Prop where
  once : js.Nodup
  others : ∀ j ∈ js, j ≠ b → ∃ new : List Rec, AllOk new ∧ e.ops env dir j = new.map Rec.op ∧
    ∀ r ∈ new, (recEvent r).on a = none

/-- A store that reads logs follows the log of the code wherever it stands in
the row. -/
theorem Ears.Follows.reads {js : List Inst} {e : Ears} {log : List Rec}
    (follows : e.Follows a b (dir.read (.log b))) (ok : AllOk log)
    (bytes : dir.read (.log b) = logBytes log) (tells : e.Tells a b env dir js) :
    (js.foldl (Ears.hear env k dir) e).Follows a b (dir.read (.log b)) ∧
      (b ∈ js → env.short b = 0 →
        ((js.foldl (Ears.hear env k dir) e).heard b).offset = (dir.read (.log b)).length) ∧
      (b ∉ js → (js.foldl (Ears.hear env k dir) e).heard b = e.heard b) := by
  induction js generalizing e with
  | nil => exact ⟨follows, fun member => (by cases member), fun _ => rfl⟩
  | cons j js ih =>
      obtain ⟨absent, once⟩ := List.nodup_cons.mp tells.once
      have tells' : (e.hear env k dir j).Tells a b env dir js := by
        refine ⟨once, fun i member other => ?_⟩
        have differs : i ≠ j := fun same => absent (same ▸ member)
        rw [Ears.ops_hear_other env k dir e differs]
        exact tells.others i (List.mem_cons_of_mem _ member) other
      rw [List.foldl_cons]
      by_cases same : j = b
      · subst same
        obtain ⟨next, whole⟩ := follows.same k env ok bytes
        obtain ⟨later, -, stays⟩ := ih next tells'
        refine ⟨later, fun _ full => ?_, fun unread => absurd List.mem_cons_self unread⟩
        rw [stays absent]
        exact whole full
      · obtain ⟨new, okNew, ops, silent⟩ := tells.others j List.mem_cons_self same
        obtain ⟨later, whole, stays⟩ := ih (follows.other (k := k) same okNew ops silent) tells'
        refine ⟨later, fun member => ?_, fun unread => ?_⟩
        · exact whole ((List.mem_cons.mp member).resolve_left (Ne.symm same))
        · rw [stays fun member => unread (List.mem_cons_of_mem _ member)]
          exact Ears.hear_other env k dir e (Ne.symm same)

end Reading

/-! ## Runs -/

/-- The cluster stands for a pool in which the instance `b` alone writes the
code, and every other instance has of it what it has read of the log of `b`. -/
structure Cluster.Trails (truncates : Inst → Prop) (a : String) (b : Inst) (c : Cluster) (p : Pool)
    (log buf : Inst → List Rec) : Prop where
  sound : p.Sound
  sole : p.Sole a b
  pools : Pools truncates c p log buf
  follows : ∀ k s, k ≠ b → c.nodes k = some s → s.ears.Follows a b (c.dir.read (.log b))

def Cluster.Trailed (truncates : Inst → Prop) (a : String) (b : Inst) (c : Cluster) : Prop :=
  ∃ p log buf, c.Trails truncates a b p log buf

/-- The acts of a step of another instance do not create the code. -/
def Cluster.Spares (a : String) (b : Inst) (c : Cluster) : ClusterStep → Prop
  | .call k env call => k ≠ b → ∀ s, c.nodes k = some s → ∀ act,
      call.ActsIn env ⟨s, c.dir⟩ act → ∀ url now exp, act ≠ .create a url now exp
  | _ => True

section Trailing

variable {truncates : Inst → Prop} {a : String} {b k : Inst} {c c' : Cluster} {p p' : Pool}
  {log buf log' buf' : Inst → List Rec}

variable (k c') in
/-- What one instance does is followed by the others as long as the log of `b`
only grows. -/
theorem Cluster.Trails.follow (trails : c.Trails truncates a b p log buf)
    (nodes : ∀ i, i ≠ k → c'.nodes i = c.nodes i)
    (grown : c.dir.read (.log b) <+: c'.dir.read (.log b))
    (own : k ≠ b → ∀ s, c'.nodes k = some s → s.ears.Follows a b (c'.dir.read (.log b))) :
    ∀ i s, i ≠ b → c'.nodes i = some s → s.ears.Follows a b (c'.dir.read (.log b)) := by
  intro i s other running
  by_cases same : i = k
  · subst same
    exact own other s running
  · rw [nodes i same] at running
    have follows := trails.follows i s other running
    obtain ⟨more, whole⟩ := grown
    rw [← whole]
    refine ⟨follows.stands.grow more, ?_⟩
    rw [TailReader.take_grown follows.stands]
    exact follows.row

theorem Cluster.Trails.next (trails : c.Trails truncates a b p log buf)
    (steps : Pool.Steps (.sole a b) p p') (pools : Pools truncates c' p' log' buf')
    (follows : ∀ i s, i ≠ b → c'.nodes i = some s → s.ears.Follows a b (c'.dir.read (.log b))) :
    c'.Trailed truncates a b :=
  ⟨p', log', buf', trails.sound.steps steps, trails.sole.steps trails.sound steps, pools, follows⟩

theorem Cluster.Trails.boot (trails : c.Trails truncates a b p log buf) (k : Inst) (env : Env) :
    (c.step (.boot k env)).Trailed truncates a b := by
  obtain ⟨p', steps, pools'⟩ :=
    trails.pools.boot (.sole a b) trails.sound k env fun _ _ _ => trivial
  refine trails.next steps pools' ?_
  cases running : c.nodes k with
  | some s =>
      simp only [Cluster.step, running]
      exact trails.follows
  | none =>
      have opened := trails.follow k (c.step (.boot k env))
      simp only [Cluster.step, running] at opened ⊢
      refine opened (fun i other => Function.update_of_ne other _ _) ?_ ?_
      · exact (Dir.read_opened c.dir k (.log b)).symm ▸ List.prefix_rfl
      · intro other s arrived
        obtain rfl : (Inner.new env c.dir k false).1 = s := by simpa using arrived
        have start : (Inner.new env c.dir k false).1.ears.heard b = .fromStart :=
          heard_new env c.dir k false b
        have view := view_new env trails.sound.okSnaps (trails.pools.okLog trails.sound k)
          trails.pools.snapFile (trails.pools.logFile k) false
        refine ⟨?_, ?_⟩
        · rw [start]
          exact TailReader.stands_fromStart _
        · rw [start]
          change (Inner.new env c.dir k false).1.view.index.rows a = loggedRow a []
          rw [view, loggedRow_nil]
          exact Pool.rows_replay_silent env k
            (trails.sound.okOpened k (trails.pools.okLog trails.sound k) _)
            (trails.sole.silent_opened k (fun r member =>
              trails.sole.silent_recs other ((trails.pools.log_prefix k).subset member)) _) .empty

theorem Cluster.Trails.stop (trails : c.Trails truncates a b p log buf) (k : Inst) (env : Env) :
    (c.step (.stop k env)).Trailed truncates a b := by
  obtain ⟨p', log', buf', steps, pools'⟩ :=
    trails.pools.stop (.sole a b) k env fun _ url now exp => by simp
  refine trails.next steps pools' ?_
  cases running : c.nodes k with
  | none =>
      simp only [Cluster.step, running]
      exact trails.follows
  | some s =>
      obtain ⟨m, up, seat⟩ := trails.pools.up k s running
      obtain ⟨-, -, logFile, files, -⟩ := seat.holds.close env
      rw [show (World.mk s c.dir).store.inst = k from seat.inst] at logFile files
      have closed := trails.follow k (c.step (.stop k env))
      simp only [Cluster.step, running] at closed ⊢
      refine closed (fun i other => Function.update_of_ne other _ _) ?_ ?_
      · by_cases same : k = b
        · subst same
          have grown : (s.close env c.dir).2.read (.log k) = _ := logFile
          rw [grown, trails.pools.logFile k, List.nil_append, List.append_assoc, logBytes_append]
          exact List.prefix_append _ _
        · have kept : (s.close env c.dir).2 (.log b) = c.dir (.log b) :=
            files (.log b) (Ne.symm same)
          rw [Dir.read, Dir.read, kept]
      · intro other s' arrived
        simp at arrived

/-- Acts of another instance that leave the code alone. -/
theorem Journal.row_kept {j j' : Journal} (other : k ≠ b)
    (owner : ∀ row, j.index.rows a = some row → row.i = b.i32) {acts : Act → Prop}
    (kinds : ∀ act, acts act → act.Runs ∧ ∀ url now exp, act ≠ .create a url now exp)
    (path : Relation.ReflTransGen (Journal.Does k acts) j j') :
    j'.index.rows a = j.index.rows a := by
  induction path with
  | refl => rfl
  | tail _ last ih =>
      obtain ⟨act, step, checked, allowed⟩ := last
      obtain ⟨runs, uncreated⟩ := kinds act allowed
      rw [← ih] at owner
      exact (step.row_kept checked runs (step.spares other checked owner uncreated)).2.trans ih

theorem Cluster.Trails.logs (trails : c.Trails truncates a b p log buf) (k : Inst) (env : Env)
    {call : Call} (logs : call.logs = true) (spares : c.Spares a b (.call k env call)) :
    (c.step (.call k env call)).Trailed truncates a b := by
  obtain ⟨p', log', buf', steps, pools'⟩ := trails.pools.logsIn (.sole a b) k env logs
    fun s running act acts other => spares other s running act acts
  refine trails.next steps pools' ?_
  cases running : c.nodes k with
  | none =>
      simp only [Cluster.step, running]
      exact trails.follows
  | some s =>
      obtain ⟨m, up, seat⟩ := trails.pools.up k s running
      have inst : (World.mk s c.dir).store.inst = k := seat.inst
      have index : s.index = m.index := congrArg View.index seat.view
      have extended : ExtendsBy (Journal.Does s.inst (call.ActsIn env ⟨s, c.dir⟩)) [] (p.snaps k) []
          (log k) (buf k) ⟨s, c.dir⟩ ((World.mk s c.dir).step (env, call)) :=
        seat.holds.logsIn env logs
      obtain ⟨log₁, buf₁, rs, holds, frame, more, -, path⟩ := extended
      have wrote := trails.follow k (c.step (.call k env call))
      simp only [Cluster.step, running] at wrote ⊢
      generalize (World.mk s c.dir).step (env, call) = w at frame holds path wrote ⊢
      have logFile := holds.logFile
      rw [frame.inst, inst] at logFile
      refine wrote (fun i other => Function.update_of_ne other _ _) ?_ ?_
      · by_cases same : k = b
        · subst same
          obtain ⟨rest, rfl⟩ := more
          rw [logFile, trails.pools.logFile k, List.nil_append, logBytes_append]
          exact List.prefix_append _ _
        · have kept : w.dir (.log b) = c.dir (.log b) :=
            frame.files (.log b) (by rw [inst]; exact Ne.symm same)
          rw [Dir.read, Dir.read, kept]
      · intro other s' arrived
        obtain rfl : w.store = s' := by simpa using arrived
        have kept : w.dir.read (.log b) = c.dir.read (.log b) :=
          congrArg (Option.getD · []) (frame.files (.log b) (by rw [inst]; exact Ne.symm other))
        have heard : w.store.ears.heard b = s.ears.heard b := by
          change w.store.heard b = s.heard b
          rw [Inner.heard, frame.readers]
          rfl
        have row : w.store.index.rows a = s.index.rows a := by
          rw [show s.inst = k from inst] at path
          refine Journal.row_kept other ?_ (fun act acts =>
            ⟨(Call.acts_kind logs acts.1).1, spares other s running act acts⟩) path
          intro row found
          have found' : s.index.rows a = some row := found
          rw [index] at found'
          exact trails.sole.owner k m other up row found'
        obtain ⟨stands, before⟩ := trails.follows k s other running
        rw [kept]
        exact ⟨heard ▸ stands, heard ▸ row.trans before⟩

theorem Cluster.Trails.compact (trails : c.Trails truncates a b p log buf) {k : Inst} (env : Env)
    (other : k ≠ b) (mayTruncate : truncates k) :
    (c.step (.call k env .compact)).Trailed truncates a b := by
  obtain ⟨p', log', buf', steps, pools'⟩ := trails.pools.compact (.sole a b) k env mayTruncate
    (fun _ url now exp => by simp) fun _ _ _ _ => other
  refine trails.next steps pools' ?_
  cases running : c.nodes k with
  | none =>
      simp only [Cluster.step, running]
      exact trails.follows
  | some s =>
      obtain ⟨m, up, seat⟩ := trails.pools.up k s running
      have inst : (World.mk s c.dir).store.inst = k := seat.inst
      obtain ⟨-, frame, -⟩ := @Holds.compact _ _ _ _ _ seat.holds [] env True
      have store := seat.holds.store_compact env
      have compacted := trails.follow k (c.step (.call k env .compact))
      simp only [Cluster.step, running] at compacted ⊢
      generalize (World.mk s c.dir).step (env, .compact) = w at frame store compacted ⊢
      have kept : w.dir.read (.log b) = c.dir.read (.log b) :=
        congrArg (Option.getD · []) (frame.files (.log b) (by rw [inst]; exact Ne.symm other))
      refine compacted (fun i other => Function.update_of_ne other _ _) ?_ ?_
      · rw [kept]
      · intro _ s' arrived
        obtain rfl : w.store = s' := by simpa using arrived
        have ears : w.store.ears = s.ears := by
          rw [store]
          rfl
        rw [kept, ears]
        exact trails.follows k s other running

/-- What an instance reads in a step are records of the logs it reads. -/
theorem Cluster.Trails.tells (trails : c.Trails truncates a b p log buf) {s s' : Inner} {env : Env}
    {js : List Inst} (reads : Reads env c.dir js s s')
    (honest : ∀ j ∈ js, ∀ o ∈ s.ears.ops env c.dir j, o ∈ readOps (c.dir.read (.log j))) :
    s.ears.Tells a b env c.dir js := by
  refine ⟨reads.once, fun j member other => ?_⟩
  have okLog := trails.pools.okLog trails.sound j
  have held : ∀ o ∈ s.ears.ops env c.dir j, o ∈ (log j).map Rec.op := by
    intro o listed
    rw [← readOps_logBytes okLog, ← trails.pools.logFile]
    exact honest j member o listed
  obtain ⟨new, ops, written⟩ := exists_records held
  exact ⟨new, fun r here => okLog r (written r here), ops, fun r here =>
    trails.sole.silent_recs other ((trails.pools.log_prefix j).subset (written r here))⟩

/-- A store that only read has of the code what it read. -/
theorem Cluster.Trails.reads (trails : c.Trails truncates a b p log buf) {k : Inst} {s s' : Inner}
    (other : k ≠ b) (running : c.nodes k = some s) {env : Env} {js : List Inst}
    (reads : Reads env c.dir js s s')
    (honest : ∀ j ∈ js, ∀ o ∈ s.ears.ops env c.dir j, o ∈ readOps (c.dir.read (.log j))) :
    s'.ears.Follows a b (c.dir.read (.log b)) ∧
      (b ∈ js → env.short b = 0 → (s'.ears.heard b).offset = (c.dir.read (.log b)).length) ∧
      (b ∉ js → s'.ears.heard b = s.ears.heard b) := by
  rw [reads.ears]
  exact (trails.follows k s other running).reads (trails.pools.okLog trails.sound b)
    (trails.pools.logFile b) (trails.tells reads honest)

/-- An instance that only read takes the place of what it was. -/
theorem Cluster.Trails.replace (trails : c.Trails truncates a b p log buf) {s' : Inner}
    (served : List (Inst × String))
    (own : k ≠ b → s'.ears.Follows a b (c.dir.read (.log b))) :
    ∀ i s, i ≠ b → Function.update c.nodes k (some s') i = some s →
      s.ears.Follows a b (c.dir.read (.log b)) :=
  trails.follow k ⟨Function.update c.nodes k (some s'), c.dir, served⟩
    (fun i other => Function.update_of_ne other _ _) List.prefix_rfl fun other s arrived => by
      obtain rfl : s' = s := by simpa using arrived
      exact own other

theorem Cluster.Trails.poll (trails : c.Trails truncates a b p log buf) (k : Inst) (env : Env)
    (honest : c.Honest (.call k env .poll)) :
    (c.step (.call k env .poll)).Trailed truncates a b := by
  obtain ⟨p', steps, pools'⟩ := trails.pools.poll (.sole a b) trails.sound k env honest
  refine trails.next steps pools' ?_
  cases running : c.nodes k with
  | none =>
      simp only [Cluster.step, running]
      exact trails.follows
  | some s =>
      obtain ⟨m, -, seat⟩ := trails.pools.up k s running
      obtain ⟨s', result, reads⟩ := seat.holds.poll (by rw [seat.inst]; exact seat.noSelf) env
      simp only [Cluster.step, running, result]
      exact trails.replace [] fun other =>
        (trails.reads other running reads (honest s running)).1

theorem Cluster.Trails.resolve (trails : c.Trails truncates a b p log buf) (k : Inst) (env : Env)
    (code : String) (honest : c.Honest (.call k env (.resolve code))) :
    (c.step (.call k env (.resolve code))).Trailed truncates a b := by
  obtain ⟨p', steps, pools'⟩ := trails.pools.resolve (.sole a b) trails.sound k env code
    (fun _ url now exp => by simp) honest
  refine trails.next steps pools' ?_
  cases running : c.nodes k with
  | none =>
      simp only [Cluster.step, running]
      exact trails.follows
  | some s =>
      obtain ⟨m, -, seat⟩ := trails.pools.up k s running
      obtain ⟨s', reads, ends⟩ := seat.holds.resolve (by rw [seat.inst]; exact seat.noSelf)
        env code
      have heard := fun other =>
        (trails.reads (k := k) other running reads (honest s running)).1
      rcases ends with ⟨-, result⟩ | ⟨ent, -, found, result⟩
      · simp only [Cluster.step, running, result]
        exact trails.replace [] heard
      · simp only [Cluster.step, running, result]
        refine trails.replace [] fun other => ?_
        obtain ⟨stands, row⟩ := heard other
        refine ⟨stands, Eq.trans ?_ row⟩
        exact congrFun (Journal.rows_counted found _ _) a

/-- Every step with the one writer is followed. -/
theorem Cluster.Trailed.step (trailed : c.Trailed truncates a b) {step : ClusterStep}
    (honest : c.Honest step) (spares : c.Spares a b step)
    (mayTruncate : ∀ k env, step = .call k env .compact → k ≠ b ∧ truncates k) :
    (c.step step).Trailed truncates a b := by
  obtain ⟨p, log, buf, trails⟩ := trailed
  cases step with
  | boot k env => exact trails.boot k env
  | stop k env => exact trails.stop k env
  | call k env call =>
      cases call with
      | poll => exact trails.poll k env honest
      | resolve code => exact trails.resolve k env code honest
      | compact =>
          obtain ⟨other, truncated⟩ := mayTruncate k env rfl
          exact trails.compact env other truncated
      | restart =>
          cases running : c.nodes k with
          | none =>
              simp only [Cluster.step, running]
              exact ⟨p, log, buf, trails⟩
          | some s =>
              rw [trails.pools.restart_eq running]
              obtain ⟨p', log', buf', stopped⟩ := trails.stop k env
              exact stopped.boot k env
      | shorten url aliasCode ttl => exact trails.logs k env rfl spares
      | shortenMany urls ttl => exact trails.logs k env rfl spares
      | update code url ttl hasTtl => exact trails.logs k env rfl spares
      | remove code => exact trails.logs k env rfl spares
      | flush => exact trails.logs k env rfl spares

theorem trailed_start (truncates : Inst → Prop) (a : String) (b : Inst) :
    Cluster.start.Trailed truncates a b :=
  ⟨.start, _, _, Pool.sound_start, Pool.sole_start a b, pools_start truncates,
    fun _ _ _ up => by cases up⟩

end Trailing

/-! ## Read misses -/

/-- A read miss reads a sibling's log if the code names the sibling, or if it
names no other instance and the last poll was long enough ago. -/
theorem mem_tailOrder {env : Env} {s : Inner} {dir : Dir} {a : String} {b : Inst}
    (queue : s.aof.isSome) (nonempty : a ≠ "") (other : b ≠ s.inst)
    (present : (dir (.log b)).isSome) :
    b ∈ s.tailOrder env dir a ↔ ownerOf a = some b ∨
      (ownerOf a).filter (· ≠ s.inst) = none ∧ TAIL_MIN_INTERVAL ≤ env.clock 1 - s.lastPoll := by
  obtain ⟨q, queued⟩ := Option.isSome_iff_exists.mp queue
  cases bytes : encode a with
  | nil =>
      have empty : encode a = encode "" := bytes
      exact absurd (encode_injective empty) nonempty
  | cons first rest =>
      have owner : ownerOf a = alphaIdx first := by
        rw [ownerOf, bytes]
        rfl
      rw [owner]
      simp only [Inner.tailOrder, bytes, queued]
      cases picked : (alphaIdx first).filter (· ≠ s.inst) with
      | some k =>
          obtain ⟨named, -⟩ := Option.filter_eq_some_iff.mp picked
          simp [named, eq_comm]
      | none =>
          have unnamed : alphaIdx first ≠ some b := by
            intro named
            rw [named, Option.filter_some, if_pos (by simpa using other)] at picked
            cases picked
          simp only [unnamed, false_or, true_and]
          constructor
          · intro member
            by_contra early
            rw [if_neg early] at member
            cases member
          · intro rested
            rw [if_pos rested]
            exact mem_pollOrder_of_present other present

/-- A resolve that misses finds the row that a sibling has logged exactly when it
reads the log of that sibling. -/
theorem Cluster.Trails.resolve_missed_iff {truncates : Inst → Prop} {a : String} {b k : Inst}
    {c : Cluster} {p : Pool} {log buf : Inst → List Rec} (trails : c.Trails truncates a b p log buf)
    (other : k ≠ b) {s : Inner} (running : c.nodes k = some s) {env : Env}
    (honest : c.Honest (.call k env (.resolve a))) (missing : s.index.lookup a = none) {row : Row}
    (logged : loggedRow a (c.dir.read (.log b)) = some row)
    (alive : row.e = 0 ∨ env.clock 3 < row.e) (whole : env.short b = 0) :
    (s.resolve env c.dir a).1 = some row.u ↔ b ∈ s.tailOrder env c.dir a := by
  obtain ⟨m, -, seat⟩ := trails.pools.up k s running
  have queue : s.aof = some ⟨logBytes (buf k)⟩ := seat.holds.queue
  have reads := reads_tailMissed env c.dir a (s := s) (by rw [seat.inst]; exact seat.noSelf)
  have order : s.callOrder env c.dir (.resolve a) = s.tailOrder env c.dir a := by
    simp [Inner.callOrder, missing]
  have read := honest s running
  rw [order] at read
  obtain ⟨follows, full, stays⟩ := trails.reads other running reads read
  simp only [Inner.resolve, missing, queue]
  have found : (s.tailMissed env c.dir a).index.rows a = _ := follows.row
  constructor
  · intro resolved
    by_contra unread
    have before : s.index.rows a = _ := (trails.follows k s other running).row
    rw [stays unread, ← before, Index.rows, Index.rows, missing] at found
    rw [Option.map_eq_none_iff.mp found] at resolved
    cases resolved
  · intro member
    rw [full member whole, List.take_length, logged] at found
    obtain ⟨e, stored, same⟩ := Option.map_eq_some_iff.mp found
    have live : Inner.live e (env.clock 3) = true := by
      have expires : e.e = row.e := congrArg Row.e same
      rw [Inner.live, expires]
      simpa using alive
    rw [stored]
    simp only [live, if_true]
    exact congrArg (fun row => some (Row.u row)) same

/-! ## Generated codes -/

/-- Without compaction all readers stand in their logs. -/
theorem Cluster.Trails.honest {a : String} {b : Inst} {c : Cluster} {p : Pool}
    {log buf : Inst → List Rec} (trails : c.Trails (fun _ => False) a b p log buf)
    (step : ClusterStep) : c.Honest step := by
  refine trails.pools.honest trails.sound ?_
  cases step with
  | boot k env => trivial
  | stop k env => trivial
  | call k env call =>
      intro s running j member
      obtain ⟨m, -, seat⟩ := trails.pools.up k s running
      have other := ne_of_mem_callOrder (by rw [seat.inst]; exact seat.noSelf) member
      rw [seat.inst] at other
      rw [trails.pools.logFile]
      exact Or.inr (seat.standing j other id)

def Call.unaliased : Call → Bool
  | .shorten _ (some _) _ | .compact => false
  | _ => true

def ClusterStep.unaliased : ClusterStep → Bool
  | .call _ _ request => request.unaliased
  | _ => true

theorem Cluster.spares_unaliased {c : Cluster} {code : String} {b : Inst}
    (named : ownerOf code = some b) {truncates : Inst → Prop} {p : Pool} {log buf : Inst → List Rec}
    (pools : Pools truncates c p log buf) {step : ClusterStep}
    (unaliased : step.unaliased = true) : c.Spares code b step := by
  cases step with
  | boot k env => trivial
  | stop k env => trivial
  | call k env call =>
      rintro other s running act acts url now exp rfl
      obtain ⟨m, -, seat⟩ := pools.up k s running
      have generated : call.generated = true := by
        cases call with
        | restart => exact acts.1.elim
        | compact => exact acts.1.elim
        | shorten url aliasCode ttl =>
            cases aliasCode with
            | none => rfl
            | some a => cases unaliased
        | shortenMany urls ttl => rfl
        | update code url ttl hasTtl => rfl
        | remove code => rfl
        | resolve code => rfl
        | flush => rfl
        | poll => rfl
      have mine : ownerOf code = some s.inst := Call.generates generated acts.1
      rw [named, seat.inst] at mine
      exact other (Option.some.inj mine).symm

/-- A log that gives a code a row is there. -/
theorem present_of_logged {a : String} {dir : Dir} {b : Inst} {row : Row}
    (logged : loggedRow a (dir.read (.log b)) = some row) : (dir (.log b)).isSome := by
  cases missing : dir (.log b) with
  | some bytes => rfl
  | none =>
      rw [Dir.read, missing] at logged
      cases logged

/-- After any schedule with generated codes and without compaction, an instance
that does not know a code resolves it to the url that the code's own instance has
logged last, however recently it has polled. -/
theorem missed_code_resolves {schedule : List ClusterStep}
    (unaliased : ∀ step ∈ schedule, step.unaliased = true) {b k : Inst} (other : k ≠ b)
    {code : String} (named : ownerOf code = some b) {s : Inner}
    (running : (Cluster.start.run schedule).nodes k = some s) {row : Row}
    (logged : loggedRow code ((Cluster.start.run schedule).dir.read (.log b)) = some row)
    (missing : s.index.lookup code = none) {env : Env}
    (alive : row.e = 0 ∨ env.clock 3 < row.e) (whole : env.short b = 0) :
    (s.resolve env (Cluster.start.run schedule).dir code).1 = some row.u := by
  have along : Along Cluster.step (fun _ step => step.unaliased = true) .start schedule :=
    Along.of_forall (fun step member _ => unaliased step member) _
  have trailed : (Cluster.start.run schedule).Trailed (fun _ => False) code b := by
    refine along.invariant (fun c step trailed unaliased => ?_) (trailed_start _ code b)
    obtain ⟨p, log, buf, trails⟩ := id trailed
    refine trailed.step (trails.honest step) (c.spares_unaliased named trails.pools unaliased) ?_
    rintro k' env' rfl
    cases unaliased
  obtain ⟨p, log, buf, trails⟩ := trailed
  generalize Cluster.start.run schedule = c at running logged trails ⊢
  obtain ⟨m, -, seat⟩ := trails.pools.up k s running
  have queue : s.aof = some ⟨logBytes (buf k)⟩ := seat.holds.queue
  have nonempty : code ≠ "" := by
    rintro rfl
    cases named
  refine (trails.resolve_missed_iff other running (trails.honest _) missing logged alive whole).mpr
    ((mem_tailOrder ?_ nonempty ?_ (present_of_logged logged)).mpr (Or.inl named))
  · rw [queue]
    rfl
  · rw [seat.inst]
    exact Ne.symm other

/-- A link is read in part, and then changed, while its instance goes on. -/
def missedSchedule : List ClusterStep :=
  [.boot 0 (.at 0 []), .boot 1 (.at 1 []),
   .call 0 (.at 2 [drawn]) (.shorten "https://a" none 0), .call 0 (.at 3 []) .flush,
   .call 1 { Env.at 4 [] with short := fun _ => 5 } .poll,
   .call 0 (.at 5 []) (.update (genCode 0 drawn) "https://b" 0 false),
   .call 0 (.at 6 []) .flush]

theorem missed_code_resolves_partly_read :
    ∃ s, (Cluster.start.run missedSchedule).nodes 1 = some s ∧
      s.index.lookup (genCode 0 drawn) = none ∧
      (s.resolve (.at 7 []) (Cluster.start.run missedSchedule).dir (genCode 0 drawn)).1 =
        some "https://b" := by
  have facts : ∃ s ∈ (Cluster.start.run missedSchedule).nodes 1,
      s.index.lookup (genCode 0 drawn) = none ∧
      loggedRow (genCode 0 drawn) ((Cluster.start.run missedSchedule).dir.read (.log 0)) =
        some ⟨"https://b", 2, 0, 0⟩ := by
    decide +kernel
  obtain ⟨s, running, missing, logged⟩ := facts
  exact ⟨s, running, missing, missed_code_resolves (by decide +kernel) (by decide)
    (ownerOf_genCode 0 drawn) running logged missing (Or.inl rfl) rfl⟩

/-! ## Aliases -/

def Call.compacts : Call → Bool
  | .compact => true
  | _ => false

/-- What is read of a log are lines of that log, no other instance than `b`
creates the code, and `b` is not compacted. -/
def Cluster.SoleWriter (a : String) (b : Inst) (c : Cluster) (step : ClusterStep) : Prop :=
  c.Honest step ∧
    match step with
    | .call k env call => (k = b → call.compacts = false) ∧
        (k ≠ b → ∀ s ∈ c.nodes k, a ∉ (World.mk s c.dir).created (env, call))
    | _ => True

instance (a : String) (b : Inst) (c : Cluster) : ∀ step, Decidable (c.SoleWriter a b step)
  | .boot _ _ => inferInstanceAs (Decidable (_ ∧ True))
  | .stop _ _ => inferInstanceAs (Decidable (_ ∧ True))
  | .call k env call => inferInstanceAs (Decidable (_ ∧ (k = b → call.compacts = false) ∧
      (k ≠ b → ∀ s ∈ c.nodes k, a ∉ (World.mk s c.dir).created (env, call))))

theorem Cluster.SoleWriter.spares {a : String} {b : Inst} {c : Cluster} {step : ClusterStep}
    (sole : c.SoleWriter a b step) : c.Spares a b step := by
  cases step with
  | boot k env => trivial
  | stop k env => trivial
  | call k env call =>
      rintro other s running act acts url now exp rfl
      exact sole.2.2 other s running acts.2

theorem trailed_sole {a : String} {b : Inst} {schedule : List ClusterStep}
    (sole : Along Cluster.step (Cluster.SoleWriter a b) .start schedule) :
    (Cluster.start.run schedule).Trailed (· ≠ b) a b := by
  refine sole.invariant (fun c step trailed sole => ?_) (trailed_start _ a b)
  refine trailed.step sole.1 sole.spares ?_
  rintro k env rfl
  have other : k ≠ b := fun same => absurd (sole.2.1 same) (by simp [Call.compacts])
  exact ⟨other, other⟩

/-- An instance that does not know an alias which one sibling has logged, and has
not polled lately, resolves it to the url logged last exactly when the first
character of the alias names no instance, the reader or the creator. -/
theorem missed_alias_resolves_iff {a : String} (ok : codeOk a = true) {b k : Inst} (other : k ≠ b)
    {schedule : List ClusterStep} {env : Env}
    (sole : Along Cluster.step (Cluster.SoleWriter a b) .start
      (schedule ++ [.call k env (.resolve a)]))
    {s : Inner} (running : (Cluster.start.run schedule).nodes k = some s) {row : Row}
    (logged : loggedRow a ((Cluster.start.run schedule).dir.read (.log b)) = some row)
    (alive : row.e = 0 ∨ env.clock 3 < row.e) (missing : s.index.lookup a = none)
    (rested : TAIL_MIN_INTERVAL ≤ env.clock 1 - s.lastPoll) (whole : env.short b = 0) :
    (s.resolve env (Cluster.start.run schedule).dir a).1 = some row.u ↔
      ∀ j, ownerOf a = some j → j = k ∨ j = b := by
  obtain ⟨before, ⟨honest, -⟩, -⟩ := Along.append.mp sole
  obtain ⟨p, log, buf, trails⟩ := trailed_sole before
  change Cluster.Honest (Cluster.start.run schedule) _ at honest
  generalize Cluster.start.run schedule = c at running logged trails honest ⊢
  obtain ⟨m, -, seat⟩ := trails.pools.up k s running
  have queue : s.aof = some ⟨logBytes (buf k)⟩ := seat.holds.queue
  have nonempty : a ≠ "" := (Plain.of_codeOk ok).nonempty
  rw [trails.resolve_missed_iff other running honest missing logged alive whole,
    mem_tailOrder (by rw [queue]; rfl) nonempty (by rw [seat.inst]; exact Ne.symm other)
      (present_of_logged logged), seat.inst]
  cases owner : ownerOf a with
  | none => simp [rested]
  | some j =>
      by_cases own : j = k
      · subst own
        simp [rested]
      · simp [own]

/-- The instance 0 logs a link under an alias that the instance 1 does not know. -/
def aliasSchedule (aliasCode : Alias) : List ClusterStep :=
  [.boot 0 (.at 0 []), .boot 1 (.at 1 []),
   .call 0 (.at 2 []) (.shorten "https://a" (some aliasCode) 0), .call 0 (.at 3 []) .flush]

def underscored : Alias := ⟨"_sale", by decide⟩

theorem missed_alias_resolves_underscored :
    ∃ s, (Cluster.start.run (aliasSchedule underscored)).nodes 1 = some s ∧
      s.index.lookup "_sale" = none ∧
      (s.resolve (.at 1000 []) (Cluster.start.run (aliasSchedule underscored)).dir "_sale").1 =
        some "https://a" := by
  have facts : ∃ s ∈ (Cluster.start.run (aliasSchedule underscored)).nodes 1,
      s.index.lookup "_sale" = none ∧ s.lastPoll = 0 ∧
      loggedRow "_sale" ((Cluster.start.run (aliasSchedule underscored)).dir.read (.log 0)) =
        some ⟨"https://a", 2, 0, 0⟩ := by
    decide +kernel
  obtain ⟨s, running, missing, polled, logged⟩ := facts
  refine ⟨s, running, missing, (missed_alias_resolves_iff (by decide) (by decide)
    (by decide +kernel) running logged (Or.inl rfl) missing ?_ rfl).mpr (by decide +kernel)⟩
  rw [polled]
  decide

/-- The first letter of an alias names an instance that never ran, and only the
log of that instance is looked for. -/
theorem alias_missed :
    codeOk "promo" = true ∧
    ∃ s, (Cluster.start.run (aliasSchedule promo)).nodes 1 = some s ∧
      s.index.lookup "promo" = none ∧
      TAIL_MIN_INTERVAL ≤ (Env.at 1000 []).clock 1 - s.lastPoll ∧
      loggedRow "promo" ((Cluster.start.run (aliasSchedule promo)).dir.read (.log 0)) =
        some ⟨"https://a", 2, 0, 0⟩ ∧
      (s.resolve (.at 1000 []) (Cluster.start.run (aliasSchedule promo)).dir "promo").1 = none := by
  have facts : ∃ s ∈ (Cluster.start.run (aliasSchedule promo)).nodes 1,
      s.index.lookup "promo" = none ∧
      TAIL_MIN_INTERVAL ≤ (Env.at 1000 []).clock 1 - s.lastPoll ∧
      loggedRow "promo" ((Cluster.start.run (aliasSchedule promo)).dir.read (.log 0)) =
        some ⟨"https://a", 2, 0, 0⟩ ∧
      (s.resolve (.at 1000 []) (Cluster.start.run (aliasSchedule promo)).dir "promo").1 = none := by
    decide +kernel
  obtain ⟨s, running, facts⟩ := facts
  exact ⟨by decide, s, running, facts⟩

end Shrt.Store
