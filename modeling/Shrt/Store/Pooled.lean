import Mathlib.Data.List.Basic
import Shrt.Store.Pool
import Shrt.Store.Simulation

/-!
# Schedules with compaction are runs of the pool

A reader whose log was truncated and has grown again may stand in the middle of
a line.  As long as what it takes for records are records of that log, a
schedule is a run of the pool.  This holds for every reader that stands at its
own place or starts over, and so for the readers of logs that are never
truncated.
-/

namespace Shrt.Store

open Shrt.Codec Shrt.Lib Shrt.Lib.Framing

/-- A reader that starts over, or goes on where it stands. -/
def TailReader.Valid (r : TailReader) (data : Bytes) : Prop :=
  data.length < r.offset ∨ r.Stands data

instance (r : TailReader) (data : Bytes) : Decidable (r.Stands data) :=
  decidable_of_iff (r.offset ≤ data.length ∧ rest NL (data.take r.offset) = r.leftover)
    ⟨fun both => ⟨both.1, both.2⟩, fun stands => ⟨stands.inside, stands.leftover⟩⟩

instance (r : TailReader) (data : Bytes) : Decidable (r.Valid data) :=
  inferInstanceAs (Decidable (_ ∨ _))

/-- What a valid reader hands out are lines of records of the log. -/
theorem TailReader.Valid.readNew {r : TailReader} {log : List Rec}
    (valid : r.Valid (logBytes log)) (ok : AllOk log) {dir : Dir} {f : FileName}
    (bytes : dir.read f = logBytes log) (short : Nat) :
    ∃ r', ∃ new : List Rec, r.readNew dir f short = (r', new.map Rec.line) ∧ (∀ x ∈ new, x ∈ log) ∧
      r'.Stands (logBytes log) := by
  obtain ⟨r₀, stands, same⟩ : ∃ r₀ : TailReader, r₀.Stands (logBytes log) ∧
      r.readNew dir f short = r₀.readNew dir f short := by
    rcases valid with beyond | stands
    · exact ⟨.fromStart, TailReader.stands_fromStart _,
        TailReader.readNew_rewound (bytes ▸ beyond) short⟩
    · exact ⟨r, stands, rfl⟩
  obtain ⟨r', ls, got, stands', handed, -⟩ := (bytes ▸ stands).readNew short
  rw [bytes] at stands' handed
  have within := lines_take_logBytes ok r'.offset
  rw [handed] at within
  -- The lines that were handed out are a part of all lines of the log.
  obtain ⟨later, whole⟩ := within
  refine ⟨r', (log.drop (lines NL ((logBytes log).take r₀.offset)).length).take ls.length, ?_, ?_,
    stands'⟩
  · rw [same, got, List.map_take, List.map_drop, ← whole, List.append_assoc, List.drop_left,
      List.take_left]
  · intro x member
    exact List.mem_of_mem_drop (List.mem_of_mem_take member)

def Cluster.Readable (c : Cluster) : ClusterStep → Prop
  | .call k env call => ∀ s ∈ c.nodes k, ∀ j ∈ s.callOrder env c.dir call,
      (s.heard j).Valid (c.dir.read (.log j))
  | _ => True

instance (c : Cluster) : ∀ step, Decidable (c.Readable step)
  | .boot _ _ => isTrue trivial
  | .stop _ _ => isTrue trivial
  | .call k env call => inferInstanceAs (Decidable (∀ s ∈ c.nodes k,
      ∀ j ∈ s.callOrder env c.dir call, (s.heard j).Valid (c.dir.read (.log j))))

/-- What a step reads of a log are operations that the log holds. -/
def Cluster.Honest (c : Cluster) : ClusterStep → Prop
  | .call k env call => ∀ s ∈ c.nodes k, ∀ j ∈ s.callOrder env c.dir call,
      ∀ o ∈ s.ears.ops env c.dir j, o ∈ readOps (c.dir.read (.log j))
  | _ => True

instance (c : Cluster) : ∀ step, Decidable (c.Honest step)
  | .boot _ _ => isTrue trivial
  | .stop _ _ => isTrue trivial
  | .call k env call => inferInstanceAs (Decidable (∀ s ∈ c.nodes k,
      ∀ j ∈ s.callOrder env c.dir call,
        ∀ o ∈ s.ears.ops env c.dir j, o ∈ readOps (c.dir.read (.log j))))

/-- A reader that stands in its log stands there after any reads. -/
theorem Ears.stands_foldl_hear (env : Env) (k : Inst) (dir : Dir) (js : List Inst) {e : Ears}
    {i : Inst} (stands : (e.heard i).Stands (dir.read (.log i))) :
    ((js.foldl (Ears.hear env k dir) e).heard i).Stands (dir.read (.log i)) := by
  induction js generalizing e with
  | nil => exact stands
  | cons j js ih =>
      apply ih
      by_cases same : i = j
      · subst same
        obtain ⟨r', ls, got, later, -⟩ := stands.readNew (env.short i)
        rw [Ears.hear_self, readSibling, got]
        exact later
      · rw [Ears.hear_other env k dir e same]
        exact stands

/-- An instance and its place in the pool.  The logs that are never truncated
are read from where the readers stand. -/
structure Seat (truncates : Inst → Prop) (dir : Dir) (snap log buf : Inst → List Rec) (k : Inst)
    (s : Inner) (m : Member) : Prop where
  inst : s.inst = k
  view : s.view = m.view
  dirty : s.dirty = m.dirty
  holds : Holds ⟨s, dir⟩ [] (snap k) (log k) (buf k)
  present : (dir (.log k)).isSome
  noSelf : s.readers.lookup k = none
  standing : ∀ j, j ≠ k → ¬ truncates j → (s.heard j).Stands (logBytes (log j))

structure Pools (truncates : Inst → Prop) (c : Cluster) (p : Pool) (log buf : Inst → List Rec) :
    Prop where
  served : c.served = p.served
  recs : ∀ k, p.recs k = log k ++ buf k
  snapFile : ∀ k, c.dir.read (.snap k) = logBytes (p.snaps k)
  logFile : ∀ k, c.dir.read (.log k) = logBytes (log k)
  kept : ∀ k, p.snaps k ≠ [] → (c.dir (.log k)).isSome
  down : ∀ k, c.nodes k = none → p.members k = none ∧ buf k = []
  up : ∀ k s, c.nodes k = some s →
    ∃ m, p.members k = some m ∧ Seat truncates c.dir p.snaps log buf k s m

theorem pools_start (truncates : Inst → Prop) :
    Pools truncates .start .start (fun _ => []) (fun _ => []) :=
  ⟨rfl, fun _ => rfl, fun _ => rfl, fun _ => rfl, fun _ some => absurd rfl some,
    fun _ _ => ⟨rfl, rfl⟩, fun _ _ up => (by cases up)⟩

section Pooling

variable {truncates : Inst → Prop} {c : Cluster} {p : Pool} {log buf : Inst → List Rec}
  {rules : Pool.Rules}

/-- Acts of one instance, one after another. -/
theorem Pool.steps_acts {k : Inst} {m : Member} {acts : Act → Prop} {j : Journal}
    (up : p.members k = some m)
    (path : Relation.ReflTransGen (Journal.Does k acts) (p.journal k m) j)
    (kinds : ∀ act, acts act → act.Runs ∧ rules.acts k act ∧ act.counts k = []) :
    Pool.Steps rules p
      ⟨Function.update p.members k (some (m.did j)), p.snaps, Function.update p.recs k j.recs,
        p.served⟩ := by
  induction path with
  | refl =>
      have member : some (m.did (p.journal k m)) = p.members k := up.symm
      have recs : (p.journal k m).recs = p.recs k := rfl
      rw [member, recs, Function.update_eq_self, Function.update_eq_self]
  | @tail j₁ j₂ _ last ih =>
      obtain ⟨act, step, checked, allowed⟩ := last
      obtain ⟨runs, allowed, uncounted⟩ := kinds act allowed
      refine ih.tail ?_
      have here : (Pool.mk (Function.update p.members k (some (m.did j₁))) p.snaps
          (Function.update p.recs k j₁.recs) p.served).journal k (m.did j₁) = j₁ := by
        simp [Pool.journal, Member.did]
      rw [← here] at step checked
      have next : Pool.Step rules _ _ :=
        .act (Function.update_self _ _ _) step checked runs allowed
      have again : (m.did j₁).did j₂ = m.did j₂ := rfl
      simpa only [uncounted, List.append_nil, Function.update_idem, again] using next

theorem Pools.log_prefix (pools : Pools truncates c p log buf) (k : Inst) :
    log k <+: p.recs k := by
  rw [pools.recs]
  exact List.prefix_append _ _

theorem Pools.okLog (pools : Pools truncates c p log buf) (sound : p.Sound) (k : Inst) :
    AllOk (log k) :=
  fun r hr => sound.okRecs k r ((pools.log_prefix k).subset hr)

/-- A log with valid readers is read honestly. -/
theorem Pools.honest (pools : Pools truncates c p log buf) (sound : p.Sound) {step : ClusterStep}
    (readable : c.Readable step) : c.Honest step := by
  cases step with
  | boot k env => trivial
  | stop k env => trivial
  | call k env call =>
      intro s running j member o listed
      have valid := readable s running j member
      rw [pools.logFile] at valid ⊢
      obtain ⟨r', new, got, written, -⟩ :=
        valid.readNew (pools.okLog sound j) (pools.logFile j) (env.short j)
      have ok : AllOk new := fun r here => pools.okLog sound j r (written r here)
      rw [Ears.ops, show s.ears.heard j = s.heard j from rfl, got,
        filterMap_parseOp_lines ok] at listed
      rw [readOps_logBytes (pools.okLog sound j)]
      exact List.map_subset _ written listed

/-- Operations that a log holds are operations of its records. -/
theorem exists_records {log : List Rec} {ops : List Op} (held : ∀ o ∈ ops, o ∈ log.map Rec.op) :
    ∃ new : List Rec, ops = new.map Rec.op ∧ ∀ r ∈ new, r ∈ log := by
  induction ops with
  | nil => exact ⟨[], rfl, fun _ member => by cases member⟩
  | cons o ops ih =>
      obtain ⟨r, written, rfl⟩ := List.mem_map.mp (held o List.mem_cons_self)
      obtain ⟨new, rfl, later⟩ := ih fun o' member => held o' (List.mem_cons_of_mem _ member)
      exact ⟨r :: new, rfl, List.forall_mem_cons.mpr ⟨written, later⟩⟩

/-- Logs read one after another. -/
theorem Pool.steps_hear {k : Inst} {dir : Dir} (written : ∀ j, log j <+: p.recs j) (env : Env)
    {js : List Inst} (others : ∀ j ∈ js, j ≠ k) (once : js.Nodup) {m : Member} {e : Ears}
    (up : p.members k = some m) (view : e.view = m.view)
    (honest : ∀ j ∈ js, ∀ o ∈ e.ops env dir j, o ∈ (log j).map Rec.op) :
    ∃ m', m'.dirty = m.dirty ∧
      Pool.Steps rules p { p with members := Function.update p.members k (some m') } ∧
      (js.foldl (Ears.hear env k dir) e).view = m'.view := by
  induction js generalizing p m e with
  | nil =>
      refine ⟨m, rfl, ?_, view⟩
      rw [← up, Function.update_eq_self]
  | cons j js ih =>
      obtain ⟨absent, once⟩ := List.nodup_cons.mp once
      obtain ⟨new, ops, listed⟩ := exists_records (honest j List.mem_cons_self)
      have step : Pool.Step rules p _ :=
        .hear up (others j List.mem_cons_self) env fun r hr => (written j).subset (listed r hr)
      have view' : (e.hear env k dir j).view = (m.hear env k new).view := by
        rw [Ears.view_hear, ops, view]
        rfl
      have honest' : ∀ i ∈ js, ∀ o ∈ (e.hear env k dir j).ops env dir i,
          o ∈ (log i).map Rec.op := by
        intro i member
        have differs : i ≠ j := fun same => absent (same ▸ member)
        rw [Ears.ops_hear_other env k dir e differs]
        exact honest i (List.mem_cons_of_mem _ member)
      obtain ⟨m', dirty, steps, final⟩ := ih
        (p := { p with members := Function.update p.members k (some (m.hear env k new)) }) written
        (fun i member => others i (List.mem_cons_of_mem _ member)) once
        (Function.update_self _ _ _) view' honest'
      refine ⟨m', dirty, .head step ?_, final⟩
      simpa only [Function.update_idem] using steps

/-- The other instances do not notice what one of them does to its own files;
it only truncates its log if it may. -/
theorem Seat.elsewhere {dir dir' : Dir} {snap snap' log' buf' : Inst → List Rec} {k i : Inst}
    {s : Inner} {m : Member} (seat : Seat truncates dir snap log buf i s m) (other : i ≠ k)
    (files : ∀ f : FileName, f.owner ≠ k → dir' f = dir f)
    (grown : ¬ truncates k → log k <+: log' k) (snaps : ∀ j, j ≠ k → snap' j = snap j)
    (logs : ∀ j, j ≠ k → log' j = log j) (bufs : ∀ j, j ≠ k → buf' j = buf j) :
    Seat truncates dir' snap' log' buf' i s m := by
  have inst : (World.mk s dir').store.inst = i := seat.inst
  have reads : ∀ f : FileName, f.owner ≠ k → dir'.read f = dir.read f := fun f differs =>
    congrArg (Option.getD · []) (files f differs)
  refine ⟨seat.inst, seat.view, seat.dirty, ⟨seat.holds.opened, ?_, ?_, ?_⟩, ?_, seat.noSelf,
    fun j differs steady => ?_⟩
  · rw [inst, snaps i other]
    exact (reads (.snap i) other).trans (seat.inst ▸ seat.holds.snapBytes)
  · rw [inst, logs i other]
    exact (reads (.log i) other).trans (seat.inst ▸ seat.holds.logFile)
  · rw [bufs i other]
    exact seat.holds.queue
  · rw [files (.log i) other]
    exact seat.present
  · by_cases same : j = k
    · subst same
      obtain ⟨more, whole⟩ := grown steady
      rw [← whole, logBytes_append]
      exact (seat.standing j differs steady).grow _
    · rw [logs j same]
      exact seat.standing j differs steady

/-- The instance `k` acts: its files are rewritten, the others are as before. -/
theorem Pools.rewrite (pools : Pools truncates c p log buf) {c' : Cluster} {p' : Pool}
    {log' buf' : Inst → List Rec} {k : Inst} (served : c'.served = p'.served)
    (files : ∀ f : FileName, f.owner ≠ k → c'.dir f = c.dir f)
    (nodes : ∀ i, i ≠ k → c'.nodes i = c.nodes i)
    (members : ∀ i, i ≠ k → p'.members i = p.members i)
    (snaps : ∀ i, i ≠ k → p'.snaps i = p.snaps i)
    (recs : ∀ i, p'.recs i = log' i ++ buf' i)
    (snapFile : c'.dir.read (.snap k) = logBytes (p'.snaps k))
    (logFile : c'.dir.read (.log k) = logBytes (log' k))
    (kept : p'.snaps k ≠ [] → (c'.dir (.log k)).isSome)
    (grown : ¬ truncates k → log k <+: log' k)
    (logs : ∀ i, i ≠ k → log' i = log i) (bufs : ∀ i, i ≠ k → buf' i = buf i)
    (down : c'.nodes k = none → p'.members k = none ∧ buf' k = [])
    (up : ∀ s, c'.nodes k = some s →
      ∃ m, p'.members k = some m ∧ Seat truncates c'.dir p'.snaps log' buf' k s m) :
    Pools truncates c' p' log' buf' := by
  have reads : ∀ f : FileName, f.owner ≠ k → c'.dir.read f = c.dir.read f := fun f differs =>
    congrArg (Option.getD · []) (files f differs)
  refine ⟨served, recs, fun i => ?_, fun i => ?_, fun i => ?_, fun i stopped => ?_,
    fun i s running => ?_⟩
  · by_cases same : i = k
    · rw [same]
      exact snapFile
    · rw [snaps i same]
      exact (reads (.snap i) same).trans (pools.snapFile i)
  · by_cases same : i = k
    · rw [same]
      exact logFile
    · rw [logs i same]
      exact (reads (.log i) same).trans (pools.logFile i)
  · by_cases same : i = k
    · rw [same]
      exact kept
    · rw [snaps i same, files (.log i) same]
      exact pools.kept i
  · by_cases same : i = k
    · rw [same] at stopped ⊢
      exact down stopped
    · rw [nodes i same] at stopped
      rw [members i same, bufs i same]
      exact pools.down i stopped
  · by_cases same : i = k
    · rw [same] at running ⊢
      exact up s running
    · rw [nodes i same] at running
      obtain ⟨m, member, seat⟩ := pools.up i s running
      rw [members i same]
      exact ⟨m, member, seat.elsewhere same files grown snaps logs bufs⟩

variable (rules) in
theorem Pools.boot (pools : Pools truncates c p log buf) (sound : p.Sound) (k : Inst) (env : Env)
    (opened : ∀ recs : List Rec, c.nodes k = none → bootOps c.dir k = recs.map Rec.op →
      rules.opens env k recs) :
    ∃ p', Pool.Steps rules p p' ∧ Pools truncates (c.step (.boot k env)) p' log buf := by
  cases running : c.nodes k with
  | some s =>
      simp only [Cluster.step, running]
      exact ⟨p, .refl, pools⟩
  | none =>
      obtain ⟨stopped, noQueue⟩ := pools.down k running
      have recs : p.recs k = log k := by
        rw [pools.recs, noQueue, List.append_nil]
      have view := view_new env sound.okSnaps (pools.okLog sound k) pools.snapFile
        (pools.logFile k) false
      have ops : bootOps c.dir k =
          (p.snaps k ++ p.recs k ++ (shardFiles c.dir k).flatMap p.snaps).map Rec.op := by
        simp only [bootOps, pools.snapFile, pools.logFile, readOps_logBytes (sound.okSnaps _),
          readOps_logBytes (pools.okLog sound k), recs, List.map_append, List.map_flatMap]
      have others : ∀ j ∈ shardFiles c.dir k, j ≠ k := fun j member =>
        (mem_shardFiles.mp member).1
      refine ⟨_, .single (.boot stopped env others (opened _ running ops)), ?_⟩
      simp only [Cluster.step, running]
      refine pools.rewrite (k := k) pools.served ?_ ?_ ?_ (fun _ _ => rfl) pools.recs ?_ ?_ ?_
        (fun _ => List.prefix_rfl) (fun _ _ => rfl) (fun _ _ => rfl) ?_ ?_
      · intro f other
        exact Dir.write_other (fun same => other (congrArg FileName.owner same)) _ _
      · intro i other
        exact Function.update_of_ne other _ _
      · intro i other
        exact Function.update_of_ne other _ _
      · exact (Dir.read_opened _ _ _).trans (pools.snapFile k)
      · exact (Dir.read_opened _ _ _).trans (pools.logFile k)
      · intro _
        simp [Inner.new, Dir.write]
      · intro down
        simp at down
      · intro s arrived
        obtain rfl : (Inner.new env c.dir k false).1 = s := by simpa using arrived
        refine ⟨_, Function.update_self _ _ _, rfl, ?_, rfl, ⟨rfl, ?_, ?_, ?_⟩, ?_,
          lookup_readers_new env c.dir k false, fun j _ _ => ?_⟩
        · rw [view, recs]
          rfl
        · exact (Dir.read_opened _ _ _).trans (pools.snapFile k)
        · exact (Dir.read_opened _ _ _).trans (pools.logFile k)
        · rw [noQueue]
          rfl
        · simp [Inner.new, Dir.write]
        · rw [heard_new]
          exact TailReader.stands_fromStart _

theorem Seat.journal_eq {dir : Dir} {snap : Inst → List Rec} {k : Inst} {s : Inner} {m : Member}
    (seat : Seat truncates dir snap log buf k s m) (recs : p.recs k = log k ++ buf k) :
    World.journal ⟨s, dir⟩ ([] ++ log k ++ buf k) = p.journal k m := by
  have index : s.index = m.index := congrArg View.index seat.view
  rw [World.journal, Pool.journal, recs, index, seat.dirty]
  rfl

variable (rules) in
/-- A call that writes is a run of acts that it consists of where it is made. -/
theorem Pools.logsIn (pools : Pools truncates c p log buf) (k : Inst) (env : Env) {call : Call}
    (logs : call.logs = true)
    (allowed : ∀ s, c.nodes k = some s → ∀ act, call.ActsIn env ⟨s, c.dir⟩ act →
      rules.acts k act) :
    ∃ p' log' buf', Pool.Steps rules p p' ∧
      Pools truncates (c.step (.call k env call)) p' log' buf' := by
  cases running : c.nodes k with
  | none =>
      simp only [Cluster.step, running]
      exact ⟨p, log, buf, .refl, pools⟩
  | some s =>
      obtain ⟨m, up, seat⟩ := pools.up k s running
      have inst := seat.inst
      have extended : ExtendsBy (Journal.Does s.inst (call.ActsIn env ⟨s, c.dir⟩)) [] (p.snaps k) []
          (log k) (buf k) ⟨s, c.dir⟩ _ := seat.holds.logsIn env logs
      have stray := stray_logs s c.dir env logs
      have uncounted : Cluster.resolved env s c.dir call = [] := by
        cases call <;> first | rfl | cases logs
      simp only [Cluster.step, running, uncounted, List.map_nil, List.append_nil]
      generalize (World.mk s c.dir).step (env, call) = w at extended stray
      obtain ⟨log₁, buf₁, rs, holds, frame, grown, moved, path⟩ := extended
      have inst' : w.store.inst = k := frame.inst.trans inst
      have files : ∀ f : FileName, f.owner ≠ k → w.dir f = c.dir f := fun f other =>
        frame.files f (by rwa [inst])
      have present := frame.present
      rw [show (World.mk s c.dir).store.inst = k from inst] at present
      rw [seat.journal_eq (pools.recs k), inst] at path
      have steps : Pool.Steps rules p _ := Pool.steps_acts up path fun act acts => by
        obtain ⟨runs, uncounted⟩ := Call.acts_kind logs acts.1
        rw [show (World.mk s c.dir).store.inst = k from inst] at uncounted
        exact ⟨runs, allowed s running act acts, uncounted⟩
      refine ⟨_, Function.update log k log₁, Function.update buf k buf₁, steps, ?_⟩
      refine pools.rewrite (k := k) pools.served files ?_ ?_ (fun _ _ => rfl) ?_ ?_ ?_ ?_ ?_ ?_ ?_
        ?_ ?_
      · exact fun i other => Function.update_of_ne other _ _
      · exact fun i other => Function.update_of_ne other _ _
      · intro i
        by_cases same : i = k
        · subst same
          simp [World.journal]
        · simpa [same] using pools.recs i
      · rw [← inst']
        exact inst' ▸ holds.snapBytes
      · rw [Function.update_self, ← inst']
        exact holds.logFile
      · exact fun _ => present seat.present
      · rw [Function.update_self]
        exact fun _ => grown
      · exact fun i other => Function.update_of_ne other _ _
      · exact fun i other => Function.update_of_ne other _ _
      · intro down
        simp at down
      · intro s' arrived
        obtain rfl : w.store = s' := by simpa using arrived
        refine ⟨_, Function.update_self _ _ _, inst', ?_, rfl, ?_, present seat.present, ?_,
          fun j other steady => ?_⟩
        · have stray' : w.store.stray = m.stray := stray.trans (congrArg View.stray seat.view)
          rw [Inner.view, stray']
          rfl
        · simpa using holds
        · rw [frame.readers]
          exact seat.noSelf
        · rw [Inner.heard, frame.readers, Function.update_of_ne other]
          exact seat.standing j other steady

variable (rules) in
theorem Pools.logs (pools : Pools truncates c p log buf) (k : Inst) (env : Env) {call : Call}
    (logs : call.logs = true) (allowed : ∀ act, call.Acts k act → rules.acts k act) :
    ∃ p' log' buf', Pool.Steps rules p p' ∧
      Pools truncates (c.step (.call k env call)) p' log' buf' := by
  refine pools.logsIn rules k env logs fun s running act acts => allowed act ?_
  obtain ⟨m, -, seat⟩ := pools.up k s running
  have inst : (World.mk s c.dir).store.inst = k := seat.inst
  rw [← inst]
  exact acts.1

variable (rules) in
theorem Pools.stop (pools : Pools truncates c p log buf) (k : Inst) (env : Env)
    (allowed : rules.acts k (.drain env.dirtyOrder)) :
    ∃ p' log' buf', Pool.Steps rules p p' ∧
      Pools truncates (c.step (.stop k env)) p' log' buf' := by
  cases running : c.nodes k with
  | none =>
      simp only [Cluster.step, running]
      exact ⟨p, log, buf, .refl, pools⟩
  | some s =>
      obtain ⟨m, up, seat⟩ := pools.up k s running
      have inst := seat.inst
      obtain ⟨-, snapFile, logFile, others, present⟩ := seat.holds.close env
      rw [show (World.mk s c.dir).store.inst = k from inst] at snapFile logFile present
      have drained : Pool.Step rules p _ :=
        .act up (.drain env.dirtyOrder) trivial trivial allowed
      refine ⟨_, Function.update log k
        (log k ++ buf k ++ hitRecs k (env.dirtyOrder.iter s.dirty)), Function.update buf k [],
        .tail (.single drained) (.stop (Function.update_self k _ _) rfl), ?_⟩
      simp only [Cluster.step, running]
      refine pools.rewrite (k := k) ?_ ?_ ?_ ?_ (fun _ _ => rfl) ?_ snapFile ?_ ?_ ?_ ?_ ?_ ?_ ?_
      · simpa [Act.counts] using pools.served
      · intro f other
        exact others f (by rwa [show (World.mk s c.dir).store.inst = k from inst])
      · exact fun i other => Function.update_of_ne other _ _
      · intro i other
        simp [other]
      · intro i
        by_cases same : i = k
        · subst same
          simp [Pool.journal, pools.recs, seat.dirty]
        · simpa [same] using pools.recs i
      · rw [Function.update_self]
        exact logFile
      · exact fun _ => present seat.present
      · rw [Function.update_self, List.append_assoc]
        exact fun _ => List.prefix_append _ _
      · exact fun i other => Function.update_of_ne other _ _
      · exact fun i other => Function.update_of_ne other _ _
      · intro _
        simp
      · intro s' up'
        simp at up'

omit truncates in
/-- A compaction leaves nothing unlogged and nothing queued. -/
theorem Holds.store_compact {w : World} {front : Bytes} {snap log buf : List Rec}
    (holds : Holds w front snap log buf) (env : Env) :
    (w.step (env, .compact)).store = { w.store with dirty := ∅, aof := some ⟨[]⟩ } := by
  simp only [World.step, Inner.compact, holds.queue, flushLocked_eq env holds.queue,
    Aof.truncate_eq]

variable (rules) in
/-- A compaction drains, takes a snapshot and truncates the log. -/
theorem Pools.compact (pools : Pools truncates c p log buf) (k : Inst) (env : Env)
    (mayTruncate : truncates k) (allowed : rules.acts k (.drain env.dirtyOrder))
    (saved : ∀ s, c.nodes k = some s → ∀ p' : Pool,
      p'.recs k = p.recs k ++ hitRecs k (env.dirtyOrder.iter s.dirty) → rules.saves p' k) :
    ∃ p' log' buf', Pool.Steps rules p p' ∧
      Pools truncates (c.step (.call k env .compact)) p' log' buf' := by
  cases running : c.nodes k with
  | none =>
      simp only [Cluster.step, running]
      exact ⟨p, log, buf, .refl, pools⟩
  | some s =>
      obtain ⟨m, up, seat⟩ := pools.up k s running
      have inst := seat.inst
      obtain ⟨holds, frame, -⟩ := @Holds.compact _ _ _ _ _ seat.holds [] env True
      have store := seat.holds.store_compact env
      have index : s.index = m.index := congrArg View.index seat.view
      have drained : Pool.Step rules p _ :=
        .act up (.drain env.dirtyOrder) trivial trivial allowed
      have recs : (Function.update p.recs k (p.recs k ++
          hitRecs k (env.dirtyOrder.iter m.dirty))) k =
          p.recs k ++ hitRecs k (env.dirtyOrder.iter s.dirty) := by
        rw [Function.update_self, seat.dirty]
      have snapshot : Function.update p.snaps k (snapshotOf k (env.indexOrder.iter m.index)) k =
          snapshotOf k (env.indexOrder.iter s.index) := by
        rw [Function.update_self, index]
      have present := frame.present
      rw [show (World.mk s c.dir).store.inst = k from inst] at present holds
      refine ⟨_, Function.update log k [], Function.update buf k [],
        .tail (.single drained) (.save (Function.update_self k _ _) rfl env.indexOrder
          (saved s running _ recs)), ?_⟩
      simp only [Cluster.step, running, Cluster.resolved, List.map_nil, List.append_nil]
      generalize (World.mk s c.dir).step (env, .compact) = w at holds frame store present
      have inst' : w.store.inst = k := frame.inst.trans inst
      refine pools.rewrite (k := k) ?_ ?_ ?_ ?_ ?_ ?_ ?_ ?_ ?_ ?_ ?_ ?_ ?_ ?_
      · simpa [Act.counts] using pools.served
      · exact fun f other => frame.files f (by rwa [inst])
      · exact fun i other => Function.update_of_ne other _ _
      · intro i other
        simp [other]
      · exact fun i other => Function.update_of_ne other _ _
      · intro i
        by_cases same : i = k
        · subst same
          simp
        · simpa [same] using pools.recs i
      · have snapBytes := holds.snapBytes
        rw [inst', ← snapshot] at snapBytes
        exact snapBytes
      · have logFile := holds.logFile
        rw [inst'] at logFile
        rw [Function.update_self]
        exact logFile
      · exact fun _ => present seat.present
      · exact fun steady => absurd mayTruncate steady
      · exact fun i other => Function.update_of_ne other _ _
      · exact fun i other => Function.update_of_ne other _ _
      · intro down
        simp at down
      · intro s' arrived
        obtain rfl : w.store = s' := by simpa using arrived
        refine ⟨_, Function.update_self _ _ _, inst', ?_, ?_, ?_, present seat.present, ?_,
          fun j other steady => ?_⟩
        · rw [store]
          exact seat.view
        · rw [store]
          rfl
        · change Holds _ _ (Function.update p.snaps k _ k) (Function.update log k [] k)
            (Function.update buf k [] k)
          rw [Function.update_self, Function.update_self, Function.update_self]
          exact index ▸ holds
        · rw [frame.readers]
          exact seat.noSelf
        · rw [Inner.heard, frame.readers, Function.update_of_ne other]
          exact seat.standing j other steady

/-- An instance that only read. -/
theorem Pools.reads (pools : Pools truncates c p log buf) (sound : p.Sound) {k : Inst}
    {s s' : Inner} (running : c.nodes k = some s) {env : Env} {js : List Inst}
    (reads : Reads env c.dir js s s')
    (honest : ∀ j ∈ js, ∀ o ∈ s.ears.ops env c.dir j, o ∈ readOps (c.dir.read (.log j))) :
    ∃ m', Pool.Steps rules p { p with members := Function.update p.members k (some m') } ∧
      Seat truncates c.dir p.snaps log buf k s' m' := by
  obtain ⟨m, up, seat⟩ := pools.up k s running
  have others : ∀ j ∈ js, j ≠ k := fun j member => seat.inst ▸ reads.others j member
  have held : ∀ j ∈ js, ∀ o ∈ s.ears.ops env c.dir j, o ∈ (log j).map Rec.op := by
    intro j member o listed
    rw [← readOps_logBytes (pools.okLog sound j), ← pools.logFile]
    exact honest j member o listed
  obtain ⟨m', dirty, steps, view⟩ :=
    Pool.steps_hear pools.log_prefix env others reads.once up seat.view held
  have ears := reads.ears
  rw [seat.inst] at ears
  rw [← ears] at view
  have noSelf := reads.noSelf
  rw [seat.inst] at noSelf
  refine ⟨m', steps, reads.inst.trans seat.inst, view,
    reads.dirty.trans (seat.dirty.trans dirty.symm), seat.holds.of_reads reads, seat.present,
    noSelf, fun j other steady => ?_⟩
  have heard : s'.heard j = (js.foldl (Ears.hear env k c.dir) s.ears).heard j :=
    congrFun (congrArg Ears.heard ears) j
  rw [heard, ← pools.logFile]
  apply Ears.stands_foldl_hear
  rw [pools.logFile]
  exact seat.standing j other steady

/-- The cluster with one instance replaced, its files as they were. -/
theorem Pools.replace (pools : Pools truncates c p log buf) {k : Inst} {s : Inner} {m : Member}
    {p' : Pool} {served : List (Inst × String)} (snaps : p'.snaps = p.snaps)
    (seat : Seat truncates c.dir p.snaps log buf k s m) (counted : served = p'.served)
    (recs : p'.recs = p.recs) (members : p'.members = Function.update p.members k (some m)) :
    Pools truncates ⟨Function.update c.nodes k (some s), c.dir, served⟩ p' log buf := by
  refine pools.rewrite (k := k) counted (fun _ _ => rfl) ?_ ?_ (fun _ _ => by rw [snaps])
    (recs ▸ pools.recs) (snaps ▸ pools.snapFile k) (pools.logFile k) (snaps ▸ pools.kept k)
    (fun _ => List.prefix_rfl) (fun _ _ => rfl) (fun _ _ => rfl) ?_ ?_
  · exact fun i other => Function.update_of_ne other _ _
  · intro i other
    rw [members, Function.update_of_ne other]
  · intro down
    simp at down
  · intro s' arrived
    obtain rfl : s = s' := by simpa using arrived
    exact ⟨m, by rw [members, Function.update_self], snaps ▸ seat⟩

theorem Seat.did {dir : Dir} {snap : Inst → List Rec} {k : Inst} {s : Inner} {m : Member}
    (seat : Seat truncates dir snap log buf k s m) (j : Journal) :
    Seat truncates dir snap log buf k { s with index := j.index, dirty := j.dirty } (m.did j) := by
  refine ⟨seat.inst, ?_, rfl, ⟨seat.holds.opened, seat.holds.snapBytes, seat.holds.logFile,
    seat.holds.queue⟩, seat.present, seat.noSelf, seat.standing⟩
  have stray : s.stray = m.stray := congrArg View.stray seat.view
  rw [Inner.view, stray]
  rfl

variable (rules) in
theorem Pools.poll (pools : Pools truncates c p log buf) (sound : p.Sound) (k : Inst) (env : Env)
    (honest : c.Honest (.call k env .poll)) :
    ∃ p', Pool.Steps rules p p' ∧ Pools truncates (c.step (.call k env .poll)) p' log buf := by
  cases running : c.nodes k with
  | none =>
      simp only [Cluster.step, running]
      exact ⟨p, .refl, pools⟩
  | some s =>
      obtain ⟨m, -, seat⟩ := pools.up k s running
      obtain ⟨s', result, reads⟩ := seat.holds.poll (by rw [seat.inst]; exact seat.noSelf) env
      obtain ⟨m', steps, seat'⟩ := pools.reads sound running reads (honest s running)
      refine ⟨_, steps, ?_⟩
      simp only [Cluster.step, running, result, Cluster.resolved, List.map_nil, List.append_nil]
      exact pools.replace rfl seat' pools.served rfl rfl

variable (rules) in
theorem Pools.resolve (pools : Pools truncates c p log buf) (sound : p.Sound) (k : Inst)
    (env : Env) (code : String) (allowed : rules.acts k (.hit code))
    (honest : c.Honest (.call k env (.resolve code))) :
    ∃ p', Pool.Steps rules p p' ∧
      Pools truncates (c.step (.call k env (.resolve code))) p' log buf := by
  cases running : c.nodes k with
  | none =>
      simp only [Cluster.step, running]
      exact ⟨p, .refl, pools⟩
  | some s =>
      obtain ⟨m, -, seat⟩ := pools.up k s running
      obtain ⟨s', reads, ends⟩ := seat.holds.resolve (by rw [seat.inst]; exact seat.noSelf)
        env code
      obtain ⟨m', steps, seat'⟩ := pools.reads sound running reads (honest s running)
      rcases ends with ⟨uncounted, result⟩ | ⟨ent, counted, found, result⟩
      · refine ⟨_, steps, ?_⟩
        simp only [Cluster.step, running, result, uncounted, List.map_nil, List.append_nil]
        exact pools.replace rfl seat' pools.served rfl rfl
      · have index : s'.index = m'.index := congrArg View.index seat'.view
        have hit : Pool.Step rules
            { p with members := Function.update p.members k (some m') } _ :=
          .act (Function.update_self k _ _) (.hit (index ▸ found)) trivial trivial allowed
        refine ⟨_, steps.tail hit, ?_⟩
        simp only [Cluster.step, running, result, counted, List.map_cons, List.map_nil]
        rw [index, seat'.dirty]
        refine pools.replace rfl (seat'.did
          ⟨m'.index.insert code { ent with h := ent.h + 1, oh := ent.oh + 1 },
            m'.dirty.insert code ((m'.dirty.lookup code).getD 0 + 1), p.recs k⟩) ?_ ?_ ?_
        · rw [pools.served]
          rfl
        · exact Function.update_eq_self _ _
        · exact Function.update_idem _ _ _

/-- A restart is a stop and a boot. -/
theorem Pools.restart_eq (pools : Pools truncates c p log buf) {k : Inst} {s : Inner}
    (running : c.nodes k = some s) (env : Env) :
    c.step (.call k env .restart) = (c.step (.stop k env)).step (.boot k env) := by
  obtain ⟨m, -, seat⟩ := pools.up k s running
  obtain ⟨inst, -⟩ := seat.holds.close env
  rw [show (World.mk s c.dir).store.inst = k from seat.inst] at inst
  have closed : (s.close env c.dir).1.inst = k := inst
  simp [Cluster.step, running, World.step, World.close, World.reopen, Cluster.resolved, closed]

def Pool.Rules.Permit (rules : Pool.Rules) (truncates : Inst → Prop) (c : Cluster) (p : Pool) :
    ClusterStep → Prop
  | .boot k env => ∀ recs : List Rec, c.nodes k = none → bootOps c.dir k = recs.map Rec.op →
      rules.opens env k recs
  | .stop k env => rules.acts k (.drain env.dirtyOrder)
  | .call k env .compact => truncates k ∧ rules.acts k (.drain env.dirtyOrder) ∧
      ∀ s, c.nodes k = some s → ∀ p' : Pool,
        p'.recs k = p.recs k ++ hitRecs k (env.dirtyOrder.iter s.dirty) → rules.saves p' k
  | .call k env .restart => rules.acts k (.drain env.dirtyOrder) ∧
      ∀ recs : List Rec, bootOps (c.step (.stop k env)).dir k = recs.map Rec.op →
        rules.opens env k recs
  | .call k _ request => ∀ act, request.Acts k act → rules.acts k act

/-- Every step that is permitted and reads what it may is a run of the pool. -/
theorem Pools.step (pools : Pools truncates c p log buf) (sound : p.Sound) {step : ClusterStep}
    (permitted : rules.Permit truncates c p step) (honest : c.Honest step) :
    ∃ p' log' buf', Pool.Steps rules p p' ∧ Pools truncates (c.step step) p' log' buf' := by
  cases step with
  | boot k env =>
      obtain ⟨p', steps, pools'⟩ := pools.boot rules sound k env permitted
      exact ⟨p', log, buf, steps, pools'⟩
  | stop k env => exact pools.stop rules k env permitted
  | call k env request =>
      cases request with
      | poll =>
          obtain ⟨p', steps, pools'⟩ := pools.poll rules sound k env honest
          exact ⟨p', log, buf, steps, pools'⟩
      | resolve code =>
          obtain ⟨p', steps, pools'⟩ :=
            pools.resolve rules sound k env code (permitted (.hit code) rfl) honest
          exact ⟨p', log, buf, steps, pools'⟩
      | compact =>
          obtain ⟨mayTruncate, allowed, saved⟩ := permitted
          exact pools.compact rules k env mayTruncate allowed saved
      | restart =>
          obtain ⟨allowed, opened⟩ := permitted
          cases running : c.nodes k with
          | none =>
              simp only [Cluster.step, running]
              exact ⟨p, log, buf, .refl, pools⟩
          | some s =>
              obtain ⟨p₁, log₁, buf₁, closing, stopped⟩ := pools.stop rules k env allowed
              obtain ⟨p₂, opening, pools'⟩ := stopped.boot rules (sound.steps closing) k env
                fun recs _ => opened recs
              rw [pools.restart_eq running]
              exact ⟨p₂, log₁, buf₁, closing.trans opening, pools'⟩
      | shorten url aliasCode ttl => exact pools.logs rules k env rfl permitted
      | shortenMany urls ttl => exact pools.logs rules k env rfl permitted
      | update code url ttl hasTtl => exact pools.logs rules k env rfl permitted
      | remove code => exact pools.logs rules k env rfl permitted
      | flush => exact pools.logs rules k env rfl permitted

end Pooling

end Shrt.Store
