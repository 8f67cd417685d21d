import Mathlib.Data.List.Basic
import Shrt.Store.Mesh

/-!
# Every schedule without compaction is a run of the mesh

The records of an instance are those in its log, then those in its queue.  The
reader that an instance keeps for a sibling's log stands behind exactly the
records it has read.
-/

namespace Shrt.Store

open Shrt.Codec Shrt.Lib Shrt.Lib.Framing

def Ears.ops (env : Env) (dir : Dir) (e : Ears) (j : Inst) : List Op :=
  ((e.heard j).readNew dir (.log j) (env.short j)).2.filterMap parseOp

/-- A read of one log folds its operations. -/
theorem Ears.view_hear (env : Env) (k : Inst) (dir : Dir) (e : Ears) (j : Inst) :
    (e.hear env k dir j).view = (e.ops env dir j).foldl (apply env k) e.view := by
  rw [Ears.hear_view, readSibling, foldl_applyLine]
  rfl

theorem Ears.ops_hear_other (env : Env) (k : Inst) (dir : Dir) (e : Ears) {i j : Inst}
    (other : i ≠ j) : (e.hear env k dir j).ops env dir i = e.ops env dir i := by
  rw [Ears.ops, Ears.ops, Ears.hear_other env k dir e other]

/-- The stray map stays below its limit while these logs are read. -/
def Ears.Roomy (env : Env) (inst : Inst) (dir : Dir) : Ears → List Inst → Prop
  | _, [] => True
  | e, j :: js => View.Roomy env inst e.view (e.ops env dir j) ∧
      Roomy env inst dir (e.hear env inst dir j) js

instance Ears.Roomy.decidable (env : Env) (inst : Inst) (dir : Dir) :
    ∀ (e : Ears) (js : List Inst), Decidable (e.Roomy env inst dir js)
  | _, [] => isTrue trivial
  | e, j :: js =>
      have := Ears.Roomy.decidable env inst dir (e.hear env inst dir j) js
      inferInstanceAs (Decidable (View.Roomy env inst e.view (e.ops env dir j) ∧
        (e.hear env inst dir j).Roomy env inst dir js))

/-- The operations that an instance replays when it opens. -/
def bootOps (dir : Dir) (inst : Inst) : List Op :=
  readOps (dir.read (.snap inst)) ++ readOps (dir.read (.log inst)) ++
    (shardFiles dir inst).flatMap fun j => readOps (dir.read (.snap j))

/-- No stray map reaches its limit in this step. -/
def Cluster.Roomy (c : Cluster) : ClusterStep → Prop
  | .boot k env => c.nodes k = none → View.Roomy env k .empty (bootOps c.dir k)
  | .stop _ _ => True
  | .call k env call => ∀ s ∈ c.nodes k,
      s.ears.Roomy env k c.dir (s.callOrder env c.dir call)

instance (c : Cluster) : ∀ step, Decidable (c.Roomy step)
  | .boot k env => inferInstanceAs
      (Decidable (c.nodes k = none → View.Roomy env k .empty (bootOps c.dir k)))
  | .stop _ _ => isTrue trivial
  | .call k env call => inferInstanceAs
      (Decidable (∀ s ∈ c.nodes k, s.ears.Roomy env k c.dir (s.callOrder env c.dir call)))

/-- The calls that neither compact nor reopen the store. -/
def Call.steady : Call → Bool
  | .compact | .restart => false
  | _ => true

def ClusterStep.Allowed (allow : Inst → Act → Prop) : ClusterStep → Prop
  | .boot _ _ => True
  | .stop k env => allow k (.drain env.dirtyOrder)
  | .call k _ request => request.steady = true ∧ ∀ act, request.Acts k act → allow k act

/-- An instance and its place in the mesh. -/
structure Node (dir : Dir) (log buf : Inst → List Rec) (k : Inst) (s : Inner) (p : Peer) :
    Prop where
  inst : s.inst = k
  view : s.view = p.view
  dirty : s.dirty = p.dirty
  holds : Holds ⟨s, dir⟩ [] [] (log k) (buf k)
  present : (dir (.log k)).isSome
  noSelf : s.readers.lookup k = none
  reading : ∀ j, j ≠ k → Seen (s.heard j) (log j) (p.part j)
  within : ∀ j, j ≠ k → p.part j <+: log j

structure Sims (c : Cluster) (m : Mesh) (log buf : Inst → List Rec) : Prop where
  served : c.served = m.served
  recs : ∀ k, m.recs k = log k ++ buf k
  noSnap : ∀ k, c.dir.read (.snap k) = []
  logFile : ∀ k, c.dir.read (.log k) = logBytes (log k)
  down : ∀ k, c.nodes k = none → m.peers k = none ∧ buf k = []
  up : ∀ k s, c.nodes k = some s → ∃ p, m.peers k = some p ∧ Node c.dir log buf k s p

theorem sims_start : Sims .start .start (fun _ => []) (fun _ => []) :=
  ⟨rfl, fun _ => rfl, fun _ => rfl, fun _ => rfl, fun _ _ => ⟨rfl, rfl⟩,
    fun _ _ up => (by cases up)⟩

section Simulation

variable {c : Cluster} {m : Mesh} {log buf : Inst → List Rec} {allow : Inst → Act → Prop}
  {roomy : Prop}

/-- Acts of one instance, one after another. -/
theorem Mesh.steps_acts {k : Inst} {p : Peer} {acts : Act → Prop} {j : Journal}
    (up : m.peers k = some p)
    (path : Relation.ReflTransGen (Journal.Does k acts) (m.journal k p) j)
    (kinds : ∀ act, acts act → act.Runs ∧ allow k act ∧ act.counts k = []) :
    Mesh.Steps allow roomy m
      ⟨Function.update m.peers k (some (p.did j)), Function.update m.recs k j.recs, m.served⟩ := by
  induction path with
  | refl =>
      have peer : some (p.did (m.journal k p)) = m.peers k := up.symm
      have recs : (m.journal k p).recs = m.recs k := rfl
      rw [peer, recs, Function.update_eq_self, Function.update_eq_self]
  | @tail j₁ j₂ _ last ih =>
      obtain ⟨act, step, checked, allowed⟩ := last
      obtain ⟨runs, allowed, uncounted⟩ := kinds act allowed
      refine ih.tail ?_
      have here : (Mesh.mk (Function.update m.peers k (some (p.did j₁)))
          (Function.update m.recs k j₁.recs) m.served).journal k (p.did j₁) = j₁ := by
        simp [Mesh.journal, Peer.did]
      rw [← here] at step checked
      have next : Mesh.Step allow roomy _ _ :=
        .act (Function.update_self _ _ _) step checked runs allowed
      have again : (p.did j₁).did j₂ = p.did j₂ := rfl
      simpa only [uncounted, List.append_nil, Function.update_idem, again] using next

/-- The readers of a store stand behind what its peer has read. -/
structure Hearing (log : Inst → List Rec) (k : Inst) (e : Ears) (p : Peer) : Prop where
  view : e.view = p.view
  reading : ∀ j, j ≠ k → Seen (e.heard j) (log j) (p.part j)
  within : ∀ j, j ≠ k → p.part j <+: log j

/-- The same for a peer that has the snapshots, and reads the logs after them. -/
structure Resumes (snap log : Inst → List Rec) (k : Inst) (e : Ears) (p : Peer) : Prop where
  view : e.view = p.view
  reading : ∀ j, j ≠ k → ∃ part, p.part j = snap j ++ part ∧ part <+: log j ∧
    Seen (e.heard j) (log j) part

theorem Hearing.resumes {k : Inst} {e : Ears} {p : Peer} (hearing : Hearing log k e p) :
    Resumes (fun _ => []) log k e p :=
  ⟨hearing.view, fun j other => ⟨_, rfl, hearing.within j other, hearing.reading j other⟩⟩

theorem Resumes.hearing {k : Inst} {e : Ears} {p : Peer}
    (resumes : Resumes (fun _ => []) log k e p) : Hearing log k e p := by
  refine ⟨resumes.view, fun j other => ?_, fun j other => ?_⟩
  · obtain ⟨part, rfl, -, seen⟩ := resumes.reading j other
    exact seen
  · obtain ⟨part, rfl, within, -⟩ := resumes.reading j other
    exact within

/-- Logs read one after another. -/
theorem Mesh.steps_resume {k : Inst} {dir : Dir} {snap : Inst → List Rec} (ok : ∀ j, AllOk (log j))
    (files : ∀ j, dir.read (.log j) = logBytes (log j))
    (written : ∀ j, snap j ++ log j <+: m.recs j)
    (env : Env) {js : List Inst} (others : ∀ j ∈ js, j ≠ k) {p : Peer} {e : Ears}
    (up : m.peers k = some p) (resumes : Resumes snap log k e p)
    (room : roomy → e.Roomy env k dir js) :
    ∃ p', p'.dirty = p.dirty ∧
      Mesh.Steps allow roomy m { m with peers := Function.update m.peers k (some p') } ∧
      Resumes snap log k (js.foldl (Ears.hear env k dir) e) p' := by
  induction js generalizing m p e with
  | nil =>
      refine ⟨p, rfl, ?_, resumes⟩
      rw [← up, Function.update_eq_self]
  | cons j js ih =>
      have other : j ≠ k := others j List.mem_cons_self
      obtain ⟨part, parts, ⟨unseen, split⟩, seen⟩ := resumes.reading j other
      obtain ⟨new, left, r', got, rest, seen', -⟩ :=
        seen.readNew split.symm (ok j) (files j) (env.short j)
      have okNew : AllOk new := fun r hr =>
        ok j r (split ▸ List.mem_append_right _ (rest ▸ List.mem_append_left _ hr))
      have read := readSibling_records okNew got k e.view
      have within : part ++ new <+: log j := ⟨left, by rw [← split, rest, List.append_assoc]⟩
      have ahead : p.part j ++ new <+: snap j ++ log j := by
        rw [parts, List.append_assoc]
        exact (List.prefix_append_right_inj _).mpr within
      have ops : e.ops env dir j = new.map Rec.op := by
        rw [Ears.ops, got]
        exact filterMap_parseOp_lines okNew
      have step : Mesh.Step allow roomy m _ :=
        .hear up other env (ahead.trans (written j)) fun careful => by
          have roomHere := (room careful).1
          rw [ops, resumes.view] at roomHere
          exact roomHere
      have next : Resumes snap log k (e.hear env k dir j) (p.hear env k j new) := by
        refine ⟨?_, fun i differs => ?_⟩
        · rw [Ears.hear_view, read, resumes.view]
          rfl
        · by_cases same : i = j
          · subst same
            refine ⟨part ++ new, ?_, within, ?_⟩
            · simp [Peer.hear, parts]
            · rw [Ears.hear_self, read]
              exact seen'
          · rw [Ears.hear_other env k dir e same]
            simpa [Peer.hear, same] using resumes.reading i differs
      obtain ⟨p', dirty, steps, later⟩ := ih
        (m := { m with peers := Function.update m.peers k (some (p.hear env k j new)) }) written
        (fun i member => others i (List.mem_cons_of_mem _ member))
        (Function.update_self _ _ _) next (fun careful => (room careful).2)
      refine ⟨p', dirty, .head step ?_, later⟩
      simpa only [Function.update_idem] using steps

theorem Sims.log_prefix (sims : Sims c m log buf) (k : Inst) : log k <+: m.recs k := by
  rw [sims.recs]
  exact List.prefix_append _ _

theorem Sims.okLog (sims : Sims c m log buf) (sound : m.Sound) (k : Inst) : AllOk (log k) :=
  fun r hr => sound.allOk k r ((sims.log_prefix k).subset hr)

/-- The other instances do not notice what one of them does to its own files. -/
theorem Node.elsewhere {dir dir' : Dir} {log' buf' : Inst → List Rec} {k i : Inst} {s : Inner}
    {p : Peer} (node : Node dir log buf i s p) (other : i ≠ k)
    (files : ∀ f : FileName, f.owner ≠ k → dir' f = dir f)
    (grown : log k <+: log' k) (logs : ∀ j, j ≠ k → log' j = log j)
    (bufs : ∀ j, j ≠ k → buf' j = buf j) : Node dir' log' buf' i s p := by
  have inst : (World.mk s dir').store.inst = i := node.inst
  have reads : ∀ f : FileName, f.owner ≠ k → dir'.read f = dir.read f := fun f differs =>
    congrArg (Option.getD · []) (files f differs)
  refine ⟨node.inst, node.view, node.dirty, ⟨node.holds.opened, ?_, ?_, ?_⟩, ?_, node.noSelf,
    fun j differs => ?_, fun j differs => ?_⟩
  · rw [inst]
    exact (reads (.snap i) other).trans (node.inst ▸ node.holds.snapBytes)
  · rw [inst, logs i other]
    exact (reads (.log i) other).trans (node.inst ▸ node.holds.logFile)
  · rw [bufs i other]
    exact node.holds.queue
  · rw [files (.log i) other]
    exact node.present
  · by_cases same : j = k
    · rw [same] at differs ⊢
      exact (node.reading k differs).grow grown
    · rw [logs j same]
      exact node.reading j differs
  · by_cases same : j = k
    · rw [same] at differs ⊢
      exact (node.within k differs).trans grown
    · rw [logs j same]
      exact node.within j differs

/-- The instance `k` acts: its files are rewritten, the others are as before. -/
theorem Sims.rewrite (sims : Sims c m log buf) {c' : Cluster} {m' : Mesh}
    {log' buf' : Inst → List Rec} {k : Inst} (served : c'.served = m'.served)
    (files : ∀ f : FileName, f.owner ≠ k → c'.dir f = c.dir f)
    (nodes : ∀ i, i ≠ k → c'.nodes i = c.nodes i) (peers : ∀ i, i ≠ k → m'.peers i = m.peers i)
    (recs : ∀ i, m'.recs i = log' i ++ buf' i) (snapFile : c'.dir.read (.snap k) = [])
    (logFile : c'.dir.read (.log k) = logBytes (log' k)) (grown : log k <+: log' k)
    (logs : ∀ i, i ≠ k → log' i = log i) (bufs : ∀ i, i ≠ k → buf' i = buf i)
    (down : c'.nodes k = none → m'.peers k = none ∧ buf' k = [])
    (up : ∀ s, c'.nodes k = some s → ∃ p, m'.peers k = some p ∧ Node c'.dir log' buf' k s p) :
    Sims c' m' log' buf' := by
  have reads : ∀ f : FileName, f.owner ≠ k → c'.dir.read f = c.dir.read f := fun f differs =>
    congrArg (Option.getD · []) (files f differs)
  refine ⟨served, recs, fun i => ?_, fun i => ?_, fun i stopped => ?_, fun i s running => ?_⟩
  · by_cases same : i = k
    · rw [same]
      exact snapFile
    · exact (reads (.snap i) same).trans (sims.noSnap i)
  · by_cases same : i = k
    · rw [same]
      exact logFile
    · rw [logs i same]
      exact (reads (.log i) same).trans (sims.logFile i)
  · by_cases same : i = k
    · rw [same] at stopped ⊢
      exact down stopped
    · rw [nodes i same] at stopped
      rw [peers i same, bufs i same]
      exact sims.down i stopped
  · by_cases same : i = k
    · rw [same] at running ⊢
      exact up s running
    · rw [nodes i same] at running
      obtain ⟨p, peer, node⟩ := sims.up i s running
      rw [peers i same]
      exact ⟨p, peer, node.elsewhere same files grown logs bufs⟩

theorem Sims.boot (sims : Sims c m log buf) (sound : m.Sound) (k : Inst) (env : Env)
    (room : roomy → c.Roomy (.boot k env)) :
    ∃ m', Mesh.Steps allow roomy m m' ∧ Sims (c.step (.boot k env)) m' log buf := by
  cases running : c.nodes k with
  | some s =>
      simp only [Cluster.step, running]
      exact ⟨m, .refl, sims⟩
  | none =>
      obtain ⟨stopped, noQueue⟩ := sims.down k running
      have recs : m.recs k = log k := by
        rw [sims.recs, noQueue, List.append_nil]
      have snaps : ∀ j, c.dir.read (.snap j) = logBytes ((fun _ => []) j) := sims.noSnap
      have view := view_new env (fun _ => allOk_nil) (sims.okLog sound k) snaps
        (sims.logFile k) false
      have nothing : ∀ js : List Inst, js.flatMap (fun _ => ([] : List Rec)) = [] := by simp
      rw [List.nil_append, nothing, List.append_nil] at view
      have room' : roomy → View.Roomy env k .empty ((m.recs k).map Rec.op) := by
        intro careful
        have none : readOps [] = [] := rfl
        have ops : bootOps c.dir k = (m.recs k).map Rec.op := by
          simp [bootOps, sims.noSnap, recs, sims.logFile k, readOps_logBytes (sims.okLog sound k),
            none]
        rw [← ops]
        exact room careful running
      refine ⟨_, .single (.boot stopped env room'), ?_⟩
      simp only [Cluster.step, running]
      refine sims.rewrite (k := k) sims.served ?_ ?_ ?_ sims.recs ?_ ?_ List.prefix_rfl
        (fun _ _ => rfl) (fun _ _ => rfl) ?_ ?_
      · intro f other
        exact Dir.write_other (fun same => other (congrArg FileName.owner same)) _ _
      · intro i other
        exact Function.update_of_ne other _ _
      · intro i other
        exact Function.update_of_ne other _ _
      · exact (Dir.read_opened _ _ _).trans (sims.noSnap k)
      · exact (Dir.read_opened _ _ _).trans (sims.logFile k)
      · intro down
        simp at down
      · intro s opened
        obtain rfl : (Inner.new env c.dir k false).1 = s := by simpa using opened
        refine ⟨_, Function.update_self _ _ _, rfl, ?_, rfl, ⟨rfl, ?_, ?_, ?_⟩, ?_,
          lookup_readers_new env c.dir k false, fun j _ => ?_, fun j _ => List.nil_prefix⟩
        · rw [view, recs]
          rfl
        · exact (Dir.read_opened _ _ _).trans (sims.noSnap k)
        · exact (Dir.read_opened _ _ _).trans (sims.logFile k)
        · rw [noQueue]
          rfl
        · simp [Inner.new, Dir.write]
        · rw [heard_new]
          exact seen_fromStart (log j)

/-- The kinds of acts that calls without hits consist of. -/
theorem Call.acts_kind {k : Inst} {call : Call} (logs : call.logs = true) {act : Act}
    (acts : call.Acts k act) : act.Runs ∧ act.counts k = [] := by
  cases call with
  | shorten url aliasCode ttl =>
      cases aliasCode <;> cases act <;> first | exact ⟨trivial, rfl⟩ | exact acts.elim
  | shortenMany urls ttl => cases act <;> first | exact ⟨trivial, rfl⟩ | exact acts.elim
  | update code url ttl hasTtl => cases act <;> first | exact ⟨trivial, rfl⟩ | exact acts.elim
  | remove code => cases act <;> first | exact ⟨trivial, rfl⟩ | exact acts.elim
  | flush => cases act <;> first | exact ⟨trivial, rfl⟩ | exact acts.elim
  | resolve code => cases logs
  | compact => cases logs
  | poll => cases logs
  | restart => cases logs

theorem Node.journal_eq {dir : Dir} {k : Inst} {s : Inner} {p : Peer}
    (node : Node dir log buf k s p) (recs : m.recs k = log k ++ buf k) :
    World.journal ⟨s, dir⟩ ([] ++ log k ++ buf k) = m.journal k p := by
  have index : s.index = p.index := congrArg View.index node.view
  rw [World.journal, Mesh.journal, recs, index, node.dirty]
  rfl

theorem Sims.logs (sims : Sims c m log buf) (k : Inst) (env : Env) {call : Call}
    (logs : call.logs = true) (allowed : ∀ act, call.Acts k act → allow k act) :
    ∃ m' log' buf', Mesh.Steps allow roomy m m' ∧
      Sims (c.step (.call k env call)) m' log' buf' := by
  cases running : c.nodes k with
  | none =>
      simp only [Cluster.step, running]
      exact ⟨m, log, buf, .refl, sims⟩
  | some s =>
      obtain ⟨p, up, node⟩ := sims.up k s running
      have inst := node.inst
      have extended : ExtendsBy (Journal.Does s.inst (call.Acts s.inst)) [] [] [] (log k) (buf k)
          ⟨s, c.dir⟩ _ := node.holds.logs env logs
      have stray := stray_logs s c.dir env logs
      have uncounted : Cluster.resolved env s c.dir call = [] := by
        cases call <;> first | rfl | cases logs
      simp only [Cluster.step, running, uncounted, List.map_nil, List.append_nil]
      generalize (World.mk s c.dir).step (env, call) = w at extended stray
      obtain ⟨log₁, buf₁, rs, holds, frame, grown, moved, path⟩ := extended
      have inst' : w.store.inst = k := frame.inst.trans inst
      have files : ∀ f : FileName, f.owner ≠ k → w.dir f = c.dir f := fun f other =>
        frame.files f (by rwa [inst])
      rw [node.journal_eq (sims.recs k), inst] at path
      have steps : Mesh.Steps allow roomy m _ := Mesh.steps_acts up path fun act acts =>
        ⟨(Call.acts_kind logs acts).1, allowed act acts, (Call.acts_kind logs acts).2⟩
      refine ⟨_, Function.update log k log₁, Function.update buf k buf₁, steps, ?_⟩
      refine sims.rewrite (k := k) sims.served files ?_ ?_ ?_ ?_ ?_ ?_ ?_ ?_ ?_ ?_
      · exact fun i other => Function.update_of_ne other _ _
      · exact fun i other => Function.update_of_ne other _ _
      · intro i
        by_cases same : i = k
        · subst same
          simp [World.journal]
        · simpa [same] using sims.recs i
      · rw [← inst']
        exact holds.snapBytes
      · rw [Function.update_self, ← inst']
        exact holds.logFile
      · rw [Function.update_self]
        exact grown
      · exact fun i other => Function.update_of_ne other _ _
      · exact fun i other => Function.update_of_ne other _ _
      · intro down
        simp at down
      · intro s' arrived
        obtain rfl : w.store = s' := by simpa using arrived
        refine ⟨_, Function.update_self _ _ _, inst', ?_, rfl, ?_, ?_, ?_, fun j other => ?_,
          fun j other => ?_⟩
        · have stray' : w.store.stray = p.stray := stray.trans (congrArg View.stray node.view)
          rw [Inner.view, stray']
          rfl
        · simpa using holds
        · have kept := frame.present
          rw [show (World.mk s c.dir).store.inst = k from inst] at kept
          exact kept node.present
        · rw [frame.readers]
          exact node.noSelf
        · rw [Inner.heard, frame.readers, Function.update_of_ne other]
          exact node.reading j other
        · rw [Function.update_of_ne other]
          exact node.within j other

theorem Sims.stop (sims : Sims c m log buf) (k : Inst) (env : Env)
    (allowed : allow k (.drain env.dirtyOrder)) :
    ∃ m' log' buf', Mesh.Steps allow roomy m m' ∧
      Sims (c.step (.stop k env)) m' log' buf' := by
  cases running : c.nodes k with
  | none =>
      simp only [Cluster.step, running]
      exact ⟨m, log, buf, .refl, sims⟩
  | some s =>
      obtain ⟨p, up, node⟩ := sims.up k s running
      have inst := node.inst
      obtain ⟨-, snapFile, logFile, others, -⟩ := node.holds.close env
      have drained : Mesh.Step allow roomy m _ :=
        .act up (.drain env.dirtyOrder) trivial trivial allowed
      refine ⟨_, Function.update log k
        (log k ++ buf k ++ hitRecs k (env.dirtyOrder.iter s.dirty)), Function.update buf k [],
        .tail (.single drained) (.stop (Function.update_self k _ _) rfl), ?_⟩
      simp only [Cluster.step, running]
      refine sims.rewrite (k := k) ?_ ?_ ?_ ?_ ?_ ?_ ?_ ?_ ?_ ?_ ?_ ?_
      · simpa [Act.counts] using sims.served
      · intro f other
        exact others f (by rwa [show (World.mk s c.dir).store.inst = k from inst])
      · exact fun i other => Function.update_of_ne other _ _
      · intro i other
        simp [other]
      · intro i
        by_cases same : i = k
        · subst same
          simp [Mesh.journal, sims.recs, node.dirty]
        · simpa [same] using sims.recs i
      · rw [show (World.mk s c.dir).store.inst = k from inst] at snapFile
        exact snapFile
      · rw [show (World.mk s c.dir).store.inst = k from inst] at logFile
        rw [Function.update_self]
        exact logFile
      · rw [Function.update_self, List.append_assoc]
        exact List.prefix_append _ _
      · exact fun i other => Function.update_of_ne other _ _
      · exact fun i other => Function.update_of_ne other _ _
      · intro _
        simp
      · intro s' up'
        simp at up'

/-- An instance that only read. -/
theorem Sims.reads (sims : Sims c m log buf) (sound : m.Sound) {k : Inst} {s s' : Inner}
    (running : c.nodes k = some s) {env : Env} {js : List Inst} (reads : Reads env c.dir js s s')
    (room : roomy → s.ears.Roomy env k c.dir js) :
    ∃ p', Mesh.Steps allow roomy m { m with peers := Function.update m.peers k (some p') } ∧
      Node c.dir log buf k s' p' := by
  obtain ⟨p, up, node⟩ := sims.up k s running
  have others : ∀ j ∈ js, j ≠ k := fun j member => node.inst ▸ reads.others j member
  have hearing : Hearing log k s.ears p := ⟨node.view, node.reading, node.within⟩
  obtain ⟨p', dirty, steps, resumed⟩ := Mesh.steps_resume (sims.okLog sound)
    sims.logFile sims.log_prefix env others up hearing.resumes room
  have heard := resumed.hearing
  have ears := reads.ears
  rw [node.inst] at ears
  rw [← ears] at heard
  refine ⟨p', steps, reads.inst.trans node.inst, heard.view,
    reads.dirty.trans (node.dirty.trans dirty.symm), node.holds.of_reads reads, node.present,
    ?_, heard.reading, heard.within⟩
  have noSelf := reads.noSelf
  rw [node.inst] at noSelf
  exact noSelf

/-- The cluster with one instance replaced, its files as they were. -/
theorem Sims.replace (sims : Sims c m log buf) {k : Inst} {s : Inner} {p : Peer}
    (node : Node c.dir log buf k s p) {m' : Mesh} {served : List (Inst × String)}
    (counted : served = m'.served) (recs : m'.recs = m.recs)
    (peers : m'.peers = Function.update m.peers k (some p)) :
    Sims ⟨Function.update c.nodes k (some s), c.dir, served⟩ m' log buf := by
  refine sims.rewrite (k := k) counted (fun _ _ => rfl) ?_ ?_ (recs ▸ sims.recs) (sims.noSnap k)
    (sims.logFile k) List.prefix_rfl (fun _ _ => rfl) (fun _ _ => rfl) ?_ ?_
  · exact fun i other => Function.update_of_ne other _ _
  · intro i other
    rw [peers, Function.update_of_ne other]
  · intro down
    simp at down
  · intro s' arrived
    obtain rfl : s = s' := by simpa using arrived
    exact ⟨p, by rw [peers, Function.update_self], node⟩

theorem Node.did {dir : Dir} {k : Inst} {s : Inner} {p : Peer} (node : Node dir log buf k s p)
    (j : Journal) :
    Node dir log buf k { s with index := j.index, dirty := j.dirty } (p.did j) := by
  refine ⟨node.inst, ?_, rfl, ⟨node.holds.opened, node.holds.snapBytes, node.holds.logFile,
    node.holds.queue⟩, node.present, node.noSelf, node.reading, node.within⟩
  have stray : s.stray = p.stray := congrArg View.stray node.view
  rw [Inner.view, stray]
  rfl

theorem Sims.poll (sims : Sims c m log buf) (sound : m.Sound) (k : Inst) (env : Env)
    (room : roomy → c.Roomy (.call k env .poll)) :
    ∃ m', Mesh.Steps allow roomy m m' ∧ Sims (c.step (.call k env .poll)) m' log buf := by
  cases running : c.nodes k with
  | none =>
      simp only [Cluster.step, running]
      exact ⟨m, .refl, sims⟩
  | some s =>
      obtain ⟨p, -, node⟩ := sims.up k s running
      obtain ⟨s', result, reads⟩ := node.holds.poll (by rw [node.inst]; exact node.noSelf) env
      obtain ⟨p', steps, node'⟩ := sims.reads sound running reads fun careful =>
        room careful s running
      refine ⟨_, steps, ?_⟩
      simp only [Cluster.step, running, result, Cluster.resolved, List.map_nil, List.append_nil]
      exact sims.replace node' sims.served rfl rfl

theorem Sims.resolve (sims : Sims c m log buf) (sound : m.Sound) (k : Inst) (env : Env)
    (code : String) (allowed : allow k (.hit code))
    (room : roomy → c.Roomy (.call k env (.resolve code))) :
    ∃ m', Mesh.Steps allow roomy m m' ∧
      Sims (c.step (.call k env (.resolve code))) m' log buf := by
  cases running : c.nodes k with
  | none =>
      simp only [Cluster.step, running]
      exact ⟨m, .refl, sims⟩
  | some s =>
      obtain ⟨p, -, node⟩ := sims.up k s running
      obtain ⟨s', reads, ends⟩ := node.holds.resolve (by rw [node.inst]; exact node.noSelf)
        env code
      obtain ⟨p', steps, node'⟩ := sims.reads sound running reads fun careful =>
        room careful s running
      rcases ends with ⟨uncounted, result⟩ | ⟨ent, counted, found, result⟩
      · refine ⟨_, steps, ?_⟩
        simp only [Cluster.step, running, result, uncounted, List.map_nil, List.append_nil]
        exact sims.replace node' sims.served rfl rfl
      · have index : s'.index = p'.index := congrArg View.index node'.view
        have hit : Mesh.Step allow roomy
            { m with peers := Function.update m.peers k (some p') } _ :=
          .act (Function.update_self k _ _) (.hit (index ▸ found)) trivial trivial allowed
        refine ⟨_, steps.tail hit, ?_⟩
        simp only [Cluster.step, running, result, counted, List.map_cons, List.map_nil]
        have recs : Function.update m.recs k (m.recs k) = m.recs := Function.update_eq_self _ _
        rw [index, node'.dirty]
        refine sims.replace (node'.did
          ⟨p'.index.insert code { ent with h := ent.h + 1, oh := ent.oh + 1 },
            p'.dirty.insert code ((p'.dirty.lookup code).getD 0 + 1), m.recs k⟩) ?_ recs ?_
        · exact congrArg (· ++ [(k, code)]) sims.served
        · exact Function.update_idem _ _ _

/-- Every allowed step is a run of the mesh. -/
theorem Sims.step (sims : Sims c m log buf) (sound : m.Sound) {step : ClusterStep}
    (allowed : step.Allowed allow) (room : roomy → c.Roomy step) :
    ∃ m' log' buf', Mesh.Steps allow roomy m m' ∧ Sims (c.step step) m' log' buf' := by
  cases step with
  | boot k env =>
      obtain ⟨m', steps, sims'⟩ := sims.boot sound k env room
      exact ⟨m', log, buf, steps, sims'⟩
  | stop k env => exact sims.stop k env allowed
  | call k env request =>
      obtain ⟨steady, allowed⟩ := allowed
      cases request with
      | poll =>
          obtain ⟨m', steps, sims'⟩ := sims.poll sound k env room
          exact ⟨m', log, buf, steps, sims'⟩
      | resolve code =>
          obtain ⟨m', steps, sims'⟩ := sims.resolve sound k env code (allowed (.hit code) rfl) room
          exact ⟨m', log, buf, steps, sims'⟩
      | shorten url aliasCode ttl => exact sims.logs k env rfl allowed
      | shortenMany urls ttl => exact sims.logs k env rfl allowed
      | update code url ttl hasTtl => exact sims.logs k env rfl allowed
      | remove code => exact sims.logs k env rfl allowed
      | flush => exact sims.logs k env rfl allowed
      | compact => cases steady
      | restart => cases steady

end Simulation

theorem Mesh.Sound.steps {allow : Inst → Act → Prop} {roomy : Prop} {m m' : Mesh}
    (sound : m.Sound) (steps : Mesh.Steps allow roomy m m') : m'.Sound := by
  induction steps with
  | refl => exact sound
  | tail _ last ih => exact ih.step last

/-- The cluster stands for a mesh that some run reaches. -/
def Cluster.Simulated (allow : Inst → Act → Prop) (roomy : Prop) (c : Cluster) : Prop :=
  ∃ m log buf, Mesh.Steps allow roomy .start m ∧ m.Sound ∧ Sims c m log buf

theorem Cluster.Simulated.step {allow : Inst → Act → Prop} {roomy : Prop} {c : Cluster}
    (simulated : c.Simulated allow roomy) {step : ClusterStep} (allowed : step.Allowed allow)
    (room : roomy → c.Roomy step) : (c.step step).Simulated allow roomy := by
  obtain ⟨m, log, buf, steps, sound, sims⟩ := simulated
  obtain ⟨m', log', buf', more, sims'⟩ := sims.step sound allowed room
  exact ⟨m', log', buf', steps.trans more, sound.steps more, sims'⟩

/-- Every schedule of allowed steps is a run of the mesh. -/
theorem simulated_run {allow : Inst → Act → Prop} {roomy : Prop} {schedule : List ClusterStep}
    (along : Runs.Along Cluster.step
      (fun c step => step.Allowed allow ∧ (roomy → c.Roomy step)) .start schedule) :
    (Cluster.start.run schedule).Simulated allow roomy :=
  along.invariant (fun _ _ simulated guarded => simulated.step guarded.1 guarded.2)
    ⟨_, _, _, .refl, Mesh.sound_start, sims_start⟩

end Shrt.Store
