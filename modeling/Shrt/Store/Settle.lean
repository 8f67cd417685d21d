import Mathlib.Data.List.Basic
import Shrt.Store.Simulation

/-!
# Flushing and polling all instances

When every instance has flushed and then polled without a read error, every
queue is empty and every reader stands at the end of its log.
-/

namespace Shrt.Store

open Shrt.Codec Shrt.Lib Shrt.Lib.Framing Shrt.Lib.Runs

/-- A flush of all these instances, then a poll of all those. -/
def settle (flushOrder pollOrder : List Inst) (flushing polling : Inst → Env) :
    List ClusterStep :=
  flushOrder.map (fun k => .call k (flushing k) .flush) ++
    pollOrder.map fun k => .call k (polling k) .poll

namespace Cluster

/-- The instance has nothing to write. -/
def Idle (c : Cluster) (k : Inst) : Prop :=
  ∀ s, c.nodes k = some s → s.aof = some ⟨[]⟩ ∧ s.dirty = ∅

/-- The instance has read every log to its end. -/
def Caught (c : Cluster) (k : Inst) : Prop :=
  ∀ s, c.nodes k = some s → ∀ j, j ≠ k → (s.heard j).offset = (c.dir.read (.log j)).length

theorem nodes_call_other {k i : Inst} (other : i ≠ k) (c : Cluster) (env : Env) (call : Call) :
    (c.step (.call k env call)).nodes i = c.nodes i := by
  simp only [step]
  split
  · rfl
  · exact Function.update_of_ne other _ _

theorem along_keeps {guard : Cluster → ClusterStep → Prop} {Q : Cluster → Prop}
    {steps : Inst → ClusterStep} (next : ∀ c k, Q c → guard c (steps k) → Q (c.step (steps k)))
    {ks : List Inst} {c : Cluster} (holds : Q c) (along : Along step guard c (ks.map steps)) :
    Q (c.run (ks.map steps)) := by
  induction ks generalizing c with
  | nil => exact holds
  | cons k ks ih =>
      obtain ⟨here, later⟩ := along
      exact ih (next c k holds here) later

/-- The same for calls that need no guard. -/
theorem foldl_keeps {Q : Cluster → Prop} {steps : Inst → ClusterStep}
    (next : ∀ c k, Q c → Q (c.step (steps k))) {ks : List Inst} {c : Cluster} (holds : Q c) :
    Q (c.run (ks.map steps)) := by
  have free : Along step (fun _ _ => True) c (ks.map steps) :=
    Along.of_forall (fun _ _ _ => trivial) c
  exact along_keeps (fun c k holds _ => next c k holds) holds free

/-- What one call achieves for its instance and no call on another undoes holds
of all instances that were called in turn. -/
theorem along_calls {guard : Cluster → ClusterStep → Prop} {P : Cluster → Inst → Prop}
    {Q : Cluster → Prop} {steps : Inst → ClusterStep}
    (done : ∀ c k, Q c → P (c.step (steps k)) k)
    (kept : ∀ c k i, Q c → i ≠ k → P c i → P (c.step (steps k)) i)
    (next : ∀ c k, Q c → guard c (steps k) → Q (c.step (steps k))) {ks : List Inst} {c : Cluster}
    (holds : Q c) (along : Along step guard c (ks.map steps)) {i : Inst}
    (listed : i ∈ ks ∨ P c i) : P (c.run (ks.map steps)) i := by
  induction ks generalizing c with
  | nil =>
      rcases listed with member | already
      · cases member
      · exact already
  | cons k ks ih =>
      obtain ⟨here, later⟩ := along
      refine ih (next c k holds here) later ?_
      by_cases same : i = k
      · rw [same]
        exact Or.inr (done c k holds)
      · rcases listed with member | already
        · exact Or.inl ((List.mem_cons.mp member).resolve_left same)
        · exact Or.inr (kept c k i holds same already)

/-- The same for calls that need no guard. -/
theorem foldl_calls {P : Cluster → Inst → Prop} {Q : Cluster → Prop} {steps : Inst → ClusterStep}
    (done : ∀ c k, Q c → P (c.step (steps k)) k)
    (kept : ∀ c k i, Q c → i ≠ k → P c i → P (c.step (steps k)) i)
    (next : ∀ c k, Q c → Q (c.step (steps k))) {ks : List Inst} {c : Cluster} (holds : Q c)
    {i : Inst} (listed : i ∈ ks ∨ P c i) : P (c.run (ks.map steps)) i := by
  have free : Along step (fun _ _ => True) c (ks.map steps) :=
    Along.of_forall (fun _ _ _ => trivial) c
  exact along_calls done kept (fun c k holds _ => next c k holds) holds free listed

end Cluster

/-- Logs read to their end, one after another. -/
theorem foldl_hear_caught {env : Env} {inst : Inst} {dir : Dir} (whole : ∀ j, env.short j = 0)
    {js : List Inst} (once : js.Nodup) {e : Ears}
    (stands : ∀ j ∈ js, (e.heard j).Stands (dir.read (.log j))) {i : Inst} (member : i ∈ js) :
    ((js.foldl (Ears.hear env inst dir) e).heard i).offset = (dir.read (.log i)).length := by
  induction js generalizing e with
  | nil => cases member
  | cons j js ih =>
      obtain ⟨absent, once⟩ := List.nodup_cons.mp once
      rw [List.foldl_cons]
      by_cases same : i = j
      · subst same
        obtain ⟨r', ls, got, -, -, atEnd⟩ :=
          (stands i List.mem_cons_self).readNew (env.short i)
        rw [Ears.foldl_hear_other env inst dir absent, Ears.hear_self, readSibling, got]
        exact atEnd (whole i)
      · refine ih once (fun j' member' => ?_) ((List.mem_cons.mp member).resolve_left same)
        have other : j' ≠ j := fun same => absent (same ▸ member')
        rw [Ears.hear_other env inst dir e other]
        exact stands j' (List.mem_cons_of_mem _ member')

section Settling

variable {c : Cluster} {m : Mesh} {log buf : Inst → List Rec}

theorem Sims.idle_flush (sims : Sims c m log buf) (k : Inst) (env : Env) :
    (c.step (.call k env .flush)).Idle k := by
  intro s arrived
  cases running : c.nodes k with
  | none =>
      simp only [Cluster.step, running] at arrived
      cases arrived
  | some s₀ =>
      obtain ⟨p, -, node⟩ := sims.up k s₀ running
      have flushed := flushLocked_eq env node.holds.queue c.dir
      simp only [Cluster.step, running, World.step, flushed, Function.update_self] at arrived
      cases arrived
      exact ⟨rfl, rfl⟩

theorem Cluster.Idle.poll {i k : Inst} (idle : c.Idle i) (env : Env) :
    (c.step (.call k env .poll)).Idle i := by
  by_cases same : i = k
  · subst same
    intro s arrived
    cases running : c.nodes i with
    | none =>
        simp only [Cluster.step, running] at arrived
        cases arrived
    | some s₀ =>
        obtain ⟨queue, dirty⟩ := idle s₀ running
        simp only [Cluster.step, running, World.step, Inner.pollTails, queue,
          Function.update_self] at arrived
        cases arrived
        exact ⟨queue, dirty⟩
  · intro s arrived
    rw [Cluster.nodes_call_other same] at arrived
    exact idle s arrived

theorem Cluster.dir_poll (c : Cluster) (k : Inst) (env : Env) :
    (c.step (.call k env .poll)).dir = c.dir := by
  simp only [Cluster.step]
  split <;> rfl

/-- A whole poll brings readers that stand in their logs to the ends of them. -/
theorem Cluster.caught_poll {k : Inst} {env : Env} (whole : ∀ j, env.short j = 0)
    (ready : ∀ s, c.nodes k = some s → s.inst = k ∧ s.aof.isSome ∧ s.readers.lookup k = none ∧
      ∀ j, j ≠ k → (s.heard j).Stands (c.dir.read (.log j))) :
    (c.step (.call k env .poll)).Caught k := by
  intro s' arrived j other
  rw [Cluster.dir_poll]
  cases running : c.nodes k with
  | none =>
      simp only [Cluster.step, running] at arrived
      cases arrived
  | some s =>
      obtain ⟨rfl, queue, noSelf, stands⟩ := ready s running
      obtain ⟨q, queue⟩ := Option.isSome_iff_exists.mp queue
      simp only [Cluster.step, running, World.step, Inner.pollTails, queue,
        Function.update_self] at arrived
      cases arrived
      have heard : (s.pollLocked env c.dir).heard j =
          ((s.pollOrder env c.dir).foldl (Ears.hear env s.inst c.dir) s.ears).heard j :=
        congrFun (congrArg Ears.heard (pollLocked_eq env s c.dir).1) j
      rw [heard]
      by_cases read : j ∈ s.pollOrder env c.dir
      · refine foldl_hear_caught whole (env.readerOrder.nodup_keys (s.discovered c.dir))
          (fun i member => stands i fun same => ?_) read
        exact mem_pollOrder.mp member (same ▸ lookup_discovered_self noSelf)
      · obtain ⟨missing, fresh⟩ := unread_of_not_mem other read
        rw [Ears.foldl_hear_other env s.inst c.dir read]
        change (s.heard j).offset = _
        rw [fresh, Dir.read, missing]
        rfl

theorem Sims.caught_poll (sims : Sims c m log buf) (k : Inst) {env : Env}
    (whole : ∀ j, env.short j = 0) : (c.step (.call k env .poll)).Caught k := by
  refine Cluster.caught_poll whole fun s running => ?_
  obtain ⟨p, -, node⟩ := sims.up k s running
  have queue : s.aof = some ⟨logBytes (buf k)⟩ := node.holds.queue
  refine ⟨node.inst, by rw [queue]; rfl, node.noSelf, fun j other => ?_⟩
  rw [sims.logFile]
  exact (node.reading j other).stands

theorem Cluster.Caught.poll_other {i k : Inst} (caught : c.Caught i) (other : i ≠ k) (env : Env) :
    (c.step (.call k env .poll)).Caught i := by
  intro s arrived
  rw [Cluster.nodes_call_other other] at arrived
  rw [Cluster.dir_poll]
  exact caught s arrived

/-- A reader at the end of its log has read all of it. -/
theorem Seen.all {r : TailReader} {log seen : List Rec} (read : Seen r log seen) (ok : AllOk log)
    (within : seen <+: log) (atEnd : r.offset = (logBytes log).length) : seen = log := by
  have lines := read.lines
  rw [atEnd, List.take_length, show Framing.lines NL (logBytes log) = log.map Rec.line from
    lines_unlines (framed_lines ok)] at lines
  have size := congrArg List.length lines
  rw [List.length_map, List.length_map] at size
  exact within.eq_of_length size.symm

end Settling

/-- All that is written has been read everywhere. -/
structure Mesh.Settled (m : Mesh) : Prop where
  idle : ∀ k p, m.peers k = some p → p.dirty = ∅
  caught : ∀ k p, m.peers k = some p → ∀ j, j ≠ k → p.part j = m.recs j

theorem Sims.settled {c : Cluster} {m : Mesh} {log buf : Inst → List Rec}
    (sims : Sims c m log buf) (sound : m.Sound) (idle : ∀ k, c.Idle k) (caught : ∀ k, c.Caught k) :
    m.Settled := by
  have noQueue : ∀ k, buf k = [] := by
    intro k
    cases running : c.nodes k with
    | none => exact (sims.down k running).2
    | some s =>
        obtain ⟨p, -, node⟩ := sims.up k s running
        have queue : s.aof = some ⟨logBytes (buf k)⟩ := node.holds.queue
        rw [(idle k s running).1] at queue
        injection queue with same
        injection same with same
        exact logBytes_eq_nil same.symm
  have running : ∀ k p, m.peers k = some p →
      ∃ s, c.nodes k = some s ∧ Node c.dir log buf k s p := by
    intro k p up
    cases there : c.nodes k with
    | none =>
        rw [(sims.down k there).1] at up
        cases up
    | some s =>
        obtain ⟨p', up', node⟩ := sims.up k s there
        cases up'.symm.trans up
        exact ⟨s, rfl, node⟩
  constructor
  · intro k p up
    obtain ⟨s, there, node⟩ := running k p up
    rw [← node.dirty]
    exact (idle k s there).2
  · intro k p up j other
    obtain ⟨s, there, node⟩ := running k p up
    have atEnd := caught k s there j other
    rw [sims.logFile] at atEnd
    rw [sims.recs, noQueue, List.append_nil]
    exact (node.reading j other).all (sims.okLog sound j) (node.within j other) atEnd

section Phases

variable {allow : Inst → Act → Prop} (drains : ∀ k ord, allow k (.drain ord))
include drains

theorem allowed_flush (k : Inst) (env : Env) :
    ClusterStep.Allowed allow (.call k env .flush) := by
  refine ⟨rfl, fun act acts => ?_⟩
  cases act with
  | drain ord => exact drains k ord
  | create c url now exp => exact acts.elim
  | amend c url exp => exact acts.elim
  | drop c => exact acts.elim
  | hit c => exact acts.elim
  | snapshot ord => exact acts.elim
  | restart env => exact acts.elim

theorem simulated_flush {c : Cluster} (simulated : c.Simulated allow False) (k : Inst)
    (env : Env) : (c.step (.call k env .flush)).Simulated allow False :=
  simulated.step (allowed_flush drains k env) False.elim

omit drains in
theorem simulated_poll {c : Cluster} (simulated : c.Simulated allow False) (k : Inst)
    (env : Env) : (c.step (.call k env .poll)).Simulated allow False :=
  simulated.step ⟨rfl, fun _ acts => acts.elim⟩ False.elim

/-- A flush of all instances, then a whole poll of all, empties the queues and
brings the readers to the ends of the logs. -/
theorem idle_caught_settle {c : Cluster} (simulated : c.Simulated allow False)
    {flushOrder pollOrder : List Inst} {flushing polling : Inst → Env}
    (flushed : ∀ k, k ∈ flushOrder) (polled : ∀ k, k ∈ pollOrder)
    (whole : ∀ k j, (polling k).short j = 0) (k : Inst) :
    (c.run (settle flushOrder pollOrder flushing polling)).Idle k ∧
      (c.run (settle flushOrder pollOrder flushing polling)).Caught k := by
  rw [settle, Cluster.run, List.foldl_append]
  have idle : ∀ i, (c.run (flushOrder.map fun k => .call k (flushing k) .flush)).Idle i := by
    intro i
    refine Cluster.foldl_calls (Q := fun c => c.Simulated allow False) ?_ ?_
      (fun c k simulated => simulated_flush drains simulated k (flushing k)) simulated
      (Or.inl (flushed i))
    · rintro c k ⟨m, log, buf, -, -, sims⟩
      exact sims.idle_flush k (flushing k)
    · intro c k i _ other idle s arrived
      rw [Cluster.nodes_call_other other] at arrived
      exact idle s arrived
  have still : (c.run (flushOrder.map fun k => .call k (flushing k) .flush)).Simulated allow
      False := by
    refine Cluster.foldl_keeps (fun c k simulated => ?_) simulated
    exact simulated_flush drains simulated k (flushing k)
  have both : (c.run (flushOrder.map fun k => .call k (flushing k) .flush)).Simulated allow
      False ∧ ∀ i, (c.run (flushOrder.map fun k => .call k (flushing k) .flush)).Idle i :=
    ⟨still, idle⟩
  have next : ∀ (c : Cluster) (k : Inst), (c.Simulated allow False ∧ ∀ i, c.Idle i) →
      (c.step (.call k (polling k) .poll)).Simulated allow False ∧
        ∀ i, (c.step (.call k (polling k) .poll)).Idle i := by
    rintro c k ⟨simulated, idle⟩
    exact ⟨simulated_poll simulated k (polling k), fun i => (idle i).poll (polling k)⟩
  constructor
  · exact (Cluster.foldl_keeps next both).2 k
  · refine Cluster.foldl_calls (Q := fun c => c.Simulated allow False ∧ ∀ i, c.Idle i) ?_ ?_ next
      both (Or.inl (polled k))
    · rintro c k ⟨⟨m, log, buf, -, -, sims⟩, -⟩
      exact sims.caught_poll k (whole k)
    · intro c k i _ other caught
      exact caught.poll_other other (polling k)

/-- After such an end, a mesh that stands for the cluster is settled. -/
theorem settled_of_sims {schedule : List ClusterStep} {flushOrder pollOrder : List Inst}
    {flushing polling : Inst → Env} (flushed : ∀ k, k ∈ flushOrder) (polled : ∀ k, k ∈ pollOrder)
    (whole : ∀ k j, (polling k).short j = 0)
    (allowed : ∀ step ∈ schedule, step.Allowed allow) {m : Mesh} {log buf : Inst → List Rec}
    (sound : m.Sound)
    (sims : Sims (Cluster.start.run (schedule ++ settle flushOrder pollOrder flushing polling))
      m log buf) : m.Settled := by
  have before : (Cluster.start.run schedule).Simulated allow False :=
    simulated_run (Along.of_forall (fun step member _ => ⟨allowed step member, False.elim⟩) _)
  have joined : (Cluster.start.run schedule).run
      (settle flushOrder pollOrder flushing polling) =
      Cluster.start.run (schedule ++ settle flushOrder pollOrder flushing polling) :=
    List.foldl_append.symm
  have ends := fun k => joined ▸ idle_caught_settle drains before flushed polled whole k
  exact sims.settled sound (fun k => (ends k).1) fun k => (ends k).2

/-- The end itself is allowed where draining is. -/
theorem allowed_settle {flushOrder pollOrder : List Inst} {flushing polling : Inst → Env} :
    ∀ step ∈ settle flushOrder pollOrder flushing polling, step.Allowed allow := by
  intro step member
  rcases List.mem_append.mp member with flush | poll
  · obtain ⟨k, -, rfl⟩ := List.mem_map.mp flush
    exact allowed_flush drains k (flushing k)
  · obtain ⟨k, -, rfl⟩ := List.mem_map.mp poll
    exact ⟨rfl, fun _ acts => acts.elim⟩

end Phases

end Shrt.Store
