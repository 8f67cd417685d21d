import Mathlib.Data.List.Basic
import Shrt.Store.Compacted

/-!
# Closing and opening all instances

Once all instances are closed, the directory is a mesh: the records of an
instance are its snapshot and then its log.  An instance that opens has the
snapshots, a poll reads the logs after them.  So what a mesh counts is counted
here as well, if no compaction before has dropped a hit.
-/

namespace Shrt.Store

open Shrt.Codec Shrt.Lib Shrt.Lib.Runs

/-! ## Opening and polling -/

/-- An instance that opened and has only read since. -/
structure Reader (snap log : Inst → List Rec) (k : Inst) (s : Inner) (p : Peer) : Prop where
  inst : s.inst = k
  queue : s.aof.isSome
  noSelf : s.readers.lookup k = none
  idle : p.dirty = ∅
  resumes : Resumes snap log k s.ears p

/-- The files hold the records of the mesh, and the instances only read. -/
structure Reopens (c : Cluster) (m : Mesh) (snap log : Inst → List Rec) : Prop where
  served : c.served = m.served
  recs : ∀ k, m.recs k = snap k ++ log k
  snapFile : ∀ k, c.dir.read (.snap k) = logBytes (snap k)
  logFile : ∀ k, c.dir.read (.log k) = logBytes (log k)
  kept : ∀ k, snap k ≠ [] → (c.dir (.log k)).isSome
  down : ∀ k, c.nodes k = none → m.peers k = none
  up : ∀ k s, c.nodes k = some s → ∃ p, m.peers k = some p ∧ Reader snap log k s p

section Opening

variable {c : Cluster} {m : Mesh} {snap log : Inst → List Rec} {allow : Inst → Act → Prop}

theorem Reopens.okSnap (reopens : Reopens c m snap log) (sound : m.Sound) (k : Inst) :
    AllOk (snap k) := by
  intro r member
  apply sound.allOk k
  rw [reopens.recs]
  exact List.mem_append_left _ member

theorem Reopens.okLog (reopens : Reopens c m snap log) (sound : m.Sound) (k : Inst) :
    AllOk (log k) := by
  intro r member
  apply sound.allOk k
  rw [reopens.recs]
  exact List.mem_append_right _ member

/-- Snapshots read one after another. -/
theorem Mesh.steps_snaps {k : Inst} (written : ∀ j, snap j <+: m.recs j) (env : Env)
    {js : List Inst} (others : ∀ j ∈ js, j ≠ k) (once : js.Nodup) {p : Peer}
    (up : m.peers k = some p) (unread : ∀ j ∈ js, p.part j = [])
    (room : View.Roomy env k p.view ((js.flatMap snap).map Rec.op)) :
    ∃ p', p'.dirty = p.dirty ∧ p'.view = replay env k p.view (js.flatMap snap) ∧
      (∀ j, p'.part j = if j ∈ js then snap j else p.part j) ∧
      Mesh.Steps allow True m { m with peers := Function.update m.peers k (some p') } := by
  induction js generalizing m p with
  | nil =>
      refine ⟨p, rfl, rfl, fun j => rfl, ?_⟩
      rw [← up, Function.update_eq_self]
  | cons j js ih =>
      obtain ⟨absent, once⟩ := List.nodup_cons.mp once
      have other : j ≠ k := others j List.mem_cons_self
      have nothing : p.part j = [] := unread j List.mem_cons_self
      rw [List.flatMap_cons, List.map_append, View.Roomy.append] at room
      obtain ⟨here, later⟩ := room
      have step : Mesh.Step allow True m _ :=
        .hear up other env (by rw [nothing]; exact written j) fun _ => here
      have unread' : ∀ i ∈ js, (p.hear env k j (snap j)).part i = [] := by
        intro i member
        have differs : i ≠ j := fun same => absent (same ▸ member)
        simpa [Peer.hear, differs] using unread i (List.mem_cons_of_mem _ member)
      obtain ⟨p', dirty, view, parts, steps⟩ := ih
        (m := { m with peers := Function.update m.peers k (some (p.hear env k j (snap j))) })
        written (fun i member => others i (List.mem_cons_of_mem _ member)) once
        (Function.update_self _ _ _) unread' later
      refine ⟨p', dirty, ?_, fun i => ?_, .head step ?_⟩
      · rw [view, List.flatMap_cons, replay_append]
        rfl
      · rw [parts]
        by_cases same : i = j
        · subst same
          simp [absent, Peer.hear, nothing]
        · simp [Peer.hear, same]
      · simpa only [Function.update_idem] using steps

/-- One instance replaced; the files hold what they held. -/
theorem Reopens.replace (reopens : Reopens c m snap log) {k : Inst} {s : Inner} {p : Peer}
    {dir : Dir} (reads : ∀ f, dir.read f = c.dir.read f)
    (present : ∀ f, (c.dir f).isSome → (dir f).isSome) (reader : Reader snap log k s p) :
    Reopens ⟨Function.update c.nodes k (some s), dir, c.served⟩
      { m with peers := Function.update m.peers k (some p) } snap log := by
  refine ⟨reopens.served, reopens.recs, fun i => ?_, fun i => ?_, fun i some => ?_,
    fun i stopped => ?_, fun i s' running => ?_⟩
  · rw [reads]
    exact reopens.snapFile i
  · rw [reads]
    exact reopens.logFile i
  · exact present _ (reopens.kept i some)
  · by_cases same : i = k
    · subst same
      simp at stopped
    · simp only [Function.update_of_ne same] at stopped ⊢
      exact reopens.down i stopped
  · by_cases same : i = k
    · subst same
      obtain rfl : s = s' := by simpa using running
      exact ⟨p, Function.update_self _ _ _, reader⟩
    · simp only [Function.update_of_ne same] at running ⊢
      exact reopens.up i s' running

/-- An instance that opens has its records and the snapshots of the others. -/
theorem Reopens.boot (reopens : Reopens c m snap log) (sound : m.Sound) (k : Inst) (env : Env)
    (room : c.Roomy (.boot k env)) :
    ∃ m', Mesh.Steps allow True m m' ∧ Reopens (c.step (.boot k env)) m' snap log := by
  cases running : c.nodes k with
  | some s =>
      simp only [Cluster.step, running]
      exact ⟨m, .refl, reopens⟩
  | none =>
      have view := view_new env (reopens.okSnap sound) (reopens.okLog sound k) reopens.snapFile
        (reopens.logFile k) false
      have ops : bootOps c.dir k =
          (m.recs k).map Rec.op ++ ((shardFiles c.dir k).flatMap snap).map Rec.op := by
        simp only [bootOps, reopens.snapFile, reopens.logFile, reopens.recs,
          readOps_logBytes (reopens.okSnap sound _), readOps_logBytes (reopens.okLog sound k),
          List.map_append, List.map_flatMap]
      have roomy := room running
      rw [ops, View.Roomy.append] at roomy
      obtain ⟨own, siblings⟩ := roomy
      have opened : Mesh.Step allow True m _ := .boot (reopens.down k running) env fun _ => own
      have written : ∀ j, snap j <+: m.recs j := fun j => by
        rw [reopens.recs]
        exact List.prefix_append _ _
      obtain ⟨p, dirty, heard, parts, steps⟩ := Mesh.steps_snaps
        (m := { m with peers := Function.update m.peers k (some (.booted env k (m.recs k))) })
        written env (fun j member => (mem_shardFiles.mp member).1) (nodup_shardOrder.filter _)
        (Function.update_self _ _ _) (fun _ _ => rfl) siblings
      refine ⟨_, .head opened steps, ?_⟩
      simp only [Cluster.step, running]
      have reader : Reader snap log k (Inner.new env c.dir k false).1 p := by
        refine ⟨rfl, rfl, lookup_readers_new env c.dir k false, dirty, ⟨?_, fun j other => ?_⟩⟩
        · rw [heard]
          refine view.trans ?_
          rw [replay_append, ← reopens.recs]
          rfl
        · refine ⟨[], ?_, List.nil_prefix, ?_⟩
          · rw [parts, List.append_nil]
            split
            · rfl
            · rename_i unlisted
              -- A snapshot without a log would not be read.
              by_contra unread
              exact unlisted (mem_shardFiles.mpr ⟨other, reopens.kept j (Ne.symm unread)⟩)
          · change Seen ((Inner.new env c.dir k false).1.heard j) _ _
            rw [heard_new]
            exact seen_fromStart (log j)
      have present : ∀ f, (c.dir f).isSome →
          (c.dir.write (.log k) (c.dir.read (.log k)) f).isSome := by
        intro f there
        by_cases same : f = .log k
        · simp [same, Dir.write]
        · rw [Dir.write_other same]
          exact there
      rw [Function.update_idem]
      exact reopens.replace (Dir.read_opened c.dir k) present reader

/-- A poll reads on in the logs. -/
theorem Reopens.poll (reopens : Reopens c m snap log) (sound : m.Sound) (k : Inst) (env : Env)
    (room : c.Roomy (.call k env .poll)) :
    ∃ m', Mesh.Steps allow True m m' ∧ Reopens (c.step (.call k env .poll)) m' snap log := by
  cases running : c.nodes k with
  | none =>
      simp only [Cluster.step, running]
      exact ⟨m, .refl, reopens⟩
  | some s =>
      obtain ⟨p, up, reader⟩ := reopens.up k s running
      have inst := reader.inst
      subst inst
      obtain ⟨q, queue⟩ := Option.isSome_iff_exists.mp reader.queue
      have reads := reads_pollLocked env c.dir reader.noSelf
      have order : s.callOrder env c.dir .poll = s.pollOrder env c.dir := by
        simp [Inner.callOrder, queue]
      have roomy := room s running
      rw [order] at roomy
      obtain ⟨p', dirty, steps, resumes⟩ := Mesh.steps_resume (reopens.okLog sound)
        reopens.logFile (fun j => by rw [reopens.recs]) env reads.others up reader.resumes
        fun _ => roomy
      rw [← reads.ears] at resumes
      refine ⟨_, steps, ?_⟩
      simp only [Cluster.step, running, World.step, Inner.pollTails, queue, Cluster.resolved,
        List.map_nil, List.append_nil]
      refine reopens.replace (fun _ => rfl) (fun _ there => there) ⟨reads.inst, ?_, reads.noSelf,
        dirty.trans reader.idle, resumes⟩
      rw [reads.aof]
      exact reader.queue

end Opening

theorem Reopens.settled {c : Cluster} {m : Mesh} {snap log : Inst → List Rec}
    (reopens : Reopens c m snap log) (sound : m.Sound) (caught : ∀ k, c.Caught k) :
    m.Settled := by
  have running : ∀ k p, m.peers k = some p →
      ∃ s, c.nodes k = some s ∧ Reader snap log k s p := by
    intro k p up
    cases there : c.nodes k with
    | none =>
        rw [reopens.down k there] at up
        cases up
    | some s =>
        obtain ⟨p', up', reader⟩ := reopens.up k s there
        cases up'.symm.trans up
        exact ⟨s, rfl, reader⟩
  constructor
  · intro k p up
    obtain ⟨s, -, reader⟩ := running k p up
    exact reader.idle
  · intro k p up j other
    obtain ⟨s, there, reader⟩ := running k p up
    obtain ⟨part, parts, within, seen⟩ := reader.resumes.reading j other
    have atEnd := caught k s there j other
    rw [reopens.logFile] at atEnd
    rw [parts, seen.all (reopens.okLog sound j) within atEnd, reopens.recs]

/-! ## The records that are left -/

namespace Pool

/-- The records of a pool as a mesh in which no instance runs. -/
def mesh (p : Pool) : Mesh :=
  ⟨fun _ => none, p.all, p.served⟩

theorem rows_mesh {p : Pool} {c : String} : p.mesh.rows c ≠ 0 ↔ p.HasRow c := by
  rw [Mesh.rows, ne_eq, Finset.sum_eq_zero_iff, HasRow]
  push Not
  simp [mesh]

theorem Kept.sound_mesh {p : Pool} (kept : p.Kept) (sound : p.Sound) : p.mesh.Sound :=
  ⟨fun k => (sound.okSnaps k).append (sound.okRecs k), kept.own, fun _ _ up => (by cases up),
    fun _ _ up => (by cases up), fun _ _ up => (by cases up)⟩

/-- A code has its row in the records of the one instance it names. -/
theorem Kept.rows_le {p : Pool} (kept : p.Kept) (c : String) : p.mesh.rows c ≤ 1 := by
  by_cases row : p.HasRow c
  · obtain ⟨k, present⟩ := row
    have only : p.mesh.rows c = rowCount c (p.all k) := by
      apply Finset.sum_eq_single k
      · intro j _ other
        by_contra there
        exact other (Option.some.inj ((kept.owned j c there).symm.trans (kept.owned k c present)))
      · intro absent
        exact absurd (Finset.mem_univ k) absent
    rw [only]
    exact kept.once k c
  · rw [← rows_mesh, not_not] at row
    omega

/-- The records of a pool without running instances count every resolve. -/
theorem Kept.counted_mesh {p : Pool} (kept : p.Kept) (closed : ∀ k, p.members k = none) :
    p.mesh.Counted := by
  refine ⟨kept.noDel, kept.owned, kept.rows_le, ?_, ?_, ?_, ?_, ?_, ?_⟩
  · exact fun k r member => rows_mesh.mpr (kept.named k r member)
  · exact fun _ _ up => by cases up
  · exact fun k c member => rows_mesh.mpr (kept.resolved k c member)
  · exact fun _ _ up => by cases up
  · exact fun _ _ up => by cases up
  · intro k c
    have total := kept.served k c
    rw [Pool.unlogged, closed k] at total
    exact total

end Pool

/-! ## Careful schedules -/

/-- The codes of the hits that an instance has written since its last snapshot,
to its log or its queue, and of those it has not written yet. -/
def Inner.hitCodes (s : Inner) (dir : Dir) : List String :=
  ((readOps (dir.read (.log s.inst) ++ s.aof.elim [] Aof.buf)).map Op.h).filter (· ≠ "") ++
    s.dirty.keys

/-- Generated codes are created and hits are counted.  What is read of a log are
records of it, no stray map is full while an instance opens, and an instance
compacts only while all its hits are on its own codes. -/
def Cluster.Careful (c : Cluster) : ClusterStep → Prop
  | .boot k env => c.Roomy (.boot k env)
  | .stop _ _ => True
  | .call k _ .compact => ∀ s ∈ c.nodes k, ∀ code ∈ s.hitCodes c.dir, ownerOf code = some k
  | .call k env request => request.counting = true ∧ c.Honest (.call k env request)

instance (c : Cluster) : ∀ step, Decidable (c.Careful step)
  | .boot k env => inferInstanceAs (Decidable (c.Roomy (.boot k env)))
  | .stop _ _ => isTrue trivial
  | .call k _ request =>
      match request with
      | .compact => inferInstanceAs
          (Decidable (∀ s ∈ c.nodes k, ∀ code ∈ s.hitCodes c.dir, ownerOf code = some k))
      | .shorten _ _ _ => inferInstanceAs (Decidable (_ ∧ c.Honest _))
      | .shortenMany _ _ => inferInstanceAs (Decidable (_ ∧ c.Honest _))
      | .update _ _ _ _ => inferInstanceAs (Decidable (_ ∧ c.Honest _))
      | .remove _ => inferInstanceAs (Decidable (_ ∧ c.Honest _))
      | .resolve _ => inferInstanceAs (Decidable (_ ∧ c.Honest _))
      | .flush => inferInstanceAs (Decidable (_ ∧ c.Honest _))
      | .poll => inferInstanceAs (Decidable (_ ∧ c.Honest _))
      | .restart => inferInstanceAs (Decidable (_ ∧ c.Honest _))

section Schedules

variable {c : Cluster} {p : Pool} {log buf : Inst → List Rec}

/-- The hits in the records of an instance are among its hit codes. -/
theorem Seat.mem_hitCodes {truncates : Inst → Prop} {k : Inst} {s : Inner} {m : Member}
    (seat : Seat truncates c.dir p.snaps log buf k s m) (okLog : AllOk (log k))
    (okBuf : AllOk (buf k)) {code : String} (named : code ≠ "") {d i : Int64}
    (member : Rec.hit code d i ∈ log k ++ buf k) : code ∈ s.hitCodes c.dir := by
  have bytes : c.dir.read (.log s.inst) ++ s.aof.elim [] Aof.buf =
      logBytes (log k ++ buf k) := by
    have queue : s.aof = some ⟨logBytes (buf k)⟩ := seat.holds.queue
    have file : c.dir.read (.log s.inst) = [] ++ logBytes (log k) := seat.holds.logFile
    rw [queue, file, logBytes_append]
    rfl
  rw [Inner.hitCodes, bytes, readOps_logBytes (okLog.append okBuf)]
  refine List.mem_append_left _ (List.mem_filter.mpr ⟨?_, by simpa using named⟩)
  exact List.mem_map.mpr ⟨_, List.mem_map_of_mem member, rfl⟩

/-- What an instance may compact are records of its own codes. -/
theorem Pools.owned_of_careful {truncates : Inst → Prop} (pools : Pools truncates c p log buf)
    (sound : p.Sound) (kept : p.Kept) {k : Inst} {s : Inner} (running : c.nodes k = some s)
    (careful : ∀ code ∈ s.hitCodes c.dir, ownerOf code = some k) (ord : IterOrder String Int64) :
    ∀ r ∈ p.recs k ++ hitRecs k (ord.iter s.dirty), ownerOf r.code = some k := by
  obtain ⟨m, -, seat⟩ := pools.up k s running
  intro r member
  rcases List.mem_append.mp member with written | unwritten
  · have listed : r ∈ p.all k := List.mem_append_right _ written
    have okRecs := sound.okRecs k
    rw [pools.recs] at written okRecs
    cases r with
    | row c' u a e i n =>
        exact kept.owned k c' (rowCount_ne_zero listed (by simp [isRow]))
    | del c' => exact absurd rfl (kept.noDel k _ listed c')
    | hit c' d i =>
        obtain ⟨j, row⟩ := kept.named k _ listed
        have named : c' ≠ "" := by
          rintro rfl
          have nobody : ownerOf "" = none := rfl
          have owner : ownerOf "" = some j := kept.owned j "" row
          rw [nobody] at owner
          cases owner
        exact careful c' (seat.mem_hitCodes
          (fun r here => okRecs r (List.mem_append_left _ here))
          (fun r here => okRecs r (List.mem_append_right _ here)) named written)
  · obtain ⟨⟨c', d⟩, stored, rfl⟩ := List.mem_map.mp unwritten
    refine careful c' (List.mem_append_right _ ?_)
    have here : c' ∈ s.dirty := by
      rw [Map.mem_iff_lookup, ord.mem_iter_iff.mp stored]
      simp
    exact AList.mem_keys.mp here

/-- A careful step is permitted. -/
theorem Pools.permit (pools : Pools (fun _ => True) c p log buf) (sound : p.Sound) (kept : p.Kept)
    {step : ClusterStep} (careful : c.Careful step) :
    Pool.Rules.counting.Permit (fun _ => True) c p step ∧ c.Honest step := by
  cases step with
  | boot k env =>
      refine ⟨fun recs down ops => ?_, trivial⟩
      have room := careful down
      rw [ops] at room
      exact room
  | stop k env => exact ⟨trivial, trivial⟩
  | call k env request =>
      have counts : ∀ {request : Call}, request.counting = true →
          ∀ act, request.Acts k act → Mesh.Counts k act := by
        intro request counting
        have allowed : (ClusterStep.call k env request).Allowed Mesh.Counts :=
          ClusterStep.allowed_counts counting
        exact allowed.2
      cases request with
      | compact =>
          refine ⟨⟨trivial, trivial, fun s running p' recs r member => ?_⟩,
            fun _ _ _ member => by cases member⟩
          rw [recs] at member
          exact pools.owned_of_careful sound kept running (careful s running) env.dirtyOrder r
            member
      | shorten url aliasCode ttl => exact ⟨counts careful.1, careful.2⟩
      | shortenMany urls ttl => exact ⟨counts careful.1, careful.2⟩
      | resolve code => exact ⟨counts careful.1, careful.2⟩
      | flush => exact ⟨counts careful.1, careful.2⟩
      | poll => exact ⟨counts careful.1, careful.2⟩
      | update code url ttl hasTtl => exact absurd careful.1 nofun
      | remove code => exact absurd careful.1 nofun
      | restart => exact absurd careful.1 nofun

/-- The cluster stands for a pool that counts every resolve, and in which these
codes have their rows. -/
def Cluster.Accounted (c : Cluster) (codes : List String) : Prop :=
  ∃ p log buf, p.Sound ∧ p.Kept ∧ Pools (fun _ => True) c p log buf ∧ ∀ code ∈ codes, p.HasRow code

theorem Cluster.accounted_start : Cluster.start.Accounted [] :=
  ⟨_, _, _, Pool.sound_start, Pool.kept_start, pools_start _, fun _ member => by cases member⟩

theorem Cluster.Accounted.step {codes : List String} (accounted : c.Accounted codes)
    {step : ClusterStep} (careful : c.Careful step) :
    (c.step step).Accounted (codes ++ c.issues step) := by
  obtain ⟨p, log, buf, sound, kept, pools, present⟩ := accounted
  obtain ⟨permitted, honest⟩ := pools.permit sound kept careful
  obtain ⟨p', log', buf', steps, pools'⟩ := pools.step sound permitted honest
  obtain ⟨kept', rows⟩ := kept.steps sound steps
  refine ⟨p', log', buf', sound.steps steps, kept', pools', fun code member => ?_⟩
  rcases List.mem_append.mp member with old | new
  · exact rows code (present code old)
  · obtain ⟨k, s, running, live⟩ := Cluster.live_of_issues new
    obtain ⟨m, up, seat⟩ := pools'.up k s running
    obtain ⟨ent, found⟩ := Option.ne_none_iff_exists'.mp live
    have index : s.index = m.index := congrArg View.index seat.view
    rw [index] at found
    obtain ⟨j, -, row⟩ := (kept'.fits k m up).rows code ent found
    exact ⟨j, row⟩

end Schedules

theorem Cluster.issued_append (c : Cluster) (first second : List ClusterStep) :
    c.issued (first ++ second) = c.issued first ++ (c.run first).issued second := by
  induction first generalizing c with
  | nil => rfl
  | cons step first ih =>
      rw [List.cons_append, Cluster.issued, ih, Cluster.issued, List.append_assoc]
      rfl

/-! ## Closing and opening -/

/-- A flush of these instances, then a stop of those. -/
def closeAll (flushOrder stopOrder : List Inst) (flushing closing : Inst → Env) :
    List ClusterStep :=
  flushOrder.map (fun k => .call k (flushing k) .flush) ++ stopOrder.map fun k => .stop k (closing k)

def openAll (bootOrder pollOrder : List Inst) (opening polling : Inst → Env) : List ClusterStep :=
  bootOrder.map (fun k => .boot k (opening k)) ++ pollOrder.map fun k => .call k (polling k) .poll

theorem careful_closeAll {flushOrder stopOrder : List Inst} {flushing closing : Inst → Env} :
    ∀ step ∈ closeAll flushOrder stopOrder flushing closing, ∀ c : Cluster, c.Careful step := by
  intro step member c
  rcases List.mem_append.mp member with flush | stop
  · obtain ⟨k, -, rfl⟩ := List.mem_map.mp flush
    exact ⟨rfl, fun _ _ _ listed => by cases listed⟩
  · obtain ⟨k, -, rfl⟩ := List.mem_map.mp stop
    trivial

theorem nodes_stop_self (c : Cluster) (k : Inst) (env : Env) :
    (c.step (.stop k env)).nodes k = none := by
  cases running : c.nodes k with
  | none => simp only [Cluster.step, running]
  | some s => simp only [Cluster.step, running, Function.update_self]

theorem nodes_stop_other {k i : Inst} (other : i ≠ k) (c : Cluster) (env : Env) :
    (c.step (.stop k env)).nodes i = c.nodes i := by
  simp only [Cluster.step]
  split
  · rfl
  · exact Function.update_of_ne other _ _

/-- After the stops no instance runs. -/
theorem down_closeAll (c : Cluster) {flushOrder stopOrder : List Inst}
    {flushing closing : Inst → Env} {k : Inst} (stopped : k ∈ stopOrder) :
    (c.run (closeAll flushOrder stopOrder flushing closing)).nodes k = none := by
  rw [closeAll, Cluster.run, List.foldl_append]
  refine Cluster.foldl_calls (P := fun c k => c.nodes k = none) (Q := fun _ => True) ?_ ?_
    (fun _ _ _ => trivial) trivial (Or.inl stopped)
  · exact fun c k _ => nodes_stop_self c k (closing k)
  · intro c k i _ other down
    rw [nodes_stop_other other]
    exact down

/-- The instances that run only read, and what they hold is counted. -/
def Cluster.Recounted (snap log : Inst → List Rec) (codes : List String) (c : Cluster) : Prop :=
  ∃ m, m.Sound ∧ m.Counted ∧ (∀ code ∈ codes, m.rows code ≠ 0) ∧ Reopens c m snap log

/-- Closed instances leave records that count every resolve. -/
theorem Cluster.Accounted.recounted {c : Cluster} {codes : List String}
    (accounted : c.Accounted codes) (closed : ∀ k, c.nodes k = none) :
    ∃ snap log, c.Recounted snap log codes := by
  obtain ⟨p, log, buf, sound, kept, pools, present⟩ := accounted
  have stopped := fun k => pools.down k (closed k)
  refine ⟨p.snaps, log, p.mesh, kept.sound_mesh sound, kept.counted_mesh fun k => (stopped k).1,
    fun code member => Pool.rows_mesh.mpr (present code member), pools.served, fun k => ?_,
    pools.snapFile, pools.logFile, pools.kept, fun _ _ => rfl, fun k s running => ?_⟩
  · change p.snaps k ++ p.recs k = _
    rw [pools.recs, (stopped k).2, List.append_nil]
  · rw [closed k] at running
    cases running

theorem Mesh.Counted.steps {m m' : Mesh} (counted : m.Counted) (sound : m.Sound)
    (steps : Mesh.Steps Mesh.Counts True m m') : m'.Counted := by
  suffices both : m'.Sound ∧ m'.Counted from both.2
  induction steps with
  | refl => exact ⟨sound, counted⟩
  | tail _ last ih => exact ⟨ih.1.step last, ih.2.step ih.1 last⟩

section Counting

variable {snap log : Inst → List Rec} {codes : List String} {c : Cluster}

/-- Steps of the mesh keep what is counted. -/
theorem Cluster.Recounted.next {c' : Cluster} (recounted : c.Recounted snap log codes)
    (next : ∀ m, m.Sound → Reopens c m snap log →
      ∃ m', Mesh.Steps Mesh.Counts True m m' ∧ Reopens c' m' snap log) :
    c'.Recounted snap log codes := by
  obtain ⟨m, sound, counted, present, reopens⟩ := recounted
  obtain ⟨m', steps, reopens'⟩ := next m sound reopens
  refine ⟨m', sound.steps steps, counted.steps sound steps, fun code member => ?_, reopens'⟩
  have before := present code member
  have rows := Mesh.Steps.rows_le steps code
  omega

theorem Cluster.Recounted.boot (recounted : c.Recounted snap log codes) {k : Inst} {env : Env}
    (room : c.Roomy (.boot k env)) : (c.step (.boot k env)).Recounted snap log codes :=
  recounted.next fun _ sound reopens => reopens.boot sound k env room

theorem Cluster.Recounted.poll (recounted : c.Recounted snap log codes) {k : Inst} {env : Env}
    (room : c.Roomy (.call k env .poll)) :
    (c.step (.call k env .poll)).Recounted snap log codes :=
  recounted.next fun _ sound reopens => reopens.poll sound k env room

theorem Cluster.Recounted.caught_poll (recounted : c.Recounted snap log codes) (k : Inst)
    {env : Env} (whole : ∀ j, env.short j = 0) : (c.step (.call k env .poll)).Caught k := by
  obtain ⟨m, -, -, -, reopens⟩ := recounted
  refine Cluster.caught_poll whole fun s running => ?_
  obtain ⟨p, -, reader⟩ := reopens.up k s running
  refine ⟨reader.inst, reader.queue, reader.noSelf, fun j other => ?_⟩
  obtain ⟨part, -, -, seen⟩ := reader.resumes.reading j other
  rw [reopens.logFile]
  exact seen.stands

/-- Opened instances that have polled have read every log to its end. -/
theorem Cluster.Recounted.openAll {bootOrder pollOrder : List Inst} {opening polling : Inst → Env}
    (recounted : c.Recounted snap log codes) (polled : ∀ k, k ∈ pollOrder)
    (whole : ∀ k j, (polling k).short j = 0)
    (room : Along Cluster.step Cluster.Roomy c (openAll bootOrder pollOrder opening polling)) :
    (c.run (openAll bootOrder pollOrder opening polling)).Recounted snap log codes ∧
      ∀ k, (c.run (openAll bootOrder pollOrder opening polling)).Caught k := by
  obtain ⟨boots, polls⟩ := Along.append.mp room
  rw [Store.openAll, Cluster.run, List.foldl_append]
  have opened : (c.run (bootOrder.map fun k => .boot k (opening k))).Recounted snap log codes :=
    Cluster.along_keeps (fun _ _ recounted room => recounted.boot room) recounted boots
  constructor
  · exact Cluster.along_keeps (fun _ _ recounted room => recounted.poll room) opened polls
  · intro k
    refine Cluster.along_calls (fun c k recounted => ?_) (fun c k i _ other caught => ?_)
      (fun _ _ recounted room => recounted.poll room) opened polls (Or.inl (polled k))
    · exact recounted.caught_poll k (whole k)
    · exact caught.poll_other other (polling k)

end Counting

/-- After any careful schedule with compactions, once all instances are flushed
and closed, and some are opened again and have polled, each of them reports for
every code the resolves that all instances served.  A code it does not know was
never given out and never resolved. -/
theorem reopened_hits_conserved (schedule : List ClusterStep)
    (flushOrder stopOrder bootOrder pollOrder : List Inst)
    (flushing closing opening polling : Inst → Env) (stopped : ∀ k, k ∈ stopOrder)
    (polled : ∀ k, k ∈ pollOrder) (whole : ∀ k j, (polling k).short j = 0)
    (careful : Along Cluster.step Cluster.Careful .start schedule)
    (room : Along Cluster.step Cluster.Roomy
      (Cluster.start.run (schedule ++ closeAll flushOrder stopOrder flushing closing))
      (openAll bootOrder pollOrder opening polling)) :
    let steps := schedule ++ closeAll flushOrder stopOrder flushing closing ++
      openAll bootOrder pollOrder opening polling
    let final := Cluster.start.run steps
    ∀ k s, final.nodes k = some s → ∀ c,
      let total := final.served.countP fun hit => hit.2 = c
      s.hits c = some (Int64.ofNat total) ∨
        (s.hits c = none ∧ c ∉ Cluster.start.issued schedule ∧ total = 0) := by
  have along : Along Cluster.step Cluster.Careful .start
      (schedule ++ closeAll flushOrder stopOrder flushing closing) :=
    Along.append.mpr ⟨careful, Along.of_forall careful_closeAll _⟩
  have accounted := Cluster.along_issued (fun _ _ _ accounted careful => accounted.step careful)
    Cluster.accounted_start along
  have down : ∀ k, (Cluster.start.run
      (schedule ++ closeAll flushOrder stopOrder flushing closing)).nodes k = none := by
    intro k
    rw [Cluster.run, List.foldl_append]
    exact down_closeAll _ (stopped k)
  obtain ⟨snap, log, recounted⟩ := accounted.recounted down
  obtain ⟨⟨m, sound, counted, present, reopens⟩, caught⟩ := recounted.openAll polled whole room
  intro steps final k s running c total
  have joined : final = (Cluster.start.run
      (schedule ++ closeAll flushOrder stopOrder flushing closing)).run
      (openAll bootOrder pollOrder opening polling) := List.foldl_append
  rw [← joined] at reopens caught
  obtain ⟨p, up, reader⟩ := reopens.up k s running
  have settled := reopens.settled sound caught
  have issued : ∀ code ∈ Cluster.start.issued schedule, m.rows code ≠ 0 := by
    intro code member
    refine present code ?_
    rw [List.nil_append, Cluster.issued_append]
    exact List.mem_append_left _ member
  have reports := counted.reports settled up reader.resumes.view issued c
  rw [← reopens.served] at reports
  exact reports

/-- An instance creates a link, its sibling resolves it, and it compacts with its
own hit on the link; both resolve it again. -/
def tidySchedule : List ClusterStep :=
  [.boot 0 (.at 0 []), .boot 1 (.at 1 []),
   .call 0 (.at 2 [drawn]) (.shorten "https://a" none 0), .call 0 (.at 3 []) .flush,
   .call 1 (.at 4 []) (.resolve (genCode 0 drawn)), .call 1 (.at 5 []) .flush,
   .call 0 (.at 6 []) (.resolve (genCode 0 drawn)), .call 0 (.at 7 []) .compact,
   .call 1 (.at 8 []) (.resolve (genCode 0 drawn)), .call 0 (.at 9 []) (.resolve (genCode 0 drawn))]

theorem reopened_hits_conserved_tidy :
    let closing := closeAll [0, 1] (List.finRange 62) (fun _ => .at 10 []) fun _ => .at 11 []
    let opening := openAll [0, 1] (List.finRange 62) (fun _ => .at 12 []) fun _ => .at 13 []
    Along Cluster.step Cluster.Careful .start tidySchedule ∧
    ∃ s, (Cluster.start.run (tidySchedule ++ closing ++ opening)).nodes 1 = some s ∧
      s.hits (genCode 0 drawn) = some 4 := by
  have careful : Along Cluster.step Cluster.Careful .start tidySchedule := by decide +kernel
  have total := reopened_hits_conserved tidySchedule [0, 1] (List.finRange 62) [0, 1]
    (List.finRange 62) (fun _ => .at 10 []) (fun _ => .at 11 []) (fun _ => .at 12 [])
    (fun _ => .at 13 []) List.mem_finRange List.mem_finRange (fun _ _ => rfl) careful
    (by decide +kernel)
  have facts : let final := Cluster.start.run (tidySchedule ++
        closeAll [0, 1] (List.finRange 62) (fun _ => .at 10 []) (fun _ => .at 11 []) ++
        openAll [0, 1] (List.finRange 62) (fun _ => .at 12 []) fun _ => .at 13 [])
      (final.nodes 1).isSome ∧ final.served.countP (fun hit => hit.2 = genCode 0 drawn) = 4 := by
    decide +kernel
  refine ⟨careful, ?_⟩
  dsimp only at total facts ⊢
  generalize tidySchedule ++
    closeAll [0, 1] (List.finRange 62) (fun _ => .at 10 []) (fun _ => .at 11 []) ++
    openAll [0, 1] (List.finRange 62) (fun _ => .at 12 []) (fun _ => .at 13 []) = steps
      at total facts ⊢
  obtain ⟨up, four⟩ := facts
  obtain ⟨s, up⟩ := Option.isSome_iff_exists.mp up
  refine ⟨s, up, ?_⟩
  rcases total 1 s up (genCode 0 drawn) with hits | ⟨-, -, unserved⟩
  · rw [hits, four]
    rfl
  · rw [four] at unserved
    cases unserved

/-- An instance resolves a link of its sibling, flushes the hit and compacts. -/
def hastySchedule : List ClusterStep :=
  [.boot 0 (.at 0 []), .boot 1 (.at 1 []),
   .call 0 (.at 2 [drawn]) (.shorten "https://a" none 0), .call 0 (.at 3 []) .flush,
   .call 1 (.at 4 []) (.resolve (genCode 0 drawn)), .call 1 (.at 5 []) .flush,
   .call 1 (.at 6 []) .compact]

/-- The snapshot holds no link of the sibling, and the log with the hit is cut. -/
theorem compact_drops_foreign_hits :
    ¬ ∀ (schedule : List ClusterStep) (flushOrder stopOrder bootOrder pollOrder : List Inst)
      (flushing closing opening polling : Inst → Env),
      (∀ step ∈ schedule, step.counting = true ∨ ∃ k env, step = .call k env .compact) →
      (∀ k, k ∈ flushOrder) → (∀ k, k ∈ stopOrder) →
      (∀ k, ((Cluster.start.run schedule).nodes k).isSome → k ∈ bootOrder) →
      (∀ k, k ∈ pollOrder) → (∀ k j, (polling k).short j = 0) →
      let final := Cluster.start.run (schedule ++
        closeAll flushOrder stopOrder flushing closing ++
        openAll bootOrder pollOrder opening polling)
      ∀ k s, final.nodes k = some s → ∀ c ∈ Cluster.start.issued schedule,
        s.hits c = some (Int64.ofNat (final.served.countP fun hit => hit.2 = c)) := by
  intro conserved
  have counting : ∀ step ∈ hastySchedule,
      step.counting = true ∨ ∃ k env, step = .call k env .compact := by
    simp [hastySchedule, ClusterStep.counting, Call.counting]
  have reports := conserved hastySchedule (List.finRange 62) (List.finRange 62) [0, 1]
    (List.finRange 62) (fun _ => .at 7 []) (fun _ => .at 8 []) (fun _ => .at 9 [])
    (fun _ => .at 10 []) counting List.mem_finRange List.mem_finRange (by decide +kernel)
    List.mem_finRange fun _ _ => rfl
  have lost : let final := Cluster.start.run (hastySchedule ++
        closeAll (List.finRange 62) (List.finRange 62) (fun _ => .at 7 []) (fun _ => .at 8 []) ++
        openAll [0, 1] (List.finRange 62) (fun _ => .at 9 []) fun _ => .at 10 [])
      genCode 0 drawn ∈ Cluster.start.issued hastySchedule ∧
      ∃ s ∈ final.nodes 0, s.hits (genCode 0 drawn) = some 0 ∧
        final.served.countP (fun hit => hit.2 = genCode 0 drawn) = 1 := by
    decide +kernel
  obtain ⟨given, s, up, none, one⟩ := lost
  have hits := reports 0 s up (genCode 0 drawn) given
  rw [none, one] at hits
  cases hits

end Shrt.Store
