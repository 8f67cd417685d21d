import Mathlib.Data.List.Basic
import Shrt.Store.Follower
import Shrt.Store.Settle

/-!
# Instances that share a directory agree on the rows

A generated code starts with the alphabet byte of the instance that made it,
and only that instance writes rows and tombstones of it.  So the row an index
holds for a code is what the records of one instance assign to it, as far as
they are known, in whatever order the logs were read.
-/

namespace Shrt.Store

open Shrt.Codec Shrt.Lib Shrt.Lib.Runs

def Act.assigns : Act → Option String
  | .create c _ _ _ | .amend c _ _ | .drop c => some c
  | _ => none

/-- What a checked act of a running instance does to the rows. -/
theorem Journal.Step.rows {inst : Inst} {j j' : Journal} {act : Act}
    (step : Journal.Step inst j act j') (checked : j.Checked inst act) (runs : act.Runs) :
    ∃ rs, j'.recs = j.recs ++ rs ∧
      j'.index.rows = KeyedLog.run j.index.rows (rs.map recEvent) ∧
      ∀ r ∈ rs, ∀ c, (recEvent r).on c ≠ none → act.assigns = some c := by
  have assigned : ∀ {k c : String} {row : Option Row},
      (KeyedLog.Event.set k row).on c ≠ none → some k = some c := by
    intro k c row assigns
    rw [KeyedLog.Event.on] at assigns
    split at assigns
    · rename_i same
      rw [same]
    · exact absurd rfl assigns
  cases step with
  | create plain fresh url now exp =>
      refine ⟨_, rfl, ?_, ?_⟩
      · rw [rows_insert]
        simp [KeyedLog.run, KeyedLog.step, recEvent, Entry.row, inst.i64_toInt32]
      · intro r member c assigns
        cases List.mem_singleton.mp member
        exact assigned assigns
  | @amend c ent found url exp =>
      refine ⟨_, rfl, ?_, ?_⟩
      · rw [rows_insert]
        simp [KeyedLog.run, KeyedLog.step, recEvent, Entry.row, inst.i64_toInt32,
          checked ent found]
      · intro r member c assigns
        cases List.mem_singleton.mp member
        exact assigned assigns
  | drop found =>
      refine ⟨_, rfl, rows_erase _ _, ?_⟩
      intro r member c assigns
      cases List.mem_singleton.mp member
      exact assigned assigns
  | hit found =>
      refine ⟨[], by simp, rows_counted found _ _, ?_⟩
      intro r member
      cases member
  | drain ord =>
      refine ⟨_, rfl, (run_hitRecs inst _ _).symm, ?_⟩
      intro r member c assigns
      obtain ⟨kd, -, rfl⟩ := List.mem_map.mp member
      exact absurd rfl assigns
  | snapshot ord idle => exact runs.elim
  | restart env idle => exact runs.elim

/-- Rows that come from the records of one instance name it as owner. -/
theorem owner_rowsOf {k : Inst} {rs : List Rec} (own : ∀ r ∈ rs, r.Own k) {c : String} {row : Row}
    (found : rowsOf rs c = some row) : row.i = k.i32 := by
  rcases row_of_run found with nothing | ⟨r, member, event⟩
  · cases nothing
  · exact owner_of_event (own r member) event

/-- Further records of one instance, which assign only codes that name it. -/
theorem run_owned {k : Inst} {rs : List Rec}
    (owned : ∀ r ∈ rs, ∀ c, (recEvent r).on c ≠ none → ownerOf c = some k)
    {rows : KeyedLog.State String Row} {known : Inst → List Rec}
    (before : ∀ c, rows c = (ownerOf c).bind fun j => rowsOf (known j) c) (c : String) :
    KeyedLog.run rows (rs.map recEvent) c =
      (ownerOf c).bind fun j => rowsOf (Function.update known k (known k ++ rs) j) c := by
  by_cases mine : ownerOf c = some k
  · rw [mine, Option.bind_some, Function.update_self, rowsOf, run_recs_append]
    apply KeyedLog.run_congr
    rw [before, mine]
    rfl
  · have silent : ∀ e ∈ rs.map recEvent, e.on c = none := by
      intro e member
      obtain ⟨r, listed, rfl⟩ := List.mem_map.mp member
      by_contra assigns
      exact mine (owned r listed c assigns)
    rw [KeyedLog.run_silent silent, before]
    cases owner : ownerOf c with
    | none => rfl
    | some j =>
        have other : j ≠ k := fun same => mine (same ▸ owner)
        simp only [Option.bind_some, Function.update_of_ne other]

namespace Mesh

def Generates (k : Inst) : Act → Prop
  | .create c _ _ _ => ownerOf c = some k
  | _ => True

/-- An instance whose own entries are of codes that name it assigns such codes. -/
theorem Generates.assigns {k : Inst} {act : Act} (generated : Generates k act) {j j' : Journal}
    (step : Journal.Step k j act j') (checked : j.Checked k act)
    (mine : ∀ c ent, j.index.lookup c = some ent → ent.i = k.i32 → ownerOf c = some k) {c : String}
    (assigned : act.assigns = some c) : ownerOf c = some k := by
  cases step with
  | create plain fresh url now exp =>
      cases assigned
      exact generated
  | @amend c ent found url exp =>
      cases assigned
      exact mine c ent found (checked ent found)
  | @drop c ent found =>
      cases assigned
      exact mine c ent found (checked ent found)
  | hit found => cases assigned
  | drain ord => cases assigned
  | snapshot ord idle => cases assigned
  | restart env idle => cases assigned

/-- The records of each instance that the instance `k` knows. -/
def known (m : Mesh) (k : Inst) (p : Peer) : Inst → List Rec :=
  Function.update p.part k (m.recs k)

/-- Rows and tombstones are written by the instance that the code names, and
every index holds what the known records of that instance assign. -/
structure Aligned (m : Mesh) : Prop where
  owned : ∀ k, ∀ r ∈ m.recs k, ∀ c, (recEvent r).on c ≠ none → ownerOf c = some k
  rows : ∀ k p, m.peers k = some p → ∀ c,
    p.index.rows c = (ownerOf c).bind fun j => rowsOf (m.known k p j) c

theorem aligned_start : start.Aligned :=
  ⟨fun _ _ member => (by cases member), fun _ _ up => (by cases up)⟩

/-- The records that an instance knows were written. -/
theorem Sound.known_prefix {m : Mesh} (sound : m.Sound) {k : Inst} {p : Peer}
    (up : m.peers k = some p) (j : Inst) : m.known k p j <+: m.recs j := by
  rw [known, Function.update_apply]
  split
  · rename_i same
    rw [same]
  · exact sound.parts k p up j

/-- The entry of an index names the instance that the code names. -/
theorem Aligned.owner {m : Mesh} (aligned : m.Aligned) (sound : m.Sound) {k : Inst} {p : Peer}
    (up : m.peers k = some p) {c : String} {row : Row} (found : p.index.rows c = some row) :
    ∃ j, ownerOf c = some j ∧ row.i = j.i32 := by
  rw [aligned.rows k p up, Option.bind_eq_some_iff] at found
  obtain ⟨j, owner, found⟩ := found
  refine ⟨j, owner, owner_rowsOf (fun r member => ?_) found⟩
  exact sound.own j r ((sound.known_prefix up j).subset member)

/-- An instance assigns only codes that name it. -/
theorem Aligned.assigns {m : Mesh} (aligned : m.Aligned) (sound : m.Sound) {k : Inst} {p : Peer}
    (up : m.peers k = some p) {act : Act} {j : Journal} (step : Journal.Step k (m.journal k p) act j)
    (checked : (m.journal k p).Checked k act) (generated : Generates k act) {c : String}
    (assigned : act.assigns = some c) : ownerOf c = some k := by
  refine generated.assigns step checked (fun c ent found mine => ?_) assigned
  obtain ⟨n, owner, named⟩ := @Aligned.owner m aligned sound k p up c ent.row
    (by rw [Index.rows]; exact congrArg (Option.map Entry.row) found)
  have same : n = k := Inst.i32_injective (named.symm.trans mine)
  rw [owner, same]

theorem Aligned.step {m m' : Mesh} {roomy : Prop} (aligned : m.Aligned) (sound : m.Sound)
    (step : Step Generates roomy m m') : m'.Aligned := by
  cases step with
  | @act k p act j up step checked runs generated =>
      obtain ⟨rs, grown, rows, assigns⟩ := step.rows checked runs
      have owned : ∀ r ∈ rs, ∀ c, (recEvent r).on c ≠ none → ownerOf c = some k :=
        fun r member c assigned =>
          aligned.assigns sound up step checked generated (assigns r member c assigned)
      constructor
      · intro i r member
        simp only [Function.update_apply] at member
        split at member
        · rename_i same
          rw [grown] at member
          rw [same]
          rcases List.mem_append.mp member with old | new
          · exact aligned.owned k r old
          · exact owned r new
        · exact aligned.owned i r member
      · intro i q running c
        obtain ⟨rfl, rfl⟩ | ⟨other, running⟩ := update_eq_some running
        · have next := run_owned owned (aligned.rows i p up) c
          rw [show KeyedLog.run p.index.rows (rs.map recEvent) = j.index.rows from rows.symm] at next
          simpa [known, Peer.did, grown, journal] using next
        · have before := aligned.rows i q running c
          simpa [known, other] using before
  | @hear k j p up other env new ahead room =>
      have within : new ⊆ m.recs j :=
        fun r member => ahead.subset (List.mem_append_right _ member)
      refine ⟨aligned.owned, fun i q running c => ?_⟩
      obtain ⟨rfl, rfl⟩ | ⟨-, running⟩ := update_eq_some running
      · have next := run_owned (fun r member => aligned.owned j r (within member))
          (aligned.rows i p up) c
        rw [Peer.hear, rows_replay env i fun r member => sound.allOk j r (within member)]
        simpa [known, other, Function.update_comm other, Peer.view] using next
      · exact aligned.rows i q running c
  | @boot k down env room =>
      refine ⟨aligned.owned, fun i q running c => ?_⟩
      obtain ⟨rfl, rfl⟩ | ⟨-, running⟩ := update_eq_some running
      · have nothing : ∀ c, (none : Option Row) = (ownerOf c).bind fun _ => rowsOf [] c :=
          fun c => by cases ownerOf c <;> rfl
        have next := run_owned (aligned.owned i) nothing c
        rw [Peer.booted, rows_replay env i (sound.allOk i)]
        exact next
      · exact aligned.rows i q running c
  | @stop k p up idle =>
      exact ⟨aligned.owned, fun i q running => aligned.rows i q (update_none_eq_some running).2⟩

theorem aligned_steps {m : Mesh} {roomy : Prop} (steps : Steps Generates roomy .start m) :
    m.Aligned := by
  suffices both : m.Sound ∧ m.Aligned from both.2
  induction steps with
  | refl => exact ⟨sound_start, aligned_start⟩
  | tail _ last ih => exact ⟨ih.1.step last, ih.2.step ih.1 last⟩

/-- In a settled mesh every instance knows all records. -/
theorem Settled.known {m : Mesh} (settled : m.Settled) {k : Inst} {p : Peer}
    (up : m.peers k = some p) : m.known k p = m.recs := by
  funext j
  rw [Mesh.known, Function.update_apply]
  split
  · rename_i same
    rw [same]
  · rename_i other
    exact settled.caught k p up j other

theorem Aligned.settled {m : Mesh} (aligned : m.Aligned) (settled : m.Settled) {k : Inst} {p : Peer}
    (up : m.peers k = some p) (c : String) :
    p.index.rows c = (ownerOf c).bind fun j => rowsOf (m.recs j) c := by
  rw [aligned.rows k p up, settled.known up]

end Mesh

/-- Calls with generated codes that neither compact nor reopen the store. -/
def Call.generated : Call → Bool
  | .shorten _ (some _) _ | .compact | .restart => false
  | _ => true

def ClusterStep.generated : ClusterStep → Bool
  | .call _ _ request => request.generated
  | _ => true

theorem Call.generates {k : Inst} {call : Call} (generated : call.generated = true) {act : Act}
    (acts : call.Acts k act) : Mesh.Generates k act := by
  cases act with
  | create c url now exp =>
      cases call with
      | shorten url aliasCode ttl =>
          cases aliasCode with
          | none => exact acts
          | some a => cases generated
      | shortenMany urls ttl => exact acts
      | update code url ttl hasTtl => exact acts.elim
      | remove code => exact acts.elim
      | resolve code => exact acts.elim
      | flush => exact acts.elim
      | compact => exact acts.elim
      | poll => exact acts.elim
      | restart => exact acts.elim
  | amend c url exp => trivial
  | drop c => trivial
  | hit c => trivial
  | drain ord => trivial
  | snapshot ord => trivial
  | restart env => trivial

theorem ClusterStep.allowed_generates {step : ClusterStep} (generated : step.generated = true) :
    step.Allowed Mesh.Generates := by
  cases step with
  | boot k env => trivial
  | stop k env => trivial
  | call k env request =>
      refine ⟨?_, fun act acts => Call.generates generated acts⟩
      cases request <;> first | rfl | cases generated

/-- After any schedule with generated codes and without compaction, once all
instances have flushed and polled, they agree on every row, and the row names
the instance that its code names. -/
theorem rows_converge (schedule : List ClusterStep) (flushOrder pollOrder : List Inst)
    (flushing polling : Inst → Env) (generated : ∀ step ∈ schedule, step.generated = true)
    (flushed : ∀ k, k ∈ flushOrder) (polled : ∀ k, k ∈ pollOrder)
    (whole : ∀ k j, (polling k).short j = 0) :
    let final := Cluster.start.run (schedule ++ settle flushOrder pollOrder flushing polling)
    ∀ k s, final.nodes k = some s → ∀ c,
      (∀ i t, final.nodes i = some t → s.index.rows c = t.index.rows c) ∧
      ∀ row, s.index.rows c = some row → ∃ owner, ownerOf c = some owner ∧ row.i = owner.i32 := by
  have allowed : ∀ step ∈ schedule, step.Allowed Mesh.Generates := fun step member =>
    ClusterStep.allowed_generates (generated step member)
  have along : Along Cluster.step
      (fun c step => step.Allowed Mesh.Generates ∧ (False → c.Roomy step)) .start
      (schedule ++ settle flushOrder pollOrder flushing polling) := by
    refine Along.of_forall (fun step member _ => ⟨?_, False.elim⟩) _
    rcases List.mem_append.mp member with before | last
    · exact allowed step before
    · exact allowed_settle (fun _ _ => trivial) step last
  obtain ⟨m, log, buf, steps, sound, sims⟩ := simulated_run along
  have settled := settled_of_sims (fun _ _ => trivial) flushed polled whole allowed sound sims
  have aligned := Mesh.aligned_steps steps
  intro final k s running c
  obtain ⟨p, up, node⟩ := sims.up k s running
  have index : s.index = p.index := congrArg View.index node.view
  rw [index]
  refine ⟨fun i t present => ?_, fun row found => aligned.owner sound up found⟩
  obtain ⟨q, up', node'⟩ := sims.up i t present
  have index' : t.index = q.index := congrArg View.index node'.view
  rw [index', aligned.settled settled up, aligned.settled settled up']

/-- Two instances, the second started later; a link is read in two pieces,
changed by its owner and refused to the other. -/
def sharedSchedule : List ClusterStep :=
  [.boot 0 (.at 0 []), .call 0 (.at 1 [drawn]) (.shorten "https://a" none 0),
   .call 0 (.at 2 []) .flush, .boot 1 (.at 3 []),
   .call 1 { Env.at 4 [] with short := fun _ => 5 } .poll,
   .call 1 (.at 5 []) (.resolve (genCode 0 drawn)),
   .call 1 (.at 6 [drawn]) (.shorten "https://b" none 0),
   .call 1 (.at 7 []) (.remove (genCode 0 drawn)),
   .call 0 (.at 8 []) (.update (genCode 0 drawn) "https://c" 0 false)]

theorem rows_converge_shared :
    let final := Cluster.start.run (sharedSchedule ++
      settle (List.finRange 62) (List.finRange 62) (fun _ => .at 9 []) fun _ => .at 10 [])
    ∃ s t, final.nodes 0 = some s ∧ final.nodes 1 = some t ∧
      t.index.rows (genCode 0 drawn) = some ⟨"https://c", 1, 0, 0⟩ ∧
      ∀ c, s.index.rows c = t.index.rows c := by
  have agree := rows_converge sharedSchedule (List.finRange 62) (List.finRange 62)
    (fun _ => .at 9 []) (fun _ => .at 10 []) (by decide +kernel) List.mem_finRange
    List.mem_finRange fun _ _ => rfl
  have facts : let final := Cluster.start.run (sharedSchedule ++
        settle (List.finRange 62) (List.finRange 62) (fun _ => .at 9 []) fun _ => .at 10 [])
      (final.nodes 0).isSome ∧ (final.nodes 1).isSome ∧
      ∀ t ∈ final.nodes 1,
        t.index.rows (genCode 0 drawn) = some ⟨"https://c", 1, 0, 0⟩ := by
    decide +kernel
  dsimp only at agree facts ⊢
  generalize Cluster.start.run (sharedSchedule ++ settle (List.finRange 62) (List.finRange 62)
    (fun _ => .at 9 []) fun _ => .at 10 []) = final at agree facts ⊢
  obtain ⟨first, second, row⟩ := facts
  obtain ⟨s, first⟩ := Option.isSome_iff_exists.mp first
  obtain ⟨t, second⟩ := Option.isSome_iff_exists.mp second
  exact ⟨s, t, first, second, row t second, fun c => (agree 0 s first c).1 1 t second⟩

end Shrt.Store
