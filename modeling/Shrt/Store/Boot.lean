import Mathlib.Data.List.Basic
import Shrt.Store.Compacted
import Shrt.Store.Convergence
import Shrt.Store.Missed

/-!
# What a store holds when it opens

A store that opens replays its own snapshot and log and the snapshots of the
siblings that have a log.  The logs of the siblings it only registers, to read
them later.  So it holds its own rows, and of a sibling those that its log
leaves as the snapshot has them.
-/

namespace Shrt.Store

open Shrt.Codec Shrt.Lib Shrt.Lib.Framing Shrt.Lib.Runs

/-! ## Files that instances leave -/

/-- Files of complete lines, whose rows and tombstones are of codes that the
instance of the file generates. -/
structure Contents (dir : Dir) (snap log : Inst → List Rec) : Prop where
  snapFile : ∀ k, dir.read (.snap k) = logBytes (snap k)
  logFile : ∀ k, dir.read (.log k) = logBytes (log k)
  okSnap : ∀ k, AllOk (snap k)
  okLog : ∀ k, AllOk (log k)
  owned : ∀ k, ∀ r ∈ snap k ++ log k, ∀ c, (recEvent r).on c ≠ none → ownerOf c = some k

namespace Pool

/-- Generated codes only; snapshots are taken and stores opened at any time. -/
def Rules.generating : Rules where
  acts := Mesh.Generates
  saves _ _ := True
  opens _ _ _ := True

/-- Rows and tombstones are written by the instance that the code names, and
entries name that instance. -/
structure Owned (p : Pool) : Prop where
  own : ∀ k, ∀ r ∈ p.snaps k, r.Own k
  assigns : ∀ k, ∀ r ∈ p.all k, ∀ c, (recEvent r).on c ≠ none → ownerOf c = some k
  named : ∀ k m, p.members k = some m → ∀ c row, m.index.rows c = some row →
    ∃ j, ownerOf c = some j ∧ row.i = j.i32

theorem owned_start : start.Owned :=
  ⟨fun _ _ member => (by cases member), fun _ _ member => (by cases member),
    fun _ _ up => (by cases up)⟩

variable {p p' : Pool}

/-- The instance of an own entry is the one that its code names. -/
theorem Owned.mine (owned : p.Owned) {k : Inst} {m : Member} (up : p.members k = some m)
    {c : String} {ent : Entry} (found : m.index.lookup c = some ent) (mine : ent.i = k.i32) :
    ownerOf c = some k := by
  obtain ⟨j, owner, named⟩ := owned.named k m up c ent.row (by rw [Index.rows, found]; rfl)
  have same : j = k := Inst.i32_injective (named.symm.trans mine)
  rw [owner, same]

/-- An instance assigns only codes that name it. -/
theorem Owned.acts (owned : p.Owned) {k : Inst} {m : Member} (up : p.members k = some m)
    {act : Act} {j : Journal} (step : Journal.Step k (p.journal k m) act j)
    (checked : (p.journal k m).Checked k act) (generated : Mesh.Generates k act) {c : String}
    (assigned : act.assigns = some c) : ownerOf c = some k :=
  generated.assigns step checked (fun _ _ found mine => owned.mine up found mine) assigned

/-- A row that a record of an instance assigns names the instance of its code. -/
theorem named_of_event {k : Inst} {r : Rec} (own : r.Own k)
    (assigns : ∀ c, (recEvent r).on c ≠ none → ownerOf c = some k) {c : String} {row : Row}
    (event : recEvent r = .set c (some row)) : ∃ j, ownerOf c = some j ∧ row.i = j.i32 := by
  refine ⟨k, assigns c ?_, owner_of_event own event⟩
  rw [event, KeyedLog.Event.on, if_pos rfl]
  simp

theorem Owned.own_all (owned : p.Owned) (sound : p.Sound) (k : Inst) : ∀ r ∈ p.all k, r.Own k := by
  intro r member
  rcases List.mem_append.mp member with saved | written
  · exact owned.own k r saved
  · exact sound.own k r written

theorem Owned.act (owned : p.Owned) (sound : p.Sound) {k : Inst} {m : Member} {act : Act}
    {j : Journal} (up : p.members k = some m) (step : Journal.Step k (p.journal k m) act j)
    (checked : (p.journal k m).Checked k act) (runs : act.Runs)
    (generated : Mesh.Generates k act) {served : List (Inst × String)} :
    Owned ⟨Function.update p.members k (some (m.did j)), p.snaps,
      Function.update p.recs k j.recs, served⟩ := by
  obtain ⟨rs, grown, rows, assigned⟩ := step.rows checked runs
  obtain ⟨⟨rs', grown', -, own⟩, -, -⟩ :=
    step.grows runs (sound.plain k m up) (sound.dirtyPlain k m up)
  obtain rfl : rs = rs' := List.append_cancel_left (grown.symm.trans grown')
  have written : ∀ r ∈ rs, ∀ c, (recEvent r).on c ≠ none → ownerOf c = some k :=
    fun r member c event => owned.acts up step checked generated (assigned r member c event)
  refine ⟨owned.own, fun i r member c event => ?_, fun i q running c row found => ?_⟩
  · rcases List.mem_append.mp member with saved | logged
    · exact owned.assigns i r (List.mem_append_left _ saved) c event
    · simp only [Function.update_apply] at logged
      split at logged
      · rename_i same
        rw [grown] at logged
        rw [same]
        rcases List.mem_append.mp logged with old | new
        · exact owned.assigns k r (List.mem_append_right _ old) c event
        · exact written r new c event
      · exact owned.assigns i r (List.mem_append_right _ logged) c event
  · obtain ⟨rfl, rfl⟩ | ⟨-, running⟩ := update_eq_some running
    · rw [show (m.did j).index.rows = _ from rows] at found
      rcases row_of_run found with old | ⟨r, member, event⟩
      · exact owned.named i m up c row old
      · exact named_of_event (own r member) (written r member) event
    · exact owned.named i q running c row found

theorem Owned.save (owned : p.Owned) {k : Inst} {m : Member} (up : p.members k = some m)
    (ord : IterOrder String Entry) :
    Owned { p with
      snaps := Function.update p.snaps k (snapshotOf k (ord.iter m.index))
      recs := Function.update p.recs k [] } := by
  refine ⟨fun i r member => ?_, fun i r member c event => ?_, owned.named⟩
  · simp only [Function.update_apply] at member
    split at member
    · rename_i same
      obtain ⟨ent, -, -, own, -⟩ := mem_snapshotOf member
      exact same ▸ own
    · exact owned.own i r member
  · simp only [all, Function.update_apply] at member
    split at member
    · rename_i same
      subst same
      rw [List.append_nil] at member
      obtain ⟨ent, found, mine, -, -⟩ := mem_snapshotOf member
      have about : c = r.code := by
        by_contra other
        exact event (recEvent_on_other other)
      rw [about]
      exact owned.mine up found mine
    · exact owned.assigns i r member c event

/-- A member that replays records of the pool holds what instances assign. -/
theorem Owned.replayed (owned : p.Owned) (sound : p.Sound) {env : Env} {k : Inst} {v : View}
    {rs : List Rec} (written : ∀ r ∈ rs, ∃ j, r ∈ p.all j)
    (before : ∀ c row, v.index.rows c = some row → ∃ j, ownerOf c = some j ∧ row.i = j.i32)
    {c : String} {row : Row} (found : (replay env k v rs).index.rows c = some row) :
    ∃ j, ownerOf c = some j ∧ row.i = j.i32 := by
  have ok : AllOk rs := by
    intro r member
    obtain ⟨j, here⟩ := written r member
    exact ((sound.okSnaps j).append (sound.okRecs j)) r here
  rw [rows_replay env k ok] at found
  rcases row_of_run found with old | ⟨r, member, event⟩
  · exact before c row old
  · obtain ⟨j, here⟩ := written r member
    exact named_of_event (owned.own_all sound j r here) (owned.assigns j r here) event

theorem Owned.step (owned : p.Owned) (sound : p.Sound) (step : Step Rules.generating p p') :
    p'.Owned := by
  cases step with
  | act up step checked runs allowed => exact owned.act sound up step checked runs allowed
  | save up idle ord allowed => exact owned.save up ord
  | @hear k j m up other env new written =>
      refine ⟨owned.own, owned.assigns, fun i q running c row found => ?_⟩
      obtain ⟨rfl, rfl⟩ | ⟨-, running⟩ := update_eq_some running
      · exact owned.replayed sound (fun r member => ⟨j, List.mem_append_right _ (written r member)⟩)
          (owned.named i m up) found
      · exact owned.named i q running c row found
  | @boot k down env js others opened =>
      refine ⟨owned.own, owned.assigns, fun i q running c row found => ?_⟩
      obtain ⟨rfl, rfl⟩ | ⟨-, running⟩ := update_eq_some running
      · refine owned.replayed sound (fun r member => ?_) (fun c row absent => by cases absent) found
        rcases List.mem_append.mp member with here | saved
        · exact ⟨i, here⟩
        · obtain ⟨j, -, saved⟩ := List.mem_flatMap.mp saved
          exact ⟨j, List.mem_append_left _ saved⟩
      · exact owned.named i q running c row found
  | @stop k m up idle =>
      exact ⟨owned.own, owned.assigns,
        fun i q running => owned.named i q (update_none_eq_some running).2⟩

theorem Owned.steps (owned : p.Owned) (sound : p.Sound) (steps : Steps Rules.generating p p') :
    p'.Owned := by
  suffices both : p'.Sound ∧ p'.Owned from both.2
  induction steps with
  | refl => exact ⟨sound, owned⟩
  | tail _ last ih => exact ⟨ih.1.step last, ih.2.step ih.1 last⟩

end Pool

/-- No alias is asked for. -/
def Call.nameless : Call → Bool
  | .shorten _ (some _) _ => false
  | _ => true

def ClusterStep.nameless : ClusterStep → Bool
  | .call _ _ request => request.nameless
  | _ => true

theorem Call.generates_of_nameless {k : Inst} {call : Call} (nameless : call.nameless = true)
    {act : Act} (acts : call.Acts k act) : Mesh.Generates k act := by
  cases call with
  | compact => exact acts.elim
  | restart => exact acts.elim
  | shorten url aliasCode ttl =>
      cases aliasCode with
      | none => exact Call.generates rfl acts
      | some a => cases nameless
  | shortenMany urls ttl => exact Call.generates rfl acts
  | update code url ttl hasTtl => exact Call.generates rfl acts
  | remove code => exact Call.generates rfl acts
  | resolve code => exact Call.generates rfl acts
  | flush => exact Call.generates rfl acts
  | poll => exact acts.elim

/-- The rules permit every step without an alias. -/
theorem Pool.Rules.generating_permit {c : Cluster} {p : Pool} {step : ClusterStep}
    (nameless : step.nameless = true) :
    Pool.Rules.generating.Permit (fun _ => True) c p step := by
  cases step with
  | boot k env => exact fun _ _ _ => trivial
  | stop k env => trivial
  | call k env request =>
      have acts : ∀ act, request.Acts k act → Mesh.Generates k act := fun act =>
        Call.generates_of_nameless nameless
      cases request with
      | compact => exact ⟨trivial, trivial, fun _ _ _ _ => trivial⟩
      | restart => exact ⟨trivial, fun _ _ => trivial⟩
      | poll => exact acts
      | resolve code => exact acts
      | shorten url aliasCode ttl => exact acts
      | shortenMany urls ttl => exact acts
      | update code url ttl hasTtl => exact acts
      | remove code => exact acts
      | flush => exact acts

/-- A step without aliases that reads what siblings wrote. -/
def Cluster.Plainly (c : Cluster) (step : ClusterStep) : Prop :=
  step.nameless = true ∧ c.Honest step

instance (c : Cluster) (step : ClusterStep) : Decidable (c.Plainly step) :=
  inferInstanceAs (Decidable (_ ∧ _))

/-- The cluster stands for a pool of generated codes. -/
def Cluster.Generating (c : Cluster) : Prop :=
  ∃ p log buf, p.Sound ∧ p.Owned ∧ Pools (fun _ => True) c p log buf

theorem generating_start : Cluster.start.Generating :=
  ⟨_, _, _, Pool.sound_start, Pool.owned_start, pools_start _⟩

theorem Cluster.Generating.step {c : Cluster} (generating : c.Generating) {step : ClusterStep}
    (plainly : c.Plainly step) : (c.step step).Generating := by
  obtain ⟨p, log, buf, sound, owned, pools⟩ := generating
  obtain ⟨p', log', buf', steps, pools'⟩ :=
    pools.step sound (Pool.Rules.generating_permit plainly.1) plainly.2
  exact ⟨p', log', buf', sound.steps steps, owned.steps sound steps, pools'⟩

/-- Whatever instances do with generated codes, at any time the directory holds
complete lines, and rows of own codes. -/
theorem contents_run {schedule : List ClusterStep}
    (along : Along Cluster.step Cluster.Plainly .start schedule) :
    ∃ snap log, Contents (Cluster.start.run schedule).dir snap log := by
  have reached : (Cluster.start.run schedule).Generating :=
    along.invariant (fun _ _ generating plainly => generating.step plainly) generating_start
  obtain ⟨p, log, buf, sound, owned, pools⟩ := reached
  refine ⟨p.snaps, log, pools.snapFile, pools.logFile, sound.okSnaps, pools.okLog sound,
    fun k r member => ?_⟩
  rcases List.mem_append.mp member with saved | written
  · exact owned.assigns k r (List.mem_append_left _ saved)
  · exact owned.assigns k r (List.mem_append_right _ ((pools.log_prefix k).subset written))

/-! ## Opening -/

/-- Records in front that do not assign a code do not matter to it. -/
theorem rowsOf_append_right {first second : List Rec} {c : String}
    (silent : ∀ e ∈ first.map recEvent, e.on c = none) :
    rowsOf (first ++ second) c = rowsOf second c := by
  rw [rowsOf, run_recs_append]
  exact KeyedLog.run_congr (KeyedLog.run_silent silent _) _

/-- Nor do such records at the end. -/
theorem rowsOf_append_left {first second : List Rec} {c : String}
    (silent : ∀ e ∈ second.map recEvent, e.on c = none) :
    rowsOf (first ++ second) c = rowsOf first c := by
  rw [rowsOf, run_recs_append]
  exact KeyedLog.run_silent silent _

/-- The row that the snapshot of an instance has for a code. -/
def Dir.savedRow (dir : Dir) (k : Inst) (c : String) : Option Row :=
  loggedRow c (dir.read (.snap k))

/-- The row that the snapshot and the log of an instance leave for a code. -/
def Dir.liveRow (dir : Dir) (k : Inst) (c : String) : Option Row :=
  loggedRow c (dir.read (.snap k) ++ dir.read (.log k))

namespace Contents

variable {dir : Dir} {snap log : Inst → List Rec} (contents : Contents dir snap log)

include contents

theorem savedRow_eq (k : Inst) (c : String) : dir.savedRow k c = rowsOf (snap k) c := by
  rw [Dir.savedRow, contents.snapFile]
  exact loggedRow_of_lines (contents.okSnap k) (lines_unlines (framed_lines (contents.okSnap k))) c

theorem liveRow_eq (k : Inst) (c : String) : dir.liveRow k c = rowsOf (snap k ++ log k) c := by
  have ok := (contents.okSnap k).append (contents.okLog k)
  rw [Dir.liveRow, contents.snapFile, contents.logFile, ← logBytes_append]
  exact loggedRow_of_lines ok (lines_unlines (framed_lines ok)) c

/-- The files of one instance assign the codes of another nothing. -/
theorem silent {k j : Inst} {c : String} (owner : ownerOf c = some k) (other : j ≠ k)
    {rs : List Rec} (part : rs ⊆ snap j ++ log j) : ∀ e ∈ rs.map recEvent, e.on c = none := by
  intro e member
  obtain ⟨r, listed, rfl⟩ := List.mem_map.mp member
  by_contra assigns
  have named := contents.owned j r (part listed) c assigns
  exact other (Option.some.inj (named.symm.trans owner))

/-- A code with a row in the files of an instance is one that it generates. -/
theorem owner {k : Inst} {c : String} {row : Row} (found : dir.liveRow k c = some row) :
    ownerOf c = some k := by
  rw [contents.liveRow_eq] at found
  rcases row_of_run found with nothing | ⟨r, member, event⟩
  · cases nothing
  · refine contents.owned k r member c ?_
    rw [event, KeyedLog.Event.on, if_pos rfl]
    simp

/-- Of the snapshots of some instances, that of the code's own decides. -/
theorem rowsOf_snaps {k : Inst} {c : String} (owner : ownerOf c = some k) {js : List Inst}
    (once : js.Nodup) :
    rowsOf (js.flatMap snap) c = if k ∈ js then rowsOf (snap k) c else none := by
  induction js with
  | nil => rfl
  | cons j js ih =>
      obtain ⟨absent, once⟩ := List.nodup_cons.mp once
      rw [List.flatMap_cons]
      by_cases same : j = k
      · subst same
        have others : ∀ e ∈ (js.flatMap snap).map recEvent, e.on c = none := by
          intro e member
          obtain ⟨r, listed, rfl⟩ := List.mem_map.mp member
          obtain ⟨i, here, saved⟩ := List.mem_flatMap.mp listed
          have other : i ≠ j := fun same => absent (same ▸ here)
          exact contents.silent owner other (List.subset_append_left _ _) _
            (List.mem_map.mpr ⟨r, saved, rfl⟩)
        rw [rowsOf_append_left others, if_pos List.mem_cons_self]
      · rw [rowsOf_append_right (contents.silent owner same (List.subset_append_left _ _)), ih once]
        simp only [List.mem_cons, Ne.symm same, false_or]

/-- A store that opened holds its own rows, and of a sibling with a log those of
its snapshot. -/
theorem rows_new (env : Env) (inst : Inst) (locked : Bool) {k : Inst} {c : String}
    (owner : ownerOf c = some k) :
    (Inner.new env dir inst locked).1.index.rows c =
      if k = inst then dir.liveRow k c
      else if k ∈ shardFiles dir inst then dir.savedRow k c else none := by
  have okFlat : AllOk ((shardFiles dir inst).flatMap snap) := by
    intro r member
    obtain ⟨j, -, saved⟩ := List.mem_flatMap.mp member
    exact contents.okSnap j r saved
  have okOwn := (contents.okSnap inst).append (contents.okLog inst)
  have index : (Inner.new env dir inst locked).1.index.rows =
      rowsOf (snap inst ++ log inst ++ (shardFiles dir inst).flatMap snap) := by
    have view := view_new env contents.okSnap (contents.okLog inst) contents.snapFile
      (contents.logFile inst) locked
    refine (congrArg (fun v => v.index.rows) view).trans ?_
    exact rows_replay env inst (okOwn.append okFlat) .empty
  rw [index]
  by_cases same : k = inst
  · subst same
    have others : ∀ e ∈ ((shardFiles dir k).flatMap snap).map recEvent, e.on c = none := by
      intro e member
      obtain ⟨r, listed, rfl⟩ := List.mem_map.mp member
      obtain ⟨j, present, saved⟩ := List.mem_flatMap.mp listed
      exact contents.silent owner (mem_shardFiles.mp present).1 (List.subset_append_left _ _) _
        (List.mem_map.mpr ⟨r, saved, rfl⟩)
    rw [rowsOf_append_left others, if_pos rfl, contents.liveRow_eq]
  · have foreign := contents.silent owner (Ne.symm same) (List.Subset.refl _)
    rw [rowsOf_append_right foreign, if_neg same, contents.savedRow_eq]
    exact contents.rowsOf_snaps owner (nodup_shardOrder.filter _)

end Contents

/-- The store holds the row and shows it to whoever asks. -/
structure Inner.Sees (s : Inner) (c : String) (row : Row) : Prop where
  holds : s.index.rows c = some row
  stats : ∃ e : Entry, e.row = row ∧ s.stats c = some (e.link c)
  list : ∀ env limit byHits, s.index.pairs.length ≤ limit →
    ∃ e : Entry, e.row = row ∧ e.link c ∈ (s.list env limit 0 byHits "").1
  filled : s.isEmpty = false

/-- A listing without a query, of a window that is wide enough, is of all links. -/
theorem perm_list (env : Env) {s : Inner} {limit : Nat} {byHits : Bool}
    (wide : s.index.pairs.length ≤ limit) :
    (s.list env limit 0 byHits "").1.Perm
      ((env.indexOrder.iter s.index).map fun ce => ce.2.link ce.1) := by
  have items : ((env.indexOrder.iter s.index).filterMap fun ce =>
      if "" ≠ "" && !contains ce.1 "" && !contains ce.2.u "" then none
      else some (ce.2.link ce.1)) =
      (env.indexOrder.iter s.index).map fun ce => ce.2.link ce.1 := by
    simp
  simp only [Inner.list, items, Nat.zero_min, List.drop_zero]
  rw [List.take_of_length_le]
  · exact List.mergeSort_perm _ _
  · rw [List.length_mergeSort, List.length_map, (env.indexOrder.perm s.index).length_eq]
    exact wide

/-- What the index holds is shown. -/
theorem Inner.sees_iff {s : Inner} {c : String} {row : Row} :
    s.Sees c row ↔ s.index.rows c = some row := by
  refine ⟨Inner.Sees.holds, fun holds => ?_⟩
  obtain ⟨e, found, same⟩ := Option.map_eq_some_iff.mp holds
  refine ⟨holds, ⟨e, same, ?_⟩, fun env limit byHits wide => ⟨e, same, ?_⟩, ?_⟩
  · rw [Inner.stats, found]
    rfl
  · rw [(perm_list env wide).mem_iff]
    exact List.mem_map.mpr ⟨(c, e), env.indexOrder.mem_iter_iff.mpr found, rfl⟩
  · have member : (c, e) ∈ s.index.pairs := Map.mem_pairs_iff.mpr found
    rw [Inner.isEmpty, List.isEmpty_eq_false_iff]
    exact List.ne_nil_of_mem member

/-- The store that opens sees the live rows of its own files and of all siblings
with a log.  Which rows count is given: all of them, or those not yet expired. -/
def Dir.BootSees (dir : Dir) (env : Env) (inst : Inst) (locked : Bool) (counts : Row → Prop) :
    Prop :=
  ∀ k, k = inst ∨ (dir (.log k)).isSome → ∀ c row, counts row → dir.liveRow k c = some row →
    (Inner.new env dir inst locked).1.Sees c row

/-- The live rows of the siblings are in their snapshots as they are. -/
def Dir.Snapshotted (dir : Dir) (inst : Inst) (counts : Row → Prop) : Prop :=
  ∀ k, k ≠ inst → (dir (.log k)).isSome → ∀ c row, counts row → dir.liveRow k c = some row →
    dir.savedRow k c = some row

/-- A store that opens sees all links exactly if the logs of the siblings add no
live row to their snapshots. -/
theorem bootSees_iff {dir : Dir} {snap log : Inst → List Rec} (contents : Contents dir snap log)
    (env : Env) (inst : Inst) (locked : Bool) (counts : Row → Prop) :
    dir.BootSees env inst locked counts ↔ dir.Snapshotted inst counts := by
  constructor
  · intro sees k other present c row counted live
    have held := (sees k (Or.inr present) c row counted live).holds
    rw [contents.rows_new env inst locked (contents.owner live), if_neg other,
      if_pos (mem_shardFiles.mpr ⟨other, present⟩)] at held
    exact held
  · intro saved k reached c row counted live
    rw [Inner.sees_iff, contents.rows_new env inst locked (contents.owner live)]
    by_cases same : k = inst
    · rw [if_pos same]
      exact live
    · have present := reached.resolve_left same
      rw [if_neg same, if_pos (mem_shardFiles.mpr ⟨same, present⟩)]
      exact saved k same present c row counted live

/-- An instance creates a link and writes it to its log. -/
def lone : List ClusterStep :=
  [.boot 1 (.at 0 []), .call 1 (.at 1 [Vector.replicate 7 0]) (.shorten "u" none 0),
    .call 1 (.at 2 []) .flush]

/-- A link that was compacted is seen by a sibling that opens. -/
theorem bootSees_iff_compacted :
    let dir := (Cluster.start.run (lone ++ [.call 1 (.at 3 []) .compact])).dir
    dir.liveRow 1 "10000000" = some ⟨"u", 1, 0, 1⟩ ∧
      dir.BootSees (.at 4 []) 0 false fun _ => True := by
  intro dir
  have along : Along Cluster.step Cluster.Plainly .start
      (lone ++ [.call 1 (.at 3 []) .compact]) := by decide +kernel
  obtain ⟨snap, log, contents⟩ := contents_run along
  refine ⟨by decide +kernel, (bootSees_iff contents (.at 4 []) 0 false _).mpr ?_⟩
  intro k other present c row _ live
  have sibling : k ∈ shardFiles dir 0 := mem_shardFiles.mpr ⟨other, present⟩
  have only : shardFiles dir 0 = [1] := by decide +kernel
  rw [only, List.mem_singleton] at sibling
  subst sibling
  have drained : dir.read (.log 1) = [] := by decide +kernel
  rw [Dir.liveRow, drained, List.append_nil] at live
  exact live

/-- A link that is in the log only is not. -/
theorem logged_link_unseen :
    let dir := (Cluster.start.run lone).dir
    (∃ snap log, Contents dir snap log) ∧ (dir (.log 1)).isSome ∧
      dir.liveRow 1 "10000000" = some ⟨"u", 1, 0, 1⟩ ∧
      (Inner.new (.at 4 []) dir 0 false).1.stats "10000000" = none ∧
      (Inner.new (.at 4 []) dir 0 false).1.isEmpty = true ∧
      ¬ dir.BootSees (.at 4 []) 0 false fun _ => True := by
  intro dir
  have present : (dir (.log 1)).isSome := by decide +kernel
  have live : dir.liveRow 1 "10000000" = some ⟨"u", 1, 0, 1⟩ := by decide +kernel
  have empty : (Inner.new (.at 4 []) dir 0 false).1.isEmpty = true := by decide +kernel
  refine ⟨contents_run (by decide +kernel), present, live, by decide +kernel, empty, fun sees => ?_⟩
  have filled := (sees 1 (Or.inr present) _ _ trivial live).filled
  rw [empty] at filled
  cases filled

end Shrt.Store
