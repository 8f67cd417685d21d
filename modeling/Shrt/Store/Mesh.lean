import Mathlib.Data.List.Basic
import Mathlib.Logic.Relation
import Shrt.Store.Cluster

/-!
# A mesh of journals

Without compaction, instances that share a directory are a mesh: each writes a
list of records that only grows, keeps an index and a map of unlogged hits, and
has read a first part of every sibling's list.  This module states the mesh and
shows that every schedule of the cluster is a run of it.
-/

namespace Shrt.Store

open Shrt.Codec Shrt.Lib Shrt.Lib.Framing

/-- What an instance has in memory, and what it has read of each sibling. -/
structure Peer where
  index : Index
  dirty : Dirty
  stray : StrayMap
  part : Inst → List Rec

def Peer.view (p : Peer) : View :=
  ⟨p.index, p.stray⟩

def Peer.did (p : Peer) (j : Journal) : Peer :=
  { p with index := j.index, dirty := j.dirty }

def Peer.hear (env : Env) (k : Inst) (p : Peer) (j : Inst) (new : List Rec) : Peer :=
  { p with
    index := (replay env k p.view new).index
    stray := (replay env k p.view new).stray
    part := Function.update p.part j (p.part j ++ new) }

def Peer.booted (env : Env) (k : Inst) (recs : List Rec) : Peer where
  index := (replay env k .empty recs).index
  dirty := ∅
  stray := (replay env k .empty recs).stray
  part _ := []

structure Mesh where
  peers : Inst → Option Peer
  recs : Inst → List Rec
  served : List (Inst × String)

/-- The stray map stays below its limit while these operations are folded. -/
def View.Roomy (env : Env) (inst : Inst) : View → List Op → Prop
  | v, [] => v.stray.entries.length < MAX_STRAY_HITS
  | v, o :: ops => v.stray.entries.length < MAX_STRAY_HITS ∧ Roomy env inst (apply env inst v o) ops

instance View.Roomy.decidable (env : Env) (inst : Inst) :
    ∀ (v : View) (ops : List Op), Decidable (v.Roomy env inst ops)
  | v, [] => inferInstanceAs (Decidable (v.stray.entries.length < MAX_STRAY_HITS))
  | v, o :: ops =>
      have := View.Roomy.decidable env inst (apply env inst v o) ops
      inferInstanceAs (Decidable (v.stray.entries.length < MAX_STRAY_HITS ∧
        (apply env inst v o).Roomy env inst ops))

theorem View.Roomy.append {env : Env} {inst : Inst} {v : View} {first second : List Op} :
    v.Roomy env inst (first ++ second) ↔
      v.Roomy env inst first ∧ (first.foldl (apply env inst) v).Roomy env inst second := by
  induction first generalizing v with
  | nil =>
      constructor
      · intro room
        refine ⟨?_, room⟩
        cases second with
        | nil => exact room
        | cons o ops => exact room.1
      · exact And.right
  | cons o ops ih => simp [Roomy, ih, and_assoc]

/-- An instance that runs after one of them changed. -/
theorem update_eq_some {α : Type} {slots : Inst → Option α} {k i : Inst} {p q : α}
    (running : Function.update slots k (some p) i = some q) :
    (i = k ∧ q = p) ∨ (i ≠ k ∧ slots i = some q) := by
  rw [Function.update_apply] at running
  split at running
  · rename_i same
    cases running
    exact Or.inl ⟨same, rfl⟩
  · rename_i other
    exact Or.inr ⟨other, running⟩

/-- An instance that runs after one of them stopped. -/
theorem update_none_eq_some {α : Type} {slots : Inst → Option α} {k i : Inst} {q : α}
    (running : Function.update slots k none i = some q) : i ≠ k ∧ slots i = some q := by
  rw [Function.update_apply] at running
  split at running
  · cases running
  · rename_i other
    exact ⟨other, running⟩

/-- Records that one instance appends to its own. -/
theorem grown_records {recs : Inst → List Rec} (ok : ∀ k, AllOk (recs k))
    (own : ∀ k, ∀ r ∈ recs k, r.Own k) {k : Inst} {rs : List Rec} (okNew : AllOk rs)
    (ownNew : ∀ r ∈ rs, r.Own k) :
    (∀ i, AllOk (Function.update recs k (recs k ++ rs) i)) ∧
      ∀ i, ∀ r ∈ Function.update recs k (recs k ++ rs) i, r.Own i := by
  constructor
  · intro i
    rw [Function.update_apply]
    split
    · exact (ok k).append okNew
    · exact ok i
  · intro i r member
    rw [Function.update_apply] at member
    split at member
    · rename_i same
      rw [same]
      exact (List.mem_append.mp member).elim (own k r) (ownNew r)
    · exact own i r member

def Act.Runs : Act → Prop
  | .snapshot _ | .restart _ => False
  | _ => True

def Act.counts (k : Inst) : Act → List (Inst × String)
  | .hit c => [(k, c)]
  | _ => []

theorem Act.eq_of_mem_counts {k i : Inst} {act : Act} {c : String}
    (member : (i, c) ∈ act.counts k) : i = k := by
  cases act with
  | hit c' => exact congrArg Prod.fst (List.mem_singleton.mp member)
  | create c' url now exp => cases member
  | amend c' url exp => cases member
  | drop c' => cases member
  | drain ord => cases member
  | snapshot ord => cases member
  | restart env => cases member

namespace Mesh

def start : Mesh :=
  ⟨fun _ => none, fun _ => [], []⟩

def journal (m : Mesh) (k : Inst) (p : Peer) : Journal :=
  ⟨p.index, p.dirty, m.recs k⟩

/-- What a mesh does with acts of the allowed kinds.  When it is `roomy`, no
stray map reaches its limit. -/
inductive Step (allow : Inst → Act → Prop) (roomy : Prop) (m : Mesh) : Mesh → Prop where
  | act {k : Inst} {p : Peer} {act : Act} {j : Journal} (up : m.peers k = some p)
      (step : Journal.Step k (m.journal k p) act j) (checked : (m.journal k p).Checked k act)
      (runs : act.Runs) (allowed : allow k act) :
      Step allow roomy m
        ⟨Function.update m.peers k (some (p.did j)), Function.update m.recs k j.recs,
          m.served ++ act.counts k⟩
  | hear {k j : Inst} {p : Peer} (up : m.peers k = some p) (other : j ≠ k) (env : Env)
      {new : List Rec} (ahead : p.part j ++ new <+: m.recs j)
      (room : roomy → View.Roomy env k p.view (new.map Rec.op)) :
      Step allow roomy m
        { m with peers := Function.update m.peers k (some (p.hear env k j new)) }
  | boot {k : Inst} (down : m.peers k = none) (env : Env)
      (room : roomy → View.Roomy env k .empty ((m.recs k).map Rec.op)) :
      Step allow roomy m
        { m with peers := Function.update m.peers k (some (.booted env k (m.recs k))) }
  | stop {k : Inst} {p : Peer} (up : m.peers k = some p) (idle : p.dirty = ∅) :
      Step allow roomy m { m with peers := Function.update m.peers k none }

abbrev Steps (allow : Inst → Act → Prop) (roomy : Prop) : Mesh → Mesh → Prop :=
  Relation.ReflTransGen (Step allow roomy)

/-- The records are well formed and carry the id of their writer; indexes and
dirty maps hold plain codes. -/
structure Sound (m : Mesh) : Prop where
  allOk : ∀ k, AllOk (m.recs k)
  own : ∀ k, ∀ r ∈ m.recs k, r.Own k
  plain : ∀ k p, m.peers k = some p → ∀ c ent, p.index.lookup c = some ent → Plain c
  dirtyPlain : ∀ k p, m.peers k = some p → ∀ c d, p.dirty.lookup c = some d → Plain c
  parts : ∀ k p, m.peers k = some p → ∀ j, p.part j <+: m.recs j

theorem sound_start : start.Sound :=
  ⟨fun _ => allOk_nil, fun _ _ member => (by cases member), fun _ _ up => (by cases up),
    fun _ _ up => (by cases up), fun _ _ up => (by cases up)⟩

end Mesh

/-- Folding well-formed records keeps the codes of an index plain. -/
theorem plain_replay (env : Env) (inst : Inst) {rs : List Rec} (ok : AllOk rs) {v : View}
    (plain : ∀ c ent, v.index.lookup c = some ent → Plain c) :
    ∀ c ent, (replay env inst v rs).index.lookup c = some ent → Plain c := by
  induction rs generalizing v with
  | nil => exact plain
  | cons r rs ih =>
      have okHead : r.Ok := ok r List.mem_cons_self
      refine ih (fun s hs => ok s (List.mem_cons_of_mem _ hs)) fun c ent found => ?_
      by_cases same : c = r.code
      · rw [same]
        exact okHead
      · rw [lookup_apply_other env inst okHead same] at found
        exact plain c ent found

/-- What an act of a running instance adds to the records. -/
theorem Journal.Step.grows {inst : Inst} {j j' : Journal} {act : Act}
    (step : Journal.Step inst j act j') (runs : act.Runs)
    (plain : ∀ c ent, j.index.lookup c = some ent → Plain c)
    (dirtyPlain : ∀ c d, j.dirty.lookup c = some d → Plain c) :
    (∃ rs, j'.recs = j.recs ++ rs ∧ AllOk rs ∧ ∀ r ∈ rs, r.Own inst) ∧
      (∀ c ent, j'.index.lookup c = some ent → Plain c) ∧
      ∀ c d, j'.dirty.lookup c = some d → Plain c := by
  have one : ∀ r : Rec, r.Ok → r.Own inst →
      ∃ rs, j.recs ++ [r] = j.recs ++ rs ∧ AllOk rs ∧ ∀ r ∈ rs, r.Own inst := by
    intro r ok own
    refine ⟨[r], rfl, ?_, ?_⟩
    · simpa [AllOk] using ok
    · simpa using own
  have inserted : ∀ (c : String) (ent : Entry), Plain c →
      ∀ k e, (j.index.insert c ent).lookup k = some e → Plain k := by
    intro c ent new k e found
    rw [Map.lookup_insert_eq] at found
    split at found
    · rename_i same
      exact same ▸ new
    · exact plain k e found
  cases step with
  | @create c new fresh url now exp =>
      exact ⟨one _ new rfl, inserted c _ new, dirtyPlain⟩
  | @amend c ent found url exp =>
      exact ⟨one _ (plain c ent found) rfl, inserted c _ (plain c ent found), dirtyPlain⟩
  | @drop c ent found =>
      refine ⟨one _ (plain c ent found) trivial, fun k e kept => ?_, dirtyPlain⟩
      rw [Map.lookup_erase_eq] at kept
      split at kept
      · cases kept
      · exact plain k e kept
  | @hit c ent found =>
      refine ⟨⟨[], by simp, allOk_nil, by simp⟩, inserted c _ (plain c ent found),
        fun k d stored => ?_⟩
      rw [Map.lookup_insert_eq] at stored
      split at stored
      · rename_i same
        exact same ▸ plain c ent found
      · exact dirtyPlain k d stored
  | drain ord =>
      refine ⟨⟨hitRecs inst (ord.iter j.dirty), rfl, ?_, ?_⟩, plain, fun k d stored => by
        cases stored⟩
      · intro r member
        obtain ⟨⟨k, d⟩, listed, rfl⟩ := List.mem_map.mp member
        exact dirtyPlain k d (ord.mem_iter_iff.mp listed)
      · intro r member
        obtain ⟨kd, -, rfl⟩ := List.mem_map.mp member
        exact rfl
  | snapshot ord idle => exact runs.elim
  | restart env idle => exact runs.elim

namespace Mesh

theorem Sound.step {allow : Inst → Act → Prop} {roomy : Prop} {m m' : Mesh} (sound : m.Sound)
    (step : Step allow roomy m m') : m'.Sound := by
  cases step with
  | @act k p act j up step checked runs allowed =>
      obtain ⟨⟨rs, grown, ok, own⟩, plain, dirtyPlain⟩ :=
        step.grows runs (sound.plain k p up) (sound.dirtyPlain k p up)
      have recs : ∀ i, m.recs i <+: Function.update m.recs k j.recs i := by
        intro i
        rw [Function.update_apply]
        split
        · rename_i same
          rw [same, grown]
          exact List.prefix_append _ _
        · exact List.prefix_rfl
      obtain ⟨okAll, ownAll⟩ := grown_records sound.allOk sound.own ok own
      have whole : j.recs = m.recs k ++ rs := grown
      rw [← whole] at okAll ownAll
      refine ⟨okAll, ownAll, ?_, ?_, ?_⟩
      · intro i q running
        obtain ⟨rfl, rfl⟩ | ⟨-, running⟩ := update_eq_some running
        · exact plain
        · exact sound.plain i q running
      · intro i q running
        obtain ⟨rfl, rfl⟩ | ⟨-, running⟩ := update_eq_some running
        · exact dirtyPlain
        · exact sound.dirtyPlain i q running
      · intro i q running n
        obtain ⟨rfl, rfl⟩ | ⟨-, running⟩ := update_eq_some running
        · exact (sound.parts i p up n).trans (recs n)
        · exact (sound.parts i q running n).trans (recs n)
  | @hear k j p up other env new ahead room =>
      have ok : AllOk new := fun r hr =>
        sound.allOk j r (ahead.subset (List.mem_append_right _ hr))
      refine ⟨sound.allOk, sound.own, ?_, ?_, ?_⟩
      · intro i q running
        obtain ⟨rfl, rfl⟩ | ⟨-, running⟩ := update_eq_some running
        · exact plain_replay env i ok (sound.plain i p up)
        · exact sound.plain i q running
      · intro i q running
        obtain ⟨rfl, rfl⟩ | ⟨-, running⟩ := update_eq_some running
        · exact sound.dirtyPlain i p up
        · exact sound.dirtyPlain i q running
      · intro i q running n
        obtain ⟨rfl, rfl⟩ | ⟨-, running⟩ := update_eq_some running
        · simp only [Peer.hear, Function.update_apply]
          split
          · rename_i same
            exact same ▸ ahead
          · exact sound.parts i p up n
        · exact sound.parts i q running n
  | @boot k down env room =>
      refine ⟨sound.allOk, sound.own, ?_, ?_, ?_⟩
      · intro i q running
        obtain ⟨rfl, rfl⟩ | ⟨-, running⟩ := update_eq_some running
        · exact plain_replay env i (sound.allOk i) fun c ent found => by cases found
        · exact sound.plain i q running
      · intro i q running c d stored
        obtain ⟨rfl, rfl⟩ | ⟨-, running⟩ := update_eq_some running
        · cases stored
        · exact sound.dirtyPlain i q running c d stored
      · intro i q running n
        obtain ⟨rfl, rfl⟩ | ⟨-, running⟩ := update_eq_some running
        · exact List.nil_prefix
        · exact sound.parts i q running n
  | @stop k p up idle =>
      exact ⟨sound.allOk, sound.own,
        fun i q running => sound.plain i q (update_none_eq_some running).2,
        fun i q running => sound.dirtyPlain i q (update_none_eq_some running).2,
        fun i q running => sound.parts i q (update_none_eq_some running).2⟩

end Mesh

end Shrt.Store
