import Mathlib.Data.List.Basic
import Mathlib.Logic.Relation
import Shrt.Store.Mesh

/-!
# A pool of journals that are compacted

With compaction an instance keeps a snapshot and the records written since.
Where a sibling's reader stands then says little, so a pool only knows that what
is read are records of the sibling's log.  This module states the pool and what
all its records have in common.
-/

namespace Shrt.Store

open Shrt.Codec Shrt.Lib Shrt.Lib.Framing

/-- What an instance has in memory. -/
structure Member where
  index : Index
  dirty : Dirty
  stray : StrayMap

def Member.view (m : Member) : View :=
  ⟨m.index, m.stray⟩

def Member.did (m : Member) (j : Journal) : Member :=
  { m with index := j.index, dirty := j.dirty }

def Member.hear (env : Env) (k : Inst) (m : Member) (new : List Rec) : Member :=
  { m with
    index := (replay env k m.view new).index
    stray := (replay env k m.view new).stray }

def Member.booted (env : Env) (k : Inst) (recs : List Rec) : Member where
  index := (replay env k .empty recs).index
  dirty := ∅
  stray := (replay env k .empty recs).stray

structure Pool where
  members : Inst → Option Member
  snaps : Inst → List Rec
  recs : Inst → List Rec
  served : List (Inst × String)

namespace Pool

def start : Pool :=
  ⟨fun _ => none, fun _ => [], fun _ => [], []⟩

def journal (p : Pool) (k : Inst) (m : Member) : Journal :=
  ⟨m.index, m.dirty, p.recs k⟩

/-- What is allowed: the acts of an instance, where it may take a snapshot, and
the records that it may open with. -/
structure Rules where
  acts : Inst → Act → Prop
  saves : Pool → Inst → Prop
  opens : Env → Inst → List Rec → Prop

/-- What a pool does: acts, snapshots, reads of siblings' records, openings and
closings. -/
inductive Step (rules : Rules) (p : Pool) : Pool → Prop where
  | act {k : Inst} {m : Member} {act : Act} {j : Journal} (up : p.members k = some m)
      (step : Journal.Step k (p.journal k m) act j) (checked : (p.journal k m).Checked k act)
      (runs : act.Runs) (allowed : rules.acts k act) :
      Step rules p
        ⟨Function.update p.members k (some (m.did j)), p.snaps, Function.update p.recs k j.recs,
          p.served ++ act.counts k⟩
  | save {k : Inst} {m : Member} (up : p.members k = some m) (idle : m.dirty = ∅)
      (ord : IterOrder String Entry) (allowed : rules.saves p k) :
      Step rules p
        { p with
          snaps := Function.update p.snaps k (snapshotOf k (ord.iter m.index))
          recs := Function.update p.recs k [] }
  | hear {k j : Inst} {m : Member} (up : p.members k = some m) (other : j ≠ k) (env : Env)
      {new : List Rec} (written : ∀ r ∈ new, r ∈ p.recs j) :
      Step rules p
        { p with members := Function.update p.members k (some (m.hear env k new)) }
  | boot {k : Inst} (down : p.members k = none) (env : Env) {js : List Inst}
      (others : ∀ j ∈ js, j ≠ k)
      (opened : rules.opens env k (p.snaps k ++ p.recs k ++ js.flatMap p.snaps)) :
      Step rules p
        { p with
          members := Function.update p.members k
            (some (.booted env k (p.snaps k ++ p.recs k ++ js.flatMap p.snaps))) }
  | stop {k : Inst} {m : Member} (up : p.members k = some m) (idle : m.dirty = ∅) :
      Step rules p { p with members := Function.update p.members k none }

abbrev Steps (rules : Rules) : Pool → Pool → Prop :=
  Relation.ReflTransGen (Step rules)

/-- The records are well formed, those of a log carry the id of their writer;
indexes and dirty maps hold plain codes. -/
structure Sound (p : Pool) : Prop where
  okSnaps : ∀ k, AllOk (p.snaps k)
  okRecs : ∀ k, AllOk (p.recs k)
  own : ∀ k, ∀ r ∈ p.recs k, r.Own k
  plain : ∀ k m, p.members k = some m → ∀ c ent, m.index.lookup c = some ent → Plain c
  dirtyPlain : ∀ k m, p.members k = some m → ∀ c d, m.dirty.lookup c = some d → Plain c

theorem sound_start : start.Sound :=
  ⟨fun _ => allOk_nil, fun _ => allOk_nil, fun _ _ member => (by cases member),
    fun _ _ up => (by cases up), fun _ _ up => (by cases up)⟩

end Pool

/-- A snapshot of plain codes is well formed. -/
theorem allOk_snapshotOf {k : Inst} {index : Index} (ord : IterOrder String Entry)
    (plain : ∀ c ent, index.lookup c = some ent → Plain c) :
    AllOk (snapshotOf k (ord.iter index)) := by
  intro r member
  obtain ⟨ce, listed, rfl⟩ := List.mem_map.mp member
  exact plain ce.1 ce.2 (ord.mem_iter_iff.mp (List.mem_filter.mp listed).1)

namespace Pool

variable {rules : Rules}

theorem Sound.okSnapshots {p : Pool} (sound : p.Sound) (js : List Inst) :
    AllOk (js.flatMap p.snaps) := by
  intro r member
  obtain ⟨j, -, here⟩ := List.mem_flatMap.mp member
  exact sound.okSnaps j r here

/-- What an instance that opens replays is well formed. -/
theorem Sound.okOpened {p : Pool} (sound : p.Sound) (k : Inst) {log : List Rec} (ok : AllOk log)
    (js : List Inst) : AllOk (p.snaps k ++ log ++ js.flatMap p.snaps) :=
  ((sound.okSnaps k).append ok).append (sound.okSnapshots js)

theorem Sound.step {p p' : Pool} (sound : p.Sound) (step : Step rules p p') :
    p'.Sound := by
  cases step with
  | @act k m act j up step checked runs allowed =>
      obtain ⟨⟨rs, grown, ok, own⟩, plain, dirtyPlain⟩ :=
        step.grows runs (sound.plain k m up) (sound.dirtyPlain k m up)
      obtain ⟨okAll, ownAll⟩ := grown_records sound.okRecs sound.own ok own
      have whole : j.recs = p.recs k ++ rs := grown
      rw [← whole] at okAll ownAll
      refine ⟨sound.okSnaps, okAll, ownAll, ?_, ?_⟩
      · intro i q running
        obtain ⟨rfl, rfl⟩ | ⟨-, running⟩ := update_eq_some running
        · exact plain
        · exact sound.plain i q running
      · intro i q running
        obtain ⟨rfl, rfl⟩ | ⟨-, running⟩ := update_eq_some running
        · exact dirtyPlain
        · exact sound.dirtyPlain i q running
  | @save k m up idle ord allowed =>
      refine ⟨?_, ?_, ?_, sound.plain, sound.dirtyPlain⟩
      · intro i
        simp only [Function.update_apply]
        split
        · exact allOk_snapshotOf ord (sound.plain k m up)
        · exact sound.okSnaps i
      · intro i
        simp only [Function.update_apply]
        split
        · exact allOk_nil
        · exact sound.okRecs i
      · intro i r member
        simp only [Function.update_apply] at member
        split at member
        · cases member
        · exact sound.own i r member
  | @hear k j m up other env new written =>
      have ok : AllOk new := fun r hr => sound.okRecs j r (written r hr)
      refine ⟨sound.okSnaps, sound.okRecs, sound.own, ?_, ?_⟩
      · intro i q running
        obtain ⟨rfl, rfl⟩ | ⟨-, running⟩ := update_eq_some running
        · exact plain_replay env i ok (sound.plain i m up)
        · exact sound.plain i q running
      · intro i q running
        obtain ⟨rfl, rfl⟩ | ⟨-, running⟩ := update_eq_some running
        · exact sound.dirtyPlain i m up
        · exact sound.dirtyPlain i q running
  | @boot k down env js others opened =>
      have ok := sound.okOpened k (sound.okRecs k) js
      refine ⟨sound.okSnaps, sound.okRecs, sound.own, ?_, ?_⟩
      · intro i q running
        obtain ⟨rfl, rfl⟩ | ⟨-, running⟩ := update_eq_some running
        · exact plain_replay env i ok fun c ent found => by cases found
        · exact sound.plain i q running
      · intro i q running c d stored
        obtain ⟨rfl, rfl⟩ | ⟨-, running⟩ := update_eq_some running
        · cases stored
        · exact sound.dirtyPlain i q running c d stored
  | @stop k m up idle =>
      exact ⟨sound.okSnaps, sound.okRecs, sound.own,
        fun i q running => sound.plain i q (update_none_eq_some running).2,
        fun i q running => sound.dirtyPlain i q (update_none_eq_some running).2⟩

theorem Sound.steps {p p' : Pool} (sound : p.Sound) (steps : Steps rules p p') :
    p'.Sound := by
  induction steps with
  | refl => exact sound
  | tail _ last ih => exact ih.step last

end Pool

end Shrt.Store
