import Mathlib.Algebra.Order.BigOperators.Group.Finset
import Mathlib.Data.List.Basic
import Shrt.Store.Convergence
import Shrt.Store.Tally

/-!
# Instances that share a directory count every hit once

As long as no link is changed or removed, no log is compacted and no stray map
is full, the hits an instance holds for a code are the sum of what the records
it knows carry and of what it has not logged yet.  The records of an instance
carry the resolves it served.
-/

namespace Shrt.Store

open Shrt.Codec Shrt.Lib Shrt.Lib.Runs

def Peer.unlogged (p : Peer) (c : String) : Int64 :=
  (p.dirty.lookup c).getD 0

namespace Mesh

/-- The acts that create generated codes and count hits. -/
def Counts (k : Inst) : Act → Prop
  | .create c _ _ _ => ownerOf c = some k
  | .hit _ | .drain _ => True
  | _ => False

def unlogged (m : Mesh) (k : Inst) (c : String) : Int64 :=
  (m.peers k).elim 0 fun p => p.unlogged c

def rows (m : Mesh) (c : String) : Nat :=
  ∑ j, rowCount c (m.recs j)

end Mesh

/-- What an act adds: its records, and the hit it counts. -/
structure Ticks (k : Inst) (p : Peer) (act : Act) (j : Journal) (rs : List Rec) : Prop where
  noDel : NoDel rs
  owned : ∀ c, rowCount c rs ≠ 0 → ownerOf c = some k
  named : ∀ r ∈ rs, rowCount r.code rs ≠ 0 ∨ p.dirty.lookup r.code ≠ none
  noted : ∀ c, j.dirty.lookup c ≠ none → p.dirty.lookup c ≠ none ∨ p.view.lives c ≠ 0
  served : ∀ c, (k, c) ∈ act.counts k → p.view.lives c ≠ 0
  lives : ∀ c, (p.did j).view.lives c = p.view.lives c + rowCount c rs
  count : ∀ c, (p.did j).view.count c =
    p.view.count c + Int64.ofNat ((act.counts k).count (k, c))
  logged : ∀ c, (p.did j).unlogged c + tally c rs =
    p.unlogged c + Int64.ofNat ((act.counts k).count (k, c))

theorem View.lives_le (v : View) (c : String) : v.lives c ≤ 1 := by
  rw [View.lives]
  split
  · exact Nat.le_refl 1
  · exact Nat.zero_le 1

theorem View.lives_congr {v w : View} {c : String} (same : v.index.lookup c = w.index.lookup c) :
    v.lives c = w.lives c := by
  rw [View.lives, View.lives, same]

theorem View.lives_eq_zero {v : View} {c : String} : v.lives c = 0 ↔ v.index.lookup c = none := by
  cases found : v.index.lookup c with
  | none => simp [View.lives, found]
  | some ent => simp [View.lives, found]

namespace Ticks

variable {k : Inst} {p : Peer} {recs : List Rec}

theorem create {c : String} (missing : p.index.lookup c = none) (named : ownerOf c = some k)
    (idle : ∀ c, p.view.lives c = 0 → ownerOf c = some k → p.view.count c = 0)
    (url : String) (now exp : Int64) :
    Ticks k p (.create c url now exp)
      ⟨p.index.insert c ⟨url, now, exp, k.i32, 0, 0⟩, p.dirty, recs⟩
      [.row c url now exp k.i64 0] := by
  refine ⟨?_, ?_, ?_, ?_, ?_, ?_, ?_, ?_⟩
  · intro r member c' same
    rw [List.mem_singleton.mp member] at same
    cases same
  · intro c' counted
    obtain rfl : c = c' := by
      by_contra other
      exact counted (rowCount_other other)
    exact named
  · intro r member
    rw [List.mem_singleton.mp member]
    simp [rowCount, isRow, Rec.code]
  · exact fun c' stored => Or.inl stored
  · intro c' member
    cases member
  · intro c'
    by_cases same : c' = c
    · subst same
      simp [View.lives, Peer.view, Peer.did, missing, rowCount, isRow]
    · rw [rowCount_other (Ne.symm same), Nat.add_zero]
      exact View.lives_congr ((Map.lookup_insert_eq _ _ _ _).trans (if_neg same))
  · intro c'
    by_cases same : c' = c
    · subst same
      rw [idle c' (View.lives_eq_zero.mpr missing) named]
      simp [View.count, Peer.view, Peer.did, Act.counts]
    · simp [View.count, View.waiting, Peer.view, Peer.did, Act.counts, same]
  · intro c'
    have carries : tally c' [Rec.row c url now exp k.i64 0] = 0 := by
      simp [tally, recTally]
    rw [carries]
    rfl

theorem hit {c : String} {ent : Entry} (live : p.index.lookup c = some ent) :
    Ticks k p (.hit c)
      ⟨p.index.insert c { ent with h := ent.h + 1, oh := ent.oh + 1 },
        p.dirty.insert c ((p.dirty.lookup c).getD 0 + 1), recs⟩ [] := by
  refine ⟨?_, ?_, ?_, ?_, ?_, ?_, ?_, ?_⟩
  · intro r member
    cases member
  · intro c' counted
    exact absurd rfl counted
  · intro r member
    cases member
  · intro c' stored
    by_cases same : c' = c
    · subst same
      exact Or.inr fun dead => by simp [View.lives_eq_zero, Peer.view, live] at dead
    · exact Or.inl (by simpa [Map.lookup_insert_eq, same] using stored)
  · intro c' member dead
    obtain rfl : c' = c := by simpa [Act.counts] using member
    simp [View.lives_eq_zero, Peer.view, live] at dead
  · intro c'
    by_cases same : c' = c
    · subst same
      simp [View.lives, Peer.view, Peer.did, live]
    · exact View.lives_congr ((Map.lookup_insert_eq _ _ _ _).trans (if_neg same))
  · intro c'
    by_cases same : c' = c
    · subst same
      simp [View.count, Peer.view, Peer.did, live, Act.counts]
    · simp [View.count, View.waiting, Peer.view, Peer.did, Act.counts, same, Ne.symm same]
  · intro c'
    by_cases same : c' = c
    · subst same
      simp [Peer.unlogged, Peer.did, Act.counts]
    · simp [Peer.unlogged, Peer.did, Act.counts, same, Ne.symm same]

theorem drain (ord : IterOrder String Int64) :
    Ticks k p (.drain ord) ⟨p.index, ∅, recs⟩ (hitRecs k (ord.iter p.dirty)) := by
  refine ⟨?_, ?_, ?_, ?_, ?_, ?_, ?_, ?_⟩
  · intro r member c same
    obtain ⟨kd, -, rfl⟩ := List.mem_map.mp member
    cases same
  · intro c counted
    exact absurd (rowCount_hitRecs c k _) counted
  · intro r member
    obtain ⟨kd, listed, rfl⟩ := List.mem_map.mp member
    right
    rw [Rec.code, show p.dirty.lookup kd.1 = some kd.2 from ord.mem_iter_iff.mp listed]
    simp
  · intro c stored
    exact absurd rfl stored
  · intro c member
    cases member
  · intro c
    rw [rowCount_hitRecs]
    rfl
  · intro c
    exact (Int64.add_zero _).symm
  · intro c
    rw [tally_hitRecs, hitSum_drain]
    simp [Peer.unlogged, Peer.did, Act.counts]

/-- The records and the unlogged hits stay what was served. -/
theorem served_append {act : Act} {j : Journal} {rs : List Rec} (ticks : Ticks k p act j rs)
    {c : String} {log : List Rec} {served : List (Inst × String)}
    (before : tally c log + p.unlogged c = Int64.ofNat (served.count (k, c))) :
    tally c (log ++ rs) + (p.did j).unlogged c =
      Int64.ofNat ((served ++ act.counts k).count (k, c)) := by
  have logged := ticks.logged c
  rw [tally_append, List.count_append, Int64.ofNat_add, ← before]
  grind

end Ticks

theorem Act.count_counts_of_ne {act : Act} {i k : Inst} (other : i ≠ k) (c : String) :
    (act.counts k).count (i, c) = 0 := by
  rw [List.count_eq_zero]
  exact fun member => other (eq_of_mem_counts member)

theorem Mesh.ticks {m : Mesh} {k : Inst} {p : Peer} {act : Act} {j : Journal}
    (step : Journal.Step k (m.journal k p) act j) (counts : Mesh.Counts k act)
    (idle : ∀ c, p.view.lives c = 0 → ownerOf c = some k → p.view.count c = 0) :
    ∃ rs, j.recs = m.recs k ++ rs ∧ Ticks k p act j rs := by
  cases step with
  | create plain fresh url now exp =>
      exact ⟨_, rfl, .create fresh counts idle url now exp⟩
  | hit found => exact ⟨[], (List.append_nil _).symm, .hit found⟩
  | drain ord => exact ⟨_, rfl, .drain ord⟩
  | amend found url exp => exact counts.elim
  | drop found => exact counts.elim
  | snapshot ord idle => exact counts.elim
  | restart env idle => exact counts.elim

namespace Mesh

/-- Every code has at most one row, in the records of the instance it names,
and every hit is of a code that has its row.  What a peer holds is the sum of
the records it knows and its unlogged hits; the records of an instance and its
unlogged hits are the resolves it served. -/
structure Counted (m : Mesh) : Prop where
  noDel : ∀ k, NoDel (m.recs k)
  owned : ∀ k c, rowCount c (m.recs k) ≠ 0 → ownerOf c = some k
  once : ∀ c, m.rows c ≤ 1
  named : ∀ k, ∀ r ∈ m.recs k, m.rows r.code ≠ 0
  noted : ∀ k p, m.peers k = some p → ∀ c, p.dirty.lookup c ≠ none → m.rows c ≠ 0
  resolved : ∀ k c, (k, c) ∈ m.served → m.rows c ≠ 0
  live : ∀ k p, m.peers k = some p → ∀ c, p.view.lives c = ∑ j, rowCount c (m.known k p j)
  sum : ∀ k p, m.peers k = some p → ∀ c,
    p.view.count c = p.unlogged c + ∑ j, tally c (m.known k p j)
  served : ∀ k c, tally c (m.recs k) + m.unlogged k c = Int64.ofNat (m.served.count (k, c))

theorem counted_start : start.Counted := by
  refine ⟨?_, ?_, ?_, ?_, ?_, ?_, ?_, ?_, ?_⟩
  · exact fun _ _ member => by cases member
  · exact fun _ _ counted => absurd rfl counted
  · simp [rows, start]
  · exact fun _ _ member => by cases member
  · exact fun _ _ up => by cases up
  · exact fun _ _ member => by cases member
  · exact fun _ _ up => by cases up
  · exact fun _ _ up => by cases up
  · exact fun _ _ => rfl

theorem Sound.sum_known_le {m : Mesh} (sound : m.Sound) {k : Inst} {p : Peer}
    (up : m.peers k = some p) (c : String) : ∑ j, rowCount c (m.known k p j) ≤ m.rows c :=
  Finset.sum_le_sum fun j _ => rowCount_le (sound.known_prefix up j)

/-- A live code has its row somewhere. -/
theorem Counted.rows_of_lives {m : Mesh} (counted : m.Counted) (sound : m.Sound) {k : Inst}
    {p : Peer} (up : m.peers k = some p) {c : String} (live : p.view.lives c ≠ 0) :
    m.rows c ≠ 0 := by
  rw [counted.live k p up] at live
  have bound := sound.sum_known_le up c
  omega

/-- A code that names an instance and is not live there has no row. -/
theorem Counted.rows_of_dead {m : Mesh} (counted : m.Counted) {k : Inst} {p : Peer}
    (up : m.peers k = some p) {c : String} (dead : p.view.lives c = 0)
    (mine : ownerOf c = some k) : m.rows c = 0 := by
  rw [counted.live k p up, Finset.sum_eq_zero_iff] at dead
  rw [rows, Finset.sum_eq_zero_iff]
  intro j member
  by_contra present
  have same : j = k := Option.some.inj ((counted.owned j c present).symm.trans mine)
  subst same
  have none := dead j member
  rw [known, Function.update_self] at none
  exact present none

/-- Nothing is held for a code without a row. -/
theorem Counted.count_of_dead {m : Mesh} (counted : m.Counted) (sound : m.Sound) {k : Inst}
    {p : Peer} (up : m.peers k = some p) {c : String} (none : m.rows c = 0) :
    p.view.count c = 0 := by
  have carries : ∀ j, tally c (m.known k p j) = 0 := by
    intro j
    apply tally_other
    rintro r member rfl
    exact counted.named j r ((sound.known_prefix up j).subset member) none
  have unlogged : p.unlogged c = 0 := by
    have absent : p.dirty.lookup c = Option.none := by
      by_contra stored
      exact counted.noted k p up c stored none
    rw [Peer.unlogged, absent]
    rfl
  rw [counted.sum k p up, unlogged, Finset.sum_eq_zero fun j _ => carries j]
  rfl

theorem Counted.act {m m' : Mesh} (counted : m.Counted) (sound : m.Sound) {k : Inst} {p : Peer}
    (up : m.peers k = some p) {act : Act} {j : Journal} {rs : List Rec}
    (ticks : Ticks k p act j rs) (peers : m'.peers = Function.update m.peers k (some (p.did j)))
    (recs : m'.recs = Function.update m.recs k (m.recs k ++ rs))
    (served : m'.served = m.served ++ act.counts k) : m'.Counted := by
  have rows : ∀ c, m'.rows c = m.rows c + rowCount c rs := by
    intro c
    rw [Mesh.rows, recs]
    exact sum_update_append (rowCount_append c) m.recs k rs
  have stays : ∀ c, m.rows c ≠ 0 → m'.rows c ≠ 0 := by
    intro c present
    rw [rows]
    omega
  have lives : ∀ c, p.view.lives c ≠ 0 → m'.rows c ≠ 0 := fun c live =>
    stays c (counted.rows_of_lives sound up live)
  have written : ∀ i, ∀ r ∈ m'.recs i, r ∈ m.recs i ∨ (i = k ∧ r ∈ rs) := by
    intro i r member
    rw [recs, Function.update_apply] at member
    split at member
    · rename_i same
      rw [same]
      exact (List.mem_append.mp member).imp id fun new => ⟨rfl, new⟩
    · exact Or.inl member
  have known : m'.known k (p.did j) = Function.update (m.known k p) k (m.known k p k ++ rs) := by
    simp [Mesh.known, recs, Peer.did]
  have elsewhere : ∀ i q, i ≠ k → m'.known i q = m.known i q := by
    intro i q other
    simp [Mesh.known, recs, other]
  refine ⟨?_, ?_, ?_, ?_, ?_, ?_, ?_, ?_, ?_⟩
  · intro i r member
    rcases written i r member with old | ⟨-, new⟩
    · exact counted.noDel i r old
    · exact ticks.noDel r new
  · intro i c present
    rw [recs, Function.update_apply] at present
    split at present
    · rename_i same
      rw [rowCount_append] at present
      rw [same]
      by_cases old : rowCount c (m.recs k) = 0
      · exact ticks.owned c (by omega)
      · exact counted.owned k c old
    · exact counted.owned i c present
  · intro c
    rw [rows]
    by_cases new : rowCount c rs = 0
    · rw [new, Nat.add_zero]
      exact counted.once c
    · have after := (p.did j).view.lives_le c
      rw [ticks.lives c] at after
      rw [counted.rows_of_dead up (by omega) (ticks.owned c new)]
      omega
  · intro i r member
    rcases written i r member with old | ⟨-, new⟩
    · exact stays _ (counted.named i r old)
    · rcases ticks.named r new with row | stored
      · rw [rows]
        omega
      · exact stays _ (counted.noted k p up _ stored)
  · intro i q running c stored
    rw [peers] at running
    obtain ⟨rfl, rfl⟩ | ⟨-, running⟩ := update_eq_some running
    · rcases ticks.noted c stored with before | live
      · exact stays c (counted.noted i p up c before)
      · exact lives c live
    · exact stays c (counted.noted i q running c stored)
  · intro i c member
    rw [served] at member
    rcases List.mem_append.mp member with old | new
    · exact stays c (counted.resolved i c old)
    · obtain rfl := Act.eq_of_mem_counts new
      exact lives c (ticks.served c new)
  · intro i q running c
    rw [peers] at running
    obtain ⟨rfl, rfl⟩ | ⟨other, running⟩ := update_eq_some running
    · rw [ticks.lives, counted.live i p up, known]
      exact (sum_update_append (rowCount_append c) (m.known i p) i rs).symm
    · rw [elsewhere i q other]
      exact counted.live i q running c
  · intro i q running c
    rw [peers] at running
    obtain ⟨rfl, rfl⟩ | ⟨other, running⟩ := update_eq_some running
    · rw [ticks.count, counted.sum i p up, known, sum_update_append (tally_append c)]
      have logged := ticks.logged c
      grind
    · rw [elsewhere i q other]
      exact counted.sum i q running c
  · intro i c
    by_cases same : i = k
    · subst same
      have before := counted.served i c
      have here : m'.unlogged i c = (p.did j).unlogged c := by
        simp [Mesh.unlogged, peers]
      have there : m.unlogged i c = p.unlogged c := by
        simp [Mesh.unlogged, up]
      rw [there] at before
      rw [recs, served, Function.update_self, here]
      exact ticks.served_append before
    · have unchanged : m'.unlogged i c = m.unlogged i c := by
        simp [Mesh.unlogged, peers, same]
      rw [recs, served, Function.update_of_ne same, unchanged, List.count_append,
        Act.count_counts_of_ne same]
      exact counted.served i c

/-- One peer replaced, the records as they were. -/
theorem Counted.replace {m : Mesh} (counted : m.Counted) {k : Inst} {q : Peer}
    (noted : ∀ c, q.dirty.lookup c ≠ none → m.rows c ≠ 0)
    (unlogged : ∀ c, q.unlogged c = m.unlogged k c)
    (live : ∀ c, q.view.lives c = ∑ j, rowCount c (m.known k q j))
    (sum : ∀ c, q.view.count c = q.unlogged c + ∑ j, tally c (m.known k q j)) :
    Counted { m with peers := Function.update m.peers k (some q) } := by
  refine ⟨counted.noDel, counted.owned, counted.once, counted.named, ?_, counted.resolved, ?_, ?_,
    ?_⟩
  · intro i p running
    obtain ⟨rfl, rfl⟩ | ⟨-, running⟩ := update_eq_some running
    · exact noted
    · exact counted.noted i p running
  · intro i p running
    obtain ⟨rfl, rfl⟩ | ⟨-, running⟩ := update_eq_some running
    · exact live
    · exact counted.live i p running
  · intro i p running
    obtain ⟨rfl, rfl⟩ | ⟨-, running⟩ := update_eq_some running
    · exact sum
    · exact counted.sum i p running
  · intro i c
    rw [← counted.served i c]
    by_cases same : i = k
    · subst same
      rw [← unlogged c]
      simp [Mesh.unlogged]
    · simp [Mesh.unlogged, same]

theorem Counted.hear {m : Mesh} (counted : m.Counted) (sound : m.Sound) {k j : Inst} {p : Peer}
    (up : m.peers k = some p) (other : j ≠ k) (env : Env) {new : List Rec}
    (ahead : p.part j ++ new <+: m.recs j) (room : View.Roomy env k p.view (new.map Rec.op)) :
    Counted { m with peers := Function.update m.peers k (some (p.hear env k j new)) } := by
  have within : new ⊆ m.recs j := fun r member => ahead.subset (List.mem_append_right _ member)
  have known : m.known k (p.hear env k j new) =
      Function.update (m.known k p) j (m.known k p j ++ new) := by
    simp [Mesh.known, Peer.hear, other, Function.update_comm other]
  have rows : ∀ c, ∑ i, rowCount c (m.known k (p.hear env k j new) i) =
      p.view.lives c + rowCount c new := by
    intro c
    rw [known, counted.live k p up]
    exact sum_update_append (rowCount_append c) _ j new
  have prefixes : ∀ i, m.known k (p.hear env k j new) i <+: m.recs i := by
    intro i
    rw [known, Function.update_apply]
    split
    · rename_i same
      rw [same]
      simpa [Mesh.known, other] using ahead
    · exact sound.known_prefix up i
  have replayed : ∀ c, (replay env k p.view new).count c = p.view.count c + tally c new ∧
      (replay env k p.view new).lives c = p.view.lives c + rowCount c new := by
    intro c
    apply count_replay env k room fun r member => sound.allOk j r (within member)
    · exact fun r member => counted.noDel j r (within member)
    · rw [← rows]
      exact (Finset.sum_le_sum fun i _ => rowCount_le (prefixes i)).trans (counted.once c)
  refine counted.replace (counted.noted k p up) ?_ ?_ ?_
  · intro c
    rw [Mesh.unlogged, up]
    rfl
  · intro c
    rw [rows]
    exact (replayed c).2
  · intro c
    have total := (replayed c).1
    rw [counted.sum k p up] at total
    rw [known, sum_update_append (tally_append c), ← add_assoc]
    exact total

theorem Counted.boot {m : Mesh} (counted : m.Counted) (sound : m.Sound) {k : Inst}
    (down : m.peers k = none) (env : Env)
    (room : View.Roomy env k .empty ((m.recs k).map Rec.op)) :
    Counted { m with peers := Function.update m.peers k (some (.booted env k (m.recs k))) } := by
  have known : m.known k (.booted env k (m.recs k)) = Function.update (fun _ => []) k (m.recs k) :=
    rfl
  have replayed : ∀ c, (replay env k .empty (m.recs k)).count c = 0 + tally c (m.recs k) ∧
      (replay env k .empty (m.recs k)).lives c = 0 + rowCount c (m.recs k) := by
    intro c
    apply count_replay env k room (sound.allOk k) (counted.noDel k)
    have single : rowCount c (m.recs k) ≤ m.rows c :=
      Finset.single_le_sum (f := fun j => rowCount c (m.recs j)) (fun _ _ => Nat.zero_le _)
        (Finset.mem_univ k)
    have empty : View.empty.lives c = 0 := rfl
    have once := counted.once c
    omega
  refine counted.replace ?_ ?_ ?_ ?_
  · intro c stored
    exact absurd rfl stored
  · intro c
    rw [Mesh.unlogged, down]
    rfl
  · intro c
    rw [known, sum_update_nil (rowCount_nil c)]
    exact (replayed c).2.trans (Nat.zero_add _)
  · intro c
    rw [known, sum_update_nil (tally_nil c)]
    exact (replayed c).1

theorem Counted.stop {m : Mesh} (counted : m.Counted) {k : Inst} {p : Peer}
    (up : m.peers k = some p) (idle : p.dirty = ∅) :
    Counted { m with peers := Function.update m.peers k none } := by
  refine ⟨counted.noDel, counted.owned, counted.once, counted.named, ?_, counted.resolved, ?_, ?_,
    ?_⟩
  · exact fun i q running => counted.noted i q (update_none_eq_some running).2
  · exact fun i q running => counted.live i q (update_none_eq_some running).2
  · exact fun i q running => counted.sum i q (update_none_eq_some running).2
  · intro i c
    rw [← counted.served i c]
    by_cases same : i = k
    · subst same
      simp [Mesh.unlogged, up, Peer.unlogged, idle]
    · simp [Mesh.unlogged, same]

theorem Counted.step {m m' : Mesh} (counted : m.Counted) (sound : m.Sound)
    (step : Step Counts True m m') : m'.Counted := by
  cases step with
  | @act k p act j up step checked runs counts =>
      obtain ⟨rs, grown, ticks⟩ := Mesh.ticks step counts fun c dead mine =>
        counted.count_of_dead sound up (counted.rows_of_dead up dead mine)
      exact counted.act sound up ticks rfl (by rw [grown]) rfl
  | hear up other env ahead room => exact counted.hear sound up other env ahead (room trivial)
  | boot down env room => exact counted.boot sound down env (room trivial)
  | stop up idle => exact counted.stop up idle

theorem counted_steps {m : Mesh} (steps : Steps Counts True .start m) : m.Counted := by
  suffices both : m.Sound ∧ m.Counted from both.2
  induction steps with
  | refl => exact ⟨sound_start, counted_start⟩
  | tail _ last ih => exact ⟨ih.1.step last, ih.2.step ih.1 last⟩

/-- Counts of the instances add up. -/
theorem sum_ofNat (f : Inst → Nat) : ∑ j, Int64.ofNat (f j) = Int64.ofNat (∑ j, f j) :=
  (map_sum (AddMonoidHom.mk ⟨Int64.ofNat, rfl⟩ fun n d => Int64.ofNat_add n d) f Finset.univ).symm

theorem sum_count (served : List (Inst × String)) (c : String) :
    ∑ j, served.count (j, c) = served.countP fun hit => hit.2 = c := by
  induction served with
  | nil => simp
  | cons hit served ih =>
      obtain ⟨k, code⟩ := hit
      have one : ∑ j : Inst, (if (k, code) == (j, c) then 1 else 0) =
          if decide (code = c) then 1 else 0 := by
        by_cases same : code = c
        · simp [same, Prod.ext_iff]
        · simp [same, Prod.ext_iff]
      simp only [List.count_cons, List.countP_cons, Finset.sum_add_distrib]
      rw [ih, one]

/-- In a settled mesh a live code has all hits that were served. -/
theorem Counted.settled {m : Mesh} (counted : m.Counted) (settled : m.Settled) {k : Inst} {p : Peer}
    (up : m.peers k = some p) (c : String) :
    p.view.lives c = m.rows c ∧
      p.view.count c = Int64.ofNat (m.served.countP fun hit => hit.2 = c) := by
  have logged : ∀ j, m.unlogged j c = 0 := by
    intro j
    rw [Mesh.unlogged]
    cases running : m.peers j with
    | none => rfl
    | some q => simp [Peer.unlogged, settled.idle j q running]
  have served : ∀ j, tally c (m.recs j) = Int64.ofNat (m.served.count (j, c)) := by
    intro j
    rw [← counted.served, logged, Int64.add_zero]
  have here : p.unlogged c = 0 := by
    simp [Peer.unlogged, settled.idle k p up]
  constructor
  · rw [counted.live k p up, settled.known up]
    rfl
  · rw [counted.sum k p up, settled.known up, here, Int64.zero_add, ← sum_count, ← sum_ofNat]
    exact Finset.sum_congr rfl fun j _ => served j

/-- What a store that stands for a settled peer reports. -/
theorem Counted.reports {m : Mesh} (counted : m.Counted) (settled : m.Settled) {k : Inst}
    {p : Peer} (up : m.peers k = some p) {s : Inner} (view : s.view = p.view)
    {codes : List String} (present : ∀ code ∈ codes, m.rows code ≠ 0) (c : String) :
    s.hits c = some (Int64.ofNat (m.served.countP fun hit => hit.2 = c)) ∨
      (s.hits c = none ∧ c ∉ codes ∧ (m.served.countP fun hit => hit.2 = c) = 0) := by
  obtain ⟨lives, count⟩ := counted.settled settled up c
  rw [← view] at lives count
  rw [Inner.hits_eq]
  cases found : s.index.lookup c with
  | some ent =>
      left
      simp only [View.count, Inner.view, found] at count
      rw [Option.map_some, count]
  | none =>
      right
      have dead : s.view.lives c = 0 := View.lives_eq_zero.mpr found
      rw [lives] at dead
      refine ⟨rfl, fun member => present c member dead, ?_⟩
      rw [List.countP_eq_zero]
      rintro ⟨i, code⟩ member same
      obtain rfl : code = c := by simpa using same
      exact counted.resolved i code member dead

end Mesh

/-! ## The codes that were given out -/

/-- The codes of a bulk are in the index it ends with. -/
theorem bulk_present {inst : Inst} {now exp : Int64} {entry : String → Entry}
    {items : List (String × Suffix)} {retries : List Suffix} {index index' : Index}
    {rows rows' : Bytes} {codes codes' : List String}
    (done : Inner.bulk inst now exp entry items retries index rows codes =
      some (index', rows', codes')) (present : ∀ c ∈ codes, index.lookup c ≠ none) :
    ∀ c ∈ codes', index'.lookup c ≠ none := by
  induction items generalizing retries index rows codes with
  | nil =>
      cases done
      exact present
  | cons item items ih =>
      obtain ⟨url, buf⟩ := item
      rw [Inner.bulk, Option.bind_eq_some_iff] at done
      obtain ⟨fresh, -, done⟩ := done
      refine ih done fun c member => ?_
      rw [Map.lookup_insert_eq]
      split
      · simp
      · rename_i other
        rcases List.mem_append.mp member with old | new
        · exact present c old
        · exact absurd (List.mem_singleton.mp new) other

/-- A code that a call created is live after it. -/
theorem World.created_present (w : World) (env : Env) (call : Call) {c : String}
    (member : c ∈ w.created (env, call)) : (w.step (env, call)).store.index.lookup c ≠ none := by
  have inserted : ∀ (index : Index) (ent : Entry), (index.insert c ent).lookup c ≠ none := by
    intro index ent
    simp
  cases call with
  | shorten url aliasCode ttl =>
      cases aliasCode with
      | some a =>
          simp only [World.created] at member
          split at member
          · cases member
          · rename_i free
            cases List.mem_singleton.mp member
            simp only [World.step, Inner.shorten, Option.map_some, if_neg free, Inner.create,
              index_logRaw]
            exact inserted _ _
      | none =>
          simp only [World.created] at member
          obtain ⟨fresh, drawn, rfl⟩ : ∃ fresh,
              Inner.freshCode w.store.inst w.store.index env.rng = some fresh ∧ fresh.1 = c := by
            simpa using member
          simp only [World.step, Inner.shorten, Option.map_none, drawn, Option.map_some,
            Inner.create, index_logRaw]
          exact inserted _ _
  | shortenMany urls ttl =>
      simp only [World.created] at member
      cases result : w.store.shortenMany env w.dir urls ttl with
      | none =>
          rw [result] at member
          cases member
      | some outcome =>
          rw [result] at member
          simp only [World.step, result]
          simp only [Inner.shortenMany] at result
          split at result
          · cases result
          · obtain ⟨done, drawn, rfl⟩ := Option.map_eq_some_iff.mp result
            rw [index_logRaw]
            exact bulk_present drawn (fun c member => by cases member) c member
  | update code url ttl hasTtl => cases member
  | remove code => cases member
  | resolve code => cases member
  | flush => cases member
  | compact => cases member
  | poll => cases member
  | restart => cases member

namespace Cluster

def issues (c : Cluster) : ClusterStep → List String
  | .call k env request =>
      (c.nodes k).elim [] fun s => (World.mk s c.dir).created (env, request)
  | _ => []

def issued : Cluster → List ClusterStep → List String
  | _, [] => []
  | c, step :: steps => c.issues step ++ (c.step step).issued steps

/-- A code that a step gives out is live after it. -/
theorem live_of_issues {c : Cluster} {step : ClusterStep} {code : String}
    (new : code ∈ c.issues step) :
    ∃ k s, (c.step step).nodes k = some s ∧ s.index.lookup code ≠ none := by
  cases step with
  | boot k env => cases new
  | stop k env => cases new
  | call k env request =>
      rw [issues] at new
      cases running : c.nodes k with
      | none =>
          rw [running] at new
          cases new
      | some s =>
          rw [running] at new
          refine ⟨k, _, ?_, World.created_present (World.mk s c.dir) env request new⟩
          simp [step, running]

/-- The rule for an invariant that lists the codes given out. -/
theorem along_issued {guard : Cluster → ClusterStep → Prop} {Inv : Cluster → List String → Prop}
    (keep : ∀ c codes step, Inv c codes → guard c step → Inv (c.step step) (codes ++ c.issues step))
    {c : Cluster} {codes : List String} {schedule : List ClusterStep} (start : Inv c codes)
    (along : Along step guard c schedule) : Inv (c.run schedule) (codes ++ c.issued schedule) := by
  induction schedule generalizing c codes with
  | nil => simpa [issued, run] using start
  | cons step schedule ih =>
      obtain ⟨here, later⟩ := along
      rw [issued, ← List.append_assoc]
      exact ih (keep c codes step start here) later

/-- The cluster stands for a mesh in which these codes have their rows. -/
def Tracked (c : Cluster) (codes : List String) : Prop :=
  ∃ m log buf, Mesh.Steps Mesh.Counts True .start m ∧ m.Sound ∧ Sims c m log buf ∧
    ∀ code ∈ codes, m.rows code ≠ 0

end Cluster

theorem Mesh.Step.rows_le {allow : Inst → Act → Prop} {roomy : Prop} {m m' : Mesh}
    (step : Mesh.Step allow roomy m m') (c : String) : m.rows c ≤ m'.rows c := by
  cases step with
  | @act k p act j up step checked runs allowed =>
      obtain ⟨rs, grown, -⟩ := step.rows checked runs
      have total : ∑ i, rowCount c (Function.update m.recs k (m.recs k ++ rs) i) =
          m.rows c + rowCount c rs := sum_update_append (rowCount_append c) m.recs k rs
      rw [show m.recs k ++ rs = j.recs from grown.symm] at total
      exact (Nat.le_add_right _ _).trans total.ge
  | hear up other env ahead room => exact Nat.le_refl _
  | boot down env room => exact Nat.le_refl _
  | stop up idle => exact Nat.le_refl _

theorem Mesh.Steps.rows_le {allow : Inst → Act → Prop} {roomy : Prop} {m m' : Mesh}
    (steps : Mesh.Steps allow roomy m m') (c : String) : m.rows c ≤ m'.rows c := by
  induction steps with
  | refl => exact Nat.le_refl _
  | tail _ last ih => exact ih.trans (last.rows_le c)

theorem Cluster.Tracked.step {c : Cluster} {codes : List String} (tracked : c.Tracked codes)
    {step : ClusterStep} (allowed : step.Allowed Mesh.Counts) (room : c.Roomy step) :
    (c.step step).Tracked (codes ++ c.issues step) := by
  obtain ⟨m, log, buf, steps, sound, sims, present⟩ := tracked
  obtain ⟨m', log', buf', more, sims'⟩ :=
    sims.step sound allowed fun (_ : True) => room
  have sound' := sound.steps more
  refine ⟨m', log', buf', steps.trans more, sound', sims', fun code member => ?_⟩
  rcases List.mem_append.mp member with old | new
  · have before := present code old
    have kept := Mesh.Steps.rows_le more code
    omega
  · obtain ⟨k, s, running, live⟩ := Cluster.live_of_issues new
    obtain ⟨p, up, node⟩ := sims'.up k s running
    refine (Mesh.counted_steps (steps.trans more)).rows_of_lives sound' up fun dead => ?_
    rw [← node.view] at dead
    exact live (View.lives_eq_zero.mp dead)

/-- Calls that create generated codes, resolve, flush and poll. -/
def Call.counting : Call → Bool
  | .shorten _ none _ | .shortenMany _ _ | .resolve _ | .flush | .poll => true
  | _ => false

def ClusterStep.counting : ClusterStep → Bool
  | .call _ _ request => request.counting
  | _ => true

theorem ClusterStep.allowed_counts {step : ClusterStep} (counting : step.counting = true) :
    step.Allowed Mesh.Counts := by
  cases step with
  | boot k env => trivial
  | stop k env => trivial
  | call k env request =>
      cases request with
      | shorten url aliasCode ttl =>
          cases aliasCode with
          | none => exact ⟨rfl, fun act acts => by cases act <;> first | exact acts | trivial⟩
          | some a => cases counting
      | shortenMany urls ttl =>
          exact ⟨rfl, fun act acts => by cases act <;> first | exact acts | trivial⟩
      | resolve code => exact ⟨rfl, fun act acts => by cases act <;> first | exact acts | trivial⟩
      | flush => exact ⟨rfl, fun act acts => by cases act <;> first | exact acts | trivial⟩
      | poll => exact ⟨rfl, fun act acts => acts.elim⟩
      | update code url ttl hasTtl => cases counting
      | remove code => cases counting
      | compact => cases counting
      | restart => cases counting

/-- After any schedule without changes, removals and compaction in which no
stray map is full, once all instances have flushed and polled, each of them
reports for every code the resolves that all of them served.  A code it does
not know was never given out and never resolved. -/
theorem hits_conserved (schedule : List ClusterStep) (flushOrder pollOrder : List Inst)
    (flushing polling : Inst → Env) (counting : ∀ step ∈ schedule, step.counting = true)
    (flushed : ∀ k, k ∈ flushOrder) (polled : ∀ k, k ∈ pollOrder)
    (whole : ∀ k j, (polling k).short j = 0)
    (room : Along Cluster.step Cluster.Roomy .start
      (schedule ++ settle flushOrder pollOrder flushing polling)) :
    let steps := schedule ++ settle flushOrder pollOrder flushing polling
    let final := Cluster.start.run steps
    ∀ k s, final.nodes k = some s → ∀ c,
      let total := final.served.countP fun hit => hit.2 = c
      s.hits c = some (Int64.ofNat total) ∨
        (s.hits c = none ∧ c ∉ Cluster.start.issued steps ∧ total = 0) := by
  have allowed : ∀ step ∈ schedule, step.Allowed Mesh.Counts := fun step member =>
    ClusterStep.allowed_counts (counting step member)
  have along : Along Cluster.step (fun c step => step.Allowed Mesh.Counts ∧ c.Roomy step) .start
      (schedule ++ settle flushOrder pollOrder flushing polling) := by
    refine room.mono fun step member c roomy => ⟨?_, roomy⟩
    rcases List.mem_append.mp member with before | last
    · exact allowed step before
    · exact allowed_settle (fun _ _ => trivial) step last
  have fresh : Cluster.start.Tracked [] :=
    ⟨_, _, _, .refl, Mesh.sound_start, sims_start, fun _ member => by cases member⟩
  obtain ⟨m, log, buf, steps, sound, sims, present⟩ :=
    Cluster.along_issued (fun _ _ _ tracked guarded => tracked.step guarded.1 guarded.2) fresh along
  have settled := settled_of_sims (fun _ _ => trivial) flushed polled whole allowed sound sims
  intro all final k s running c total
  obtain ⟨p, up, node⟩ := sims.up k s running
  have served : final.served = m.served := sims.served
  have reports := (Mesh.counted_steps steps).reports settled up node.view present c
  rw [← served] at reports
  exact reports

/-- A link of one instance is resolved on another; a third reads the hit
before the row, and the second is closed and opened again. -/
def strayedSchedule : List ClusterStep :=
  [.boot 0 (.at 0 []), .boot 1 (.at 1 []), .boot 2 (.at 2 []),
   .call 0 (.at 3 [drawn]) (.shorten "https://a" none 0), .call 0 (.at 4 []) .flush,
   .call 1 (.at 5 []) (.resolve (genCode 0 drawn)), .call 1 (.at 6 []) .flush,
   .call 2 { Env.at 7 [] with short := fun j => if j = 0 then 9 else 0 } .poll,
   .stop 1 (.at 8 []), .boot 1 (.at 9 []), .call 1 (.at 10 []) (.resolve (genCode 0 drawn)),
   .call 0 (.at 11 []) (.resolve (genCode 0 drawn))]

theorem hits_conserved_strayed :
    let steps := strayedSchedule ++
      settle (List.finRange 62) (List.finRange 62) (fun _ => .at 12 []) fun _ => .at 13 []
    ∃ s, (Cluster.start.run steps).nodes 2 = some s ∧ s.hits (genCode 0 drawn) = some 3 := by
  have total := hits_conserved strayedSchedule (List.finRange 62) (List.finRange 62)
    (fun _ => .at 12 []) (fun _ => .at 13 []) (by decide +kernel) List.mem_finRange
    List.mem_finRange (fun _ _ => rfl) (by decide +kernel)
  have facts : let steps := (strayedSchedule ++
        settle (List.finRange 62) (List.finRange 62) (fun _ => .at 12 []) fun _ => .at 13 [])
      ((Cluster.start.run steps).nodes 2).isSome ∧
      (Cluster.start.run steps).served.countP (fun hit => hit.2 = genCode 0 drawn) = 3 := by
    decide +kernel
  dsimp only at total facts ⊢
  generalize strayedSchedule ++ settle (List.finRange 62) (List.finRange 62)
    (fun _ => .at 12 []) (fun _ => .at 13 []) = steps at total facts ⊢
  obtain ⟨up, three⟩ := facts
  obtain ⟨s, up⟩ := Option.isSome_iff_exists.mp up
  refine ⟨s, up, ?_⟩
  rcases total 2 s up (genCode 0 drawn) with hits | ⟨-, -, unserved⟩
  · rw [hits, three]
    rfl
  · rw [three] at unserved
    cases unserved

end Shrt.Store
