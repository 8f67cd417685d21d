import Mathlib.Data.List.Induction
import Shrt.Store.Replay

/-!
# What a list of records says about one code

Reading the records of one code from left to right, a reader is in one of four
states.  Three of them leave no doubt about the hits of the code.  The fourth
is reached when a row follows hits that had no row: how many of those a replay
still remembers depends on what it evicted in between.
-/

namespace Shrt.Store

open Shrt.Codec Shrt.Lib

inductive Track where
  /-- No row, no hits waiting. -/
  | gone
  /-- No row, but hits were read. -/
  | stray
  /-- A row, with this many hits. -/
  | live (h : Int64)
  /-- A row that took over stray hits. -/
  | tainted
  deriving DecidableEq, Repr

namespace Track

def row (n : Int64) : Track → Track
  | stray => tainted
  | _ => live n

def hit (d : Int64) : Track → Track
  | live h => live (h + d)
  | tainted => tainted
  | _ => stray

theorem hit_gone (d : Int64) : hit d gone = stray := rfl

theorem hit_stray (d : Int64) : hit d stray = stray := rfl

theorem hit_live (d h : Int64) : hit d (live h) = live (h + d) := rfl

theorem hit_tainted (d : Int64) : hit d tainted = tainted := rfl

def step (c : String) (t : Track) : Rec → Track
  | .row c' _ _ _ _ n => if c' = c then t.row n else t
  | .hit c' d _ => if c' = c then t.hit d else t
  | .del c' => if c' = c then gone else t

def run (c : String) (t : Track) (rs : List Rec) : Track :=
  rs.foldl (step c) t

@[simp] theorem run_nil (c : String) (t : Track) : run c t [] = t := rfl

theorem run_cons (c : String) (t : Track) (r : Rec) (rs : List Rec) :
    run c t (r :: rs) = run c (t.step c r) rs := rfl

theorem run_append (c : String) (t : Track) (first second : List Rec) :
    run c t (first ++ second) = run c (run c t first) second :=
  List.foldl_append

theorem step_other {c : String} {r : Rec} (other : r.code ≠ c) (t : Track) :
    t.step c r = t := by
  cases r <;> exact if_neg other

/-- How a view looks at a code in each of the states. -/
def Agrees (v : View) (c : String) : Track → Prop
  | gone => v.index.lookup c = none ∧ v.stray.lookup c = none
  | stray => v.index.lookup c = none
  | live h => ∃ ent, v.index.lookup c = some ent ∧ ent.h = h
  | tainted => ∃ ent, v.index.lookup c = some ent

section Agrees

variable (env : Env) (inst : Inst)

theorem agrees_apply_other {v : View} {c : String} {t : Track} (agrees : Agrees v c t)
    {r : Rec} (ok : r.Ok) (other : c ≠ r.code) : Agrees (apply env inst v r.op) c t := by
  have kept := lookup_apply_other env inst ok other v
  cases t with
  | gone => exact ⟨kept.trans agrees.1, stray_apply_other env inst ok other agrees.2⟩
  | stray => exact kept.trans agrees
  | live h =>
      obtain ⟨ent, found, hits⟩ := agrees
      exact ⟨ent, kept.trans found, hits⟩
  | tainted =>
      obtain ⟨ent, found⟩ := agrees
      exact ⟨ent, kept.trans found⟩

/-- A code that is not in the stray state has no hits waiting. -/
theorem Agrees.waiting {v : View} (tidy : v.Tidy) {c : String} {t : Track}
    (agrees : Agrees v c t) (settled : t ≠ stray) : v.waiting c = ⟨0, 0⟩ := by
  have absent : v.stray.lookup c = none := by
    cases t with
    | gone => exact agrees.2
    | stray => exact absurd rfl settled
    | live h =>
        obtain ⟨ent, found, -⟩ := agrees
        exact tidy c (by simp [found])
    | tainted =>
        obtain ⟨ent, found⟩ := agrees
        exact tidy c (by simp [found])
  rw [View.waiting, absent]
  rfl

theorem agrees_apply {v : View} (tidy : v.Tidy) {c : String} {t : Track}
    (agrees : Agrees v c t) {r : Rec} (ok : r.Ok) :
    Agrees (apply env inst v r.op) c (t.step c r) := by
  by_cases same : c = r.code
  · subst same
    cases r with
    | row c u a e i n =>
        simp only [step, Rec.code, if_true]
        rw [apply_row env inst ok]
        by_cases waits : t = stray
        · subst waits
          exact ⟨_, AList.lookup_insert _⟩
        · have settled : t.row n = live n := by
            cases t <;> first | rfl | exact absurd rfl waits
          rw [settled]
          refine ⟨_, AList.lookup_insert _, ?_⟩
          rw [show v.waiting c = ⟨0, 0⟩ from agrees.waiting tidy waits]
          simp
    | del c =>
        simp only [step, Rec.code, if_true]
        rw [apply_del env inst ok]
        exact ⟨AList.lookup_erase c v.index, AList.lookup_erase c v.stray⟩
    | hit c d i =>
        simp only [step, Rec.code, if_true]
        cases t with
        | gone =>
            rw [apply_hit_stray env inst ok agrees.1]
            exact agrees.1
        | stray =>
            rw [apply_hit_stray env inst ok agrees]
            exact agrees
        | live h =>
            obtain ⟨ent, found, rfl⟩ := agrees
            rw [apply_hit_live env inst ok found]
            exact ⟨_, AList.lookup_insert _, rfl⟩
        | tainted =>
            obtain ⟨ent, found⟩ := agrees
            rw [apply_hit_live env inst ok found]
            exact ⟨_, AList.lookup_insert _⟩
  · rw [step_other (Ne.symm same)]
    exact agrees_apply_other env inst agrees ok same

theorem agrees_replay {v : View} (tidy : v.Tidy) {c : String} {t : Track}
    (agrees : Agrees v c t) {rs : List Rec} (ok : AllOk rs) :
    Agrees (replay env inst v rs) c (run c t rs) := by
  induction rs generalizing v t with
  | nil => exact agrees
  | cons r rs ih =>
      have okHead : r.Ok := ok r List.mem_cons_self
      exact ih (tidy_apply env inst tidy okHead) (agrees_apply env inst tidy agrees okHead)
        (fun s hs => ok s (List.mem_cons_of_mem _ hs))

theorem agrees_replay_empty (c : String) {rs : List Rec} (ok : AllOk rs) :
    Agrees (replay env inst .empty rs) c (run c gone rs) :=
  agrees_replay (t := gone) env inst tidy_empty ⟨rfl, rfl⟩ ok

end Agrees

/-! ## Runs over batches -/

/-- Hits add up on a live code. -/
theorem run_hits {c : String} {rs : List Rec} (hits : OnlyHits c rs) (h : Int64) :
    run c (live h) rs = live (h + hitSum c rs) := by
  induction rs generalizing h with
  | nil => simp
  | cons r rs ih =>
      have hitsTail : OnlyHits c rs := fun s hs => hits s (List.mem_cons_of_mem _ hs)
      rw [run_cons, hitSum_cons]
      by_cases same : r.code = c
      · obtain ⟨d, i, rfl⟩ := hits r List.mem_cons_self same
        simp only [step, if_true, hit_live, recHits]
        rw [ih hitsTail, Int64.add_assoc]
      · rw [step_other same, ih hitsTail, recHits_other same, Int64.zero_add]

/-- A code that ends in the stray state was last named by a hit. -/
theorem endsInHit_of_stray {c : String} (plain : Plain c) {rs : List Rec}
    (ends : run c gone rs = stray) : EndsInHit c (rs.map Rec.op) := by
  induction rs using List.reverseRecOn with
  | nil => cases ends
  | append_singleton rs r ih =>
      rw [run_append] at ends
      rw [EndsInHit, List.map_append, List.map_singleton, lastAbout_snoc]
      by_cases same : c = r.code
      · rw [if_pos ((opAbout_op r plain).mpr same)]
        subst same
        cases r with
        | row c u a e i n =>
            exfalso
            revert ends
            simp only [run, List.foldl_cons, List.foldl_nil, step, Rec.code, if_true]
            cases List.foldl (step c) gone rs <;> simp [row]
        | hit c d i => exact ⟨_, rfl, rfl⟩
        | del c =>
            exfalso
            revert ends
            simp [run, step, Rec.code]
      · rw [if_neg (fun h => same ((opAbout_op r plain).mp h))]
        apply ih
        simpa [run, step_other (Ne.symm same)] using ends

/-- Snapshot rows of distinct codes set the codes to their own hits. -/
theorem run_snapshot {l : List (String × Entry)} (distinct : (l.map Prod.fst).Nodup)
    (c : String) :
    run c gone (l.map Inner.snapshotRow) =
      ((l.find? fun ce => ce.1 = c).map fun ce => live ce.2.oh).getD gone := by
  suffices ∀ t, t ≠ stray → run c t (l.map Inner.snapshotRow) =
      ((l.find? fun ce => ce.1 = c).map fun ce => live ce.2.oh).getD t from
    this gone (by simp)
  intro t settled
  induction l generalizing t with
  | nil => rfl
  | cons ce l ih =>
      obtain ⟨absent, distinct⟩ := List.nodup_cons.mp distinct
      rw [List.map_cons, run_cons, List.find?_cons]
      by_cases same : ce.1 = c
      · have later : l.find? (fun x => x.1 = c) = none := find?_key_eq_none (same ▸ absent)
        have stepped : step c t (Inner.snapshotRow ce) = live ce.2.oh := by
          simp only [step, Inner.snapshotRow, same, if_true]
          cases t <;> first | rfl | exact absurd rfl settled
        rw [stepped, ih distinct _ (by simp), later]
        simp [same]
      · have other : (Inner.snapshotRow ce).code ≠ c := same
        rw [step_other other, ih distinct t settled]
        simp [same]

/-! ## What the start of a run still decides -/

/-- From the tainted state a run ends live only through a later row, which
does not see the state before it. -/
theorem run_live_of_tainted {c : String} {rs : List Rec} {h : Int64}
    (ends : run c tainted rs = live h) (x : Int64) : run c (live x) rs = live h := by
  induction rs generalizing x with
  | nil => cases ends
  | cons r rs ih =>
      rw [run_cons] at ends ⊢
      by_cases same : r.code = c
      · cases r with
        | row c' u a e i n =>
            cases same
            simpa [step, row, Rec.code] using ends
        | hit c' d i =>
            cases same
            simp only [step, hit_live, hit_tainted, Rec.code, if_true] at ends ⊢
            exact ih ends _
        | del c' =>
            cases same
            simpa [step, Rec.code] using ends
      · rw [step_other same] at ends ⊢
        exact ih ends x

/-- Once a code is assigned, a run that ends live ends alike from every live
start. -/
theorem run_live_of_assigned {c : String} {rs : List Rec} (assigned : ¬ OnlyHits c rs)
    {t : Track} {h : Int64} (ends : run c t rs = live h) (x : Int64) :
    run c (live x) rs = live h := by
  induction rs generalizing t x with
  | nil => exact absurd (fun r member => by cases member) assigned
  | cons r rs ih =>
      rw [run_cons] at ends ⊢
      by_cases same : r.code = c
      · cases r with
        | row c' u a e i n =>
            cases same
            simp only [step, Rec.code, if_true] at ends ⊢
            cases t with
            | stray => exact run_live_of_tainted ends n
            | gone => exact ends
            | live _ => exact ends
            | tainted => exact ends
        | hit c' d i =>
            cases same
            simp only [step, Rec.code, if_true, hit_live] at ends ⊢
            refine ih (fun only => assigned ?_) ends _
            intro r member named
            rcases List.mem_cons.mp member with rfl | later
            · exact ⟨d, i, rfl⟩
            · exact only r later named
        | del c' =>
            cases same
            simpa [step, Rec.code] using ends
      · rw [step_other same] at ends ⊢
        refine ih (fun only => assigned ?_) ends x
        intro s member named
        rcases List.mem_cons.mp member with rfl | later
        · exact absurd named same
        · exact only s later named

def NoRow (c : String) (rs : List Rec) : Prop :=
  ∀ r ∈ rs, r.code = c → ∀ u a e i n, r ≠ .row c u a e i n

/-- Without a row, a code that is not live stays so. -/
theorem run_ne_live {c : String} {rs : List Rec} (none : NoRow c rs) {t : Track}
    (dead : t = gone ∨ t = stray) (h : Int64) : run c t rs ≠ live h := by
  induction rs generalizing t with
  | nil => rcases dead with rfl | rfl <;> simp
  | cons r rs ih =>
      rw [run_cons]
      apply ih (fun s hs => none s (List.mem_cons_of_mem _ hs))
      by_cases same : r.code = c
      · cases r with
        | row c' u a e i n =>
            cases same
            exact absurd rfl (none _ List.mem_cons_self rfl u a e i n)
        | hit c' d i =>
            cases same
            rcases dead with rfl | rfl <;> simp [step, hit_gone, hit_stray, Rec.code]
        | del c' =>
            cases same
            simp [step, Rec.code]
      · rw [step_other same]
        exact dead

/-- A code that ends live without a row was not removed either. -/
theorem onlyHits_of_noRow {c : String} {rs : List Rec} (none : NoRow c rs) {t : Track}
    {h : Int64} (ends : run c t rs = live h) : OnlyHits c rs := by
  induction rs generalizing t with
  | nil => exact fun r member => by cases member
  | cons r rs ih =>
      have noneTail : NoRow c rs := fun s hs => none s (List.mem_cons_of_mem _ hs)
      intro s member named
      rcases List.mem_cons.mp member with rfl | later
      · cases s with
        | row c' u a e i n =>
            cases named
            exact absurd rfl (none _ List.mem_cons_self rfl u a e i n)
        | hit c' d i =>
            cases named
            exact ⟨d, i, rfl⟩
        | del c' =>
            cases named
            rw [run_cons] at ends
            simp only [step, Rec.code, if_true] at ends
            exact absurd ends (run_ne_live noneTail (Or.inl rfl) h)
      · exact ih noneTail ends s later named

end Track

end Shrt.Store
