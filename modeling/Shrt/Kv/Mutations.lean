import Mathlib.Data.List.Basic
import Shrt.Kv.Interleaved
import Shrt.Lib.Linear

/-!
# Updates and removes of one code

The two calls that change a row that is there, cut into the same steps as
before, no command failing.  An update takes effect when it writes and a remove
when it deletes, or where they find no row.  Made in one go at that moment, an
update writes the same row if the one it has read is still there.
-/

namespace Shrt.Kv

open Shrt.Codec Shrt.Lib Shrt.Lib.Utf8 Shrt.Lib.ReadThrough
open Shrt.Store (MutResult)
open Shrt.Store.Inner (expiry)

/-- An update, or a remove if nothing is asked for. -/
structure Mutation (ε : Type) where
  asked : Option Change
  env : ε

namespace Mutation

variable {σ ε τ ρ υ : Type}

def outcome : Call ρ Change υ → Option MutResult
  | .deleted _ => some .ok
  | .wrote _ => some .ok
  | .returned (some _) => some .ok
  | .returned none => some .missing
  | _ => none

def calls (parts : Parts σ τ ρ Change υ) (given : ε → τ)
    (whole : Mutation ε → σ → MutResult × σ) :
    Linear.Calls σ (Mutation ε) (Call ρ Change υ) MutResult where
  start m := m.asked.elim .removing .updating
  next m s p :=
    let out := parts.next 0 s (given m.env) p
    (out.store, out.call)
  answer := outcome
  whole := whole

/-- Where a call can stand. -/
def Stands (m : Mutation ε) : Call ρ Change υ → Prop
  | .updating change => m.asked = some change
  | .loaded change _ => m.asked = some change
  | .removing => m.asked = none
  | .probed => m.asked = none
  | .deleted _ => m.asked = none
  | .gone => True
  | .wrote _ => True
  | .returned _ => True
  | _ => False

theorem stands_start (m : Mutation ε) : m.Stands (m.asked.elim .removing .updating : Call ρ Change υ) := by
  cases asked : m.asked with
  | none => exact asked
  | some change => exact asked

theorem outcome_start (m : Mutation ε) :
    outcome (m.asked.elim .removing .updating : Call ρ Change υ) = none := by
  cases m.asked with
  | none => rfl
  | some change => rfl

theorem stands_afterWrite {m : Mutation ε} (done : Fate × σ) (value : Option υ)
    {next : Call ρ Change υ} (stands : m.Stands next) :
    m.Stands (Parts.afterWrite done value next).call := by
  rcases Parts.afterWrite_call done value next with ⟨here, -⟩ | here
  · rwa [here]
  · rw [here]
    trivial

theorem stands_next {m : Mutation ε} {parts : Parts σ τ ρ Change υ} {s : σ} {e : τ}
    {p : Call ρ Change υ} (stands : m.Stands p) : m.Stands (parts.next 0 s e p).call := by
  cases p with
  | updating change =>
      simp only [Parts.next]
      cases (parts.load e s).1 with
      | row r => exact stands
      | absent => trivial
      | dead => trivial
  | removing =>
      simp only [Parts.next]
      cases (parts.probe e s).1 with
      | row r => exact stands
      | absent => trivial
      | dead => trivial
  | loaded change r => exact stands_afterWrite _ _ trivial
  | probed => exact stands_afterWrite _ _ stands
  | deleted write => trivial
  | gone => trivial
  | wrote write => trivial
  | returned write => trivial
  | resolving => cases stands
  | missed => cases stands
  | fetched seen r => cases stands
  | expired => cases stands
  | answered value => cases stands

/-- A result stays. -/
theorem outcome_next {parts : Parts σ τ ρ Change υ} {s : σ} {e : τ} {p : Call ρ Change υ}
    {b : MutResult} (answered : outcome p = some b) : outcome (parts.next 0 s e p).call = some b := by
  cases p with
  | deleted write => exact answered
  | wrote write => exact answered
  | returned write => exact answered
  | _ => cases answered

/-- The calls that delete a link. -/
def Deletes (m : Mutation ε) (result : MutResult) : Prop :=
  m.asked = none ∧ result = .ok

end Mutation

namespace KvStore

/-! ## The row with its deadline -/

/-- The layout, and what the server holds as the row of a code. -/
def held (code : String) (s : KvStore) : Layout × Option Stored :=
  (s.layout, match s.layout with
    | .hash => (s.kv.hget (bkey code s.buckets) (encode code)).map fun v => ⟨v, none⟩
    | .key => s.kv.strings.lookup (lkey code))

theorem kvGet_eq (code : String) (s : KvStore) : s.kvGet code = (s.held code).2.map Stored.value := by
  obtain ⟨kv, cache, dirty, inst, layout, buckets⟩ := s
  cases layout with
  | hash => simp [kvGet, held, Function.comp_def]
  | key => rfl

/-- What is left of a row at a step. -/
def faded (env : KvEnv) (t : Nat) (code : String) (row : Layout × Option Stored) :
    Layout × Option Stored :=
  (row.1, match row.1 with
    | .hash => row.2
    | .key => row.2.filter fun st => !(env.evicts t (lkey code) && st.due (env.clock t)))

theorem held_atStep (code : String) (s : KvStore) (env : KvEnv) (t : Nat) :
    (s.atStep env t).held code = faded env t code (s.held code) := by
  obtain ⟨kv, cache, dirty, inst, layout, buckets⟩ := s
  cases layout with
  | hash => rfl
  | key =>
      simp only [held, faded, atStep]
      rw [Redis.lookup_evict_eq]

theorem held_setRow (code : String) (s : KvStore) (now : Int64) (v : Bytes) (px : Int64) :
    (s.setRow now code v px).held code =
      (s.layout, some ⟨v, match s.layout with
        | .hash => none
        | .key => if px > 0 then some (now.toInt + px.toInt) else none⟩) := by
  obtain ⟨kv, cache, dirty, inst, layout, buckets⟩ := s
  cases layout with
  | hash =>
      simp only [held, setRow, Redis.hget_hset, and_self, if_true, Option.map_some]
  | key =>
      simp only [held, setRow, Redis.set, Redis.setString, Bool.false_and, Bool.false_eq_true,
        if_false, Map.lookup_insert_eq, if_true]

theorem held_delRow (code : String) (s : KvStore) : (s.delRow code).2.held code = (s.layout, none) := by
  obtain ⟨kv, cache, dirty, inst, layout, buckets⟩ := s
  cases layout with
  | hash => simp only [held, delRow, Redis.hget_hdel, and_self, if_true, Option.map_none]
  | key => simp only [held, delRow, Redis.del, Map.lookup_erase_eq, if_true]

/-- Deleting the hits brings no row back. -/
theorem held_delHits {code : String} {s : KvStore} (absent : (s.held code).2 = none) :
    (s.delHits code).held code = s.held code := by
  obtain ⟨kv, cache, dirty, inst, layout, buckets⟩ := s
  refine Prod.ext rfl ?_
  rw [absent]
  cases layout with
  | hash =>
      simp only [held, Option.map_eq_none_iff] at absent
      simp only [held, delHits, Redis.hget_hdel, absent, ite_self, Option.map_none]
  | key =>
      simp only [held] at absent
      simp only [held, delHits, Redis.del, Map.lookup_erase_eq, absent, ite_self]

theorem faded_none {env : KvEnv} {t : Nat} {code : String} {row : Layout × Option Stored}
    (absent : row.2 = none) : faded env t code row = row := by
  obtain ⟨layout, st⟩ := row
  cases absent
  cases layout with
  | hash => rfl
  | key => rfl

/-- A row that is read has not faded. -/
theorem held_of_row {code : String} {s : KvStore} {env : KvEnv} {t : Nat} {r : Row}
    (shown : (s.atStep env t).row code = some r) : (s.atStep env t).held code = s.held code := by
  rw [row, kvGet_eq, held_atStep] at shown
  rw [held_atStep]
  generalize s.held code = h at shown ⊢
  obtain ⟨layout, st⟩ := h
  cases layout with
  | hash => rfl
  | key =>
      simp only [faded, Option.bind_eq_some_iff, Option.map_eq_some_iff] at shown
      obtain ⟨v, ⟨st', kept, -⟩, -⟩ := shown
      exact Prod.ext rfl (kept.trans (Option.filter_eq_some_iff.mp kept).1.symm)

/-! ## The calls in one go -/

def mutate (code : String) (m : Mutation KvEnv) (s : KvStore) : MutResult × KvStore :=
  match m.asked with
  | some change => s.update m.env code change.url change.ttl change.hasTtl
  | none => s.remove m.env code

section Whole

variable {code : String} {s s' : KvStore} {m : Mutation KvEnv}

theorem held_drop (code : String) (s : KvStore) : ((parts code).drop s).held code = s.held code := rfl

theorem row_eq (code : String) (s : KvStore) :
    s.row code = ((s.held code).2.map Stored.value).bind decVal := by
  rw [row, kvGet_eq]

/-- The row that an update leaves. -/
theorem held_rewrite (code : String) (s : KvStore) (env : KvEnv) (row : Row) (change : Change) :
    (s.rewrite env code row change).held code =
      let exp := if change.hasTtl then expiry (env.clock 1) change.ttl else row.e
      let px := if exp > 0 then exp - env.clock 2 else 0
      (s.layout, some ⟨encVal exp row.c change.url, match s.layout with
        | .hash => none
        | .key => if px > 0 then some ((env.clock 3).toInt + px.toInt) else none⟩) :=
  held_setRow code _ _ _ _

theorem mutate_update_missing {change : Change} (asked : m.asked = some change)
    (absent : (s.atStep m.env 0).row code = none) :
    s.mutate code m = (.missing, s.atStep m.env 0) := by
  rw [mutate, asked]
  simp only [update_steps, parts, found, absent, if_true, Option.elim_none]

theorem mutate_update_ok {change : Change} {r : Row} (asked : m.asked = some change)
    (shown : (s.atStep m.env 0).row code = some r) :
    s.mutate code m =
      (.ok, (parts code).drop ((s.atStep m.env 0).rewrite m.env code r change)) := by
  rw [mutate, asked]
  simp only [update_steps, parts, found, shown, if_true, Option.elim_some, reduceCtorEq, if_false]

theorem mutate_remove_missing (asked : m.asked = none)
    (absent : (s.atStep m.env 0).kvGet code = none) :
    s.mutate code m = (.missing, ((s.atStep m.env 0).delRow code).2) := by
  have failed : ((s.atStep m.env 0).delRow code).1 = false := by
    rw [fst_delRow, absent]
    rfl
  rw [mutate, asked]
  simp only [remove, failed, Bool.false_eq_true, if_false]

theorem mutate_remove_ok (asked : m.asked = none)
    (present : (s.atStep m.env 0).kvGet code ≠ none) :
    (s.mutate code m).1 = .ok ∧ (s.mutate code m).2.held code = (s.layout, none) := by
  have done : ((s.atStep m.env 0).delRow code).1 = true := by
    rw [fst_delRow, Option.isSome_iff_ne_none]
    exact present
  have gone : (((s.atStep m.env 0).delRow code).2.atStep m.env 1).held code = (s.layout, none) := by
    rw [held_atStep, held_delRow]
    exact faded_none rfl
  rw [mutate, asked]
  simp only [remove, done, if_true, true_and]
  exact (held_delHits (congrArg Prod.snd gone)).trans gone

/-- A call depends on the row only. -/
theorem mutate_congr (same : s.held code = s'.held code) :
    (s.mutate code m).1 = (s'.mutate code m).1 ∧
      (s.mutate code m).2.held code = (s'.mutate code m).2.held code := by
  have read : (s.atStep m.env 0).held code = (s'.atStep m.env 0).held code := by
    rw [held_atStep, held_atStep, same]
  have layouts : s.layout = s'.layout := congrArg Prod.fst same
  cases asked : m.asked with
  | some change =>
      have rows : (s.atStep m.env 0).row code = (s'.atStep m.env 0).row code := by
        rw [row_eq, row_eq, read]
      cases shown : (s.atStep m.env 0).row code with
      | none =>
          rw [mutate_update_missing asked shown, mutate_update_missing asked (rows ▸ shown)]
          exact ⟨rfl, read⟩
      | some r =>
          rw [mutate_update_ok asked shown, mutate_update_ok asked (rows ▸ shown)]
          refine ⟨rfl, ?_⟩
          rw [held_drop, held_drop, held_rewrite, held_rewrite]
          simp only [atStep, layouts]
  | none =>
      have rows : (s.atStep m.env 0).kvGet code = (s'.atStep m.env 0).kvGet code := by
        rw [kvGet_eq, kvGet_eq, read]
      by_cases absent : (s.atStep m.env 0).kvGet code = none
      · rw [mutate_remove_missing asked absent, mutate_remove_missing asked (rows ▸ absent)]
        refine ⟨rfl, ?_⟩
        rw [held_delRow, held_delRow]
        exact Prod.ext layouts rfl
      · have one := mutate_remove_ok asked absent
        have two := mutate_remove_ok (s := s') asked (rows ▸ absent)
        rw [one.1, one.2, two.1, two.2, layouts]
        exact ⟨rfl, rfl⟩

end Whole

/-! ## The calls in steps -/

def mutations (code : String) :
    Linear.Calls KvStore (Mutation KvEnv) (Call Row Change String) MutResult :=
  Mutation.calls (parts code) (fun env => ⟨env, .done⟩) fun m s => s.mutate code m

/-- The same call at the same times; what the server evicts is its own choice. -/
def SameCall (m m' : Mutation KvEnv) : Prop :=
  m'.asked = m.asked ∧ m'.env.clock = m.env.clock

/-- The server holds no row. -/
def Gone (code : String) (s : KvStore) : Prop :=
  (s.held code).2 = none

/-- An update that writes finds the row that it has read, as far as the new row
depends on it. -/
def unmoved (code : String) (_ : Mutation KvEnv) (s : KvStore) : Call Row Change String → Bool
  | .loaded change row =>
      (s.row code).any fun now => now.c = row.c && (change.hasTtl || now.e = row.e)
  | _ => true

/-- Where a call can stand; the server reports no dead row. -/
def Stands (m : Mutation KvEnv) (p : Call Row Change String) : Prop :=
  m.Stands p ∧ p ≠ .gone

theorem atStep_spared {env : KvEnv} {t : Nat} (spared : ∀ k, env.evicts t k = false) (s : KvStore) :
    s.atStep env t = s := by
  have none_chosen : (s.kv.strings.pairs.filter fun kv =>
      env.evicts t kv.1 && Stored.due (env.clock t) kv.2) = [] := by
    simp [spared]
  rw [atStep, Redis.evict, none_chosen]
  rfl

section Steps

variable {code : String} {s : KvStore} {m : Mutation KvEnv} {b : MutResult}

theorem next_updating (change : Change) :
    (mutations code).next m s (.updating change) =
      (s.atStep m.env 0, ((s.atStep m.env 0).row code).elim (.returned none) (.loaded change)) := by
  refine Prod.ext rfl ?_
  simp only [mutations, Mutation.calls, Parts.next, parts, found, if_true]
  cases (s.atStep m.env 0).row code with
  | none => rfl
  | some r => rfl

theorem next_probed :
    (mutations code).next m s .probed =
      (((s.atStep m.env 0).delRow code).2,
        if (s.atStep m.env 0).kvGet code = none then .returned none else .deleted 0) := by
  have done := fst_delRow (s.atStep m.env 0) code
  simp only [mutations, Mutation.calls, Parts.next, parts, Parts.afterWrite, done, reduceCtorEq,
    if_false]
  cases (s.atStep m.env 0).kvGet code with
  | none => rfl
  | some v => rfl

/-- The first look at the row, without an eviction. -/
def unhurried (m : Mutation KvEnv) : Mutation KvEnv where
  asked := m.asked
  env := { m.env with evicts := fun t k => t ≠ 0 && m.env.evicts t k }

/-- A write that finds the row it depends on is the whole update. -/
theorem effect_write {change : Change} {row : Row} (asked : m.asked = some change)
    (fine : unmoved code m s (.loaded change row) = true) :
    (s.mutate code (unhurried m)).1 = .ok ∧
      (s.mutate code (unhurried m)).2.held code = (s.rewrite m.env code row change).held code := by
  have still : s.atStep (unhurried m).env 0 = s := atStep_spared (fun _ => rfl) s
  obtain ⟨now, shown, agrees⟩ := (Option.any_eq_true _ _).mp fine
  rw [Bool.and_eq_true, Bool.or_eq_true, decide_eq_true_eq, decide_eq_true_eq] at agrees
  have exp_eq : (if change.hasTtl then expiry (m.env.clock 1) change.ttl else now.e) =
      if change.hasTtl then expiry (m.env.clock 1) change.ttl else row.e := by
    rcases agrees.2 with given | same
    · rw [if_pos given, if_pos given]
    · rw [same]
  have shown' : (s.atStep (unhurried m).env 0).row code = some now := by
    rw [still]
    exact shown
  have asked' : (unhurried m).asked = some change := asked
  rw [mutate_update_ok asked' shown', held_drop, still, held_rewrite, held_rewrite]
  refine ⟨rfl, ?_⟩
  simp only [unhurried, exp_eq, agrees.1]

theorem effect {p : Call Row Change String} (stands : Stands m p)
    (fine : unmoved code m s p = true) (open_call : Mutation.outcome p = none)
    (answered : Mutation.outcome ((mutations code).next m s p).2 = some b) :
    ∃ m', SameCall m m' ∧ (s.mutate code m').1 = b ∧
      (s.mutate code m').2.held code = ((mutations code).next m s p).1.held code := by
  obtain ⟨stands, live⟩ := stands
  cases p with
  | updating change =>
      rw [next_updating] at answered ⊢
      cases shown : (s.atStep m.env 0).row code with
      | none =>
          rw [shown] at answered
          cases answered
          refine ⟨m, ⟨rfl, rfl⟩, ?_⟩
          rw [mutate_update_missing stands shown]
          exact ⟨rfl, rfl⟩
      | some r =>
          rw [shown] at answered
          cases answered
  | loaded change row =>
      cases answered
      exact ⟨unhurried m, ⟨rfl, rfl⟩, effect_write stands fine⟩
  | removing => cases answered
  | probed =>
      rw [next_probed] at answered ⊢
      refine ⟨m, ⟨rfl, rfl⟩, ?_⟩
      by_cases absent : (s.atStep m.env 0).kvGet code = none
      · rw [if_pos absent] at answered
        cases answered
        rw [mutate_remove_missing stands absent]
        exact ⟨rfl, rfl⟩
      · rw [if_neg absent] at answered
        cases answered
        have done := mutate_remove_ok stands absent
        rw [held_delRow]
        exact done
  | gone => exact absurd rfl live
  | deleted write => cases open_call
  | wrote write => cases open_call
  | returned write => cases write <;> cases open_call
  | resolving => cases stands
  | missed => cases stands
  | fetched seen r => cases stands
  | expired => cases stands
  | answered value => cases stands

/-- The other steps leave the row as it is. -/
theorem silent {p : Call Row Change String} (stands : Stands m p)
    (same : Mutation.outcome ((mutations code).next m s p).2 = Mutation.outcome p)
    (closed : ∀ b, Mutation.outcome p = some b → m.Deletes b → Gone code s) :
    ((mutations code).next m s p).1.held code = s.held code := by
  obtain ⟨stands, live⟩ := stands
  cases p with
  | updating change =>
      rw [next_updating] at same ⊢
      cases shown : (s.atStep m.env 0).row code with
      | none =>
          rw [shown] at same
          cases same
      | some r => exact held_of_row shown
  | loaded change row => cases same
  | removing => rfl
  | probed =>
      rw [next_probed] at same
      split at same
      · cases same
      · cases same
  | deleted write =>
      have absent : (s.held code).2 = none := closed .ok rfl ⟨stands, rfl⟩
      have later : (s.atStep m.env 1).held code = s.held code := by
        rw [held_atStep, faded_none absent]
      have cleared : ((s.atStep m.env 1).delHits code).held code = (s.atStep m.env 1).held code :=
        held_delHits (by rw [later, absent])
      exact cleared.trans later
  | gone => exact absurd rfl live
  | wrote write => rfl
  | returned write => rfl
  | resolving => cases stands
  | missed => cases stands
  | fetched seen r => cases stands
  | expired => cases stands
  | answered value => cases stands

theorem ne_gone_next {p : Call Row Change String} (stands : Stands m p) :
    ((mutations code).next m s p).2 ≠ .gone := by
  obtain ⟨stands, live⟩ := stands
  cases p with
  | updating change =>
      rw [next_updating]
      cases (s.atStep m.env 0).row code with
      | none => exact fun gone => nomatch gone
      | some r => exact fun gone => nomatch gone
  | probed =>
      rw [next_probed]
      split
      · exact fun gone => nomatch gone
      · exact fun gone => nomatch gone
  | gone => exact absurd rfl live
  | loaded change row => exact fun gone => nomatch gone
  | removing => exact fun gone => nomatch gone
  | deleted write => exact fun gone => nomatch gone
  | wrote write => exact fun gone => nomatch gone
  | returned write => exact fun gone => nomatch gone
  | resolving => cases stands
  | missed => cases stands
  | fetched seen r => cases stands
  | expired => cases stands
  | answered value => cases stands

theorem gone_of_deletes (deletes : m.Deletes (s.mutate code m).1) :
    Gone code (s.mutate code m).2 := by
  obtain ⟨asked, done⟩ := deletes
  by_cases absent : (s.atStep m.env 0).kvGet code = none
  · rw [mutate_remove_missing asked absent] at done
    cases done
  · rw [Gone, (mutate_remove_ok asked absent).2]

/-- Neither call creates a row. -/
theorem gone_mutate (gone : Gone code s) : Gone code (s.mutate code m).2 := by
  have read : (s.atStep m.env 0).held code = s.held code := by
    rw [held_atStep]
    exact faded_none gone
  have missing : (s.atStep m.env 0).kvGet code = none := by
    rw [kvGet_eq, read, gone]
    rfl
  cases asked : m.asked with
  | some change =>
      have absent : (s.atStep m.env 0).row code = none := by
        rw [KvStore.row, missing]
        rfl
      rw [mutate_update_missing asked absent, Gone, read]
      exact gone
  | none => rw [mutate_remove_missing asked missing, Gone, held_delRow]

end Steps

theorem lawful_mutations (code : String) :
    (mutations code).Lawful SameCall (held code) Stands Mutation.Deletes (Gone code)
      (unmoved code) where
  at_start m := by
    refine ⟨m.stands_start, ?_⟩
    simp only [mutations, Mutation.calls]
    cases m.asked with
    | none => exact fun gone => nomatch gone
    | some change => exact fun gone => nomatch gone
  at_next _ _ _ stands := ⟨Mutation.stands_next stands.1, ne_gone_next stands⟩
  unanswered m := m.outcome_start
  final _ _ _ _ answered := Mutation.outcome_next answered
  congr _ _ _ same := mutate_congr same
  like_closes _ _ _ like closes := ⟨like.1.trans closes.1, closes.2⟩
  closed_congr _ _ same gone := by
    rw [Gone, ← same]
    exact gone
  closing _ _ deletes := gone_of_deletes deletes
  closed _ _ gone := gone_mutate gone
  silent _ _ _ stands same closed := silent stands same closed
  effect _ _ _ _ stands fine open_call answered := effect stands fine open_call answered

end KvStore

end Shrt.Kv
