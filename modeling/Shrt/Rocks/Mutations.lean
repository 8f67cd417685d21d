import Mathlib.Data.List.Basic
import Shrt.Kv.Mutations
import Shrt.Rocks.Interleaved

/-!
# Updates and removes in a sequential order

In the embedded database both calls look at the row first, with their own
reading of the clock, and then write, delete or reap it without looking again.
As long as each of these finds the row as the call has read it, every run of
updates and removes has a sequential order, in either store.
-/

namespace Shrt.Rocks

open Shrt.Codec Shrt.Lib Shrt.Lib.Utf8 Shrt.Lib.ReadThrough Shrt.Kv
open Shrt.Store (MutResult)

namespace RocksStore

def mutate (code : String) (m : Mutation RocksEnv) (s : RocksStore) : MutResult × RocksStore :=
  match m.asked with
  | some change => s.update m.env code change.url change.ttl change.hasTtl
  | none => s.remove m.env code

def mutations (code : String) :
    Linear.Calls RocksStore (Mutation RocksEnv) (Call Row Change String) MutResult :=
  Mutation.calls (parts code) (fun env => ⟨env, .done⟩) fun m s => s.mutate code m

def held (code : String) (s : RocksStore) : Option Bytes :=
  s.db.lookup (encode code)

def seen (code : String) (m : Mutation RocksEnv) (s : RocksStore) : Found Row :=
  peek .done (m.env.clock 0) s code

/-- A call that writes, deletes or reaps finds the row as it has read it, as far
as what it does depends on it. -/
def unmoved (code : String) (m : Mutation RocksEnv) (s : RocksStore) :
    Call Row Change String → Bool
  | .loaded change row =>
      (seen code m s).elim (fun now => now.c = row.c && (change.hasTtl || now.e = row.e)) false false
  | .probed => (seen code m s).elim (fun _ => true) false false
  | .gone => (seen code m s).elim (fun _ => false) (s.held code).isNone true
  | _ => true

section Whole

variable {code : String} {s s' : RocksStore} {m : Mutation RocksEnv}

theorem seen_congr (same : s.held code = s'.held code) : seen code m s = seen code m s' := by
  have stored_eq : s.stored code = s'.stored code := congrArg (Option.bind · decVal) same
  rw [seen, seen, peek, peek, stored_eq]

theorem seen_gone (gone : s.held code = none) : seen code m s = .absent := by
  have stored_eq : s.stored code = none := congrArg (Option.bind · decVal) gone
  rw [seen, peek, if_pos rfl, stored_eq]

theorem held_reap (code : String) (s : RocksStore) : (s.reap code).held code = none := by
  rw [held, reap, Map.lookup_erase_eq, if_pos rfl]

theorem held_delete (code : String) (s : RocksStore) : (s.delete code).held code = none := by
  rw [held, delete, Map.lookup_erase_eq, if_pos rfl]

/-- The row that an update leaves. -/
theorem held_rewrite (code : String) (s : RocksStore) (now : Int64) (row : Row) (url : String)
    (ttl : Int64) (hasTtl : Bool) :
    (rewrite now s code row url ttl hasTtl).held code =
      some (encVal (if hasTtl then now + max ttl 0 else row.e) row.c url) := by
  rw [held, rewrite, Map.lookup_insert_eq, if_pos rfl]

theorem mutate_update {change : Change} (asked : m.asked = some change) :
    s.mutate code m = (seen code m s).elim
      (fun row => (.ok, (parts code).drop
        (rewrite (m.env.clock 1) s code row change.url change.ttl change.hasTtl)))
      (.missing, s) (.missing, s.reap code) := by
  rw [mutate, asked]
  exact update_steps m.env s code change

theorem mutate_remove (asked : m.asked = none) :
    s.mutate code m = (seen code m s).elim (fun _ => (.ok, (parts code).drop (s.delete code)))
      (.missing, s) (.missing, s.reap code) := by
  rw [mutate, asked]
  have steps := remove_steps m.env s code
  simp only [parts] at steps
  rw [steps, seen]
  cases peek .done (m.env.clock 0) s code with
  | row row => rfl
  | absent => rfl
  | dead => rfl

theorem held_drop (code : String) (s : RocksStore) : ((parts code).drop s).held code = s.held code :=
  rfl

/-- A call depends on the row only. -/
theorem mutate_congr (same : s.held code = s'.held code) :
    (s.mutate code m).1 = (s'.mutate code m).1 ∧
      (s.mutate code m).2.held code = (s'.mutate code m).2.held code := by
  cases asked : m.asked with
  | some change =>
      rw [mutate_update asked, mutate_update asked, seen_congr same]
      cases seen code m s' with
      | row row =>
          refine ⟨rfl, ?_⟩
          simp only [Found.elim, held_drop, held_rewrite]
      | absent => exact ⟨rfl, same⟩
      | dead =>
          refine ⟨rfl, ?_⟩
          simp only [Found.elim, held_reap]
  | none =>
      rw [mutate_remove asked, mutate_remove asked, seen_congr same]
      cases seen code m s' with
      | row row =>
          refine ⟨rfl, ?_⟩
          simp only [Found.elim, held_drop, held_delete]
      | absent => exact ⟨rfl, same⟩
      | dead =>
          refine ⟨rfl, ?_⟩
          simp only [Found.elim, held_reap]

end Whole

section Steps

variable {code : String} {s : RocksStore} {m : Mutation RocksEnv} {b : MutResult}

theorem next_updating (change : Change) :
    (mutations code).next m s (.updating change) =
      (s, (seen code m s).elim (.loaded change) (.returned none) .gone) :=
  rfl

theorem next_removing :
    (mutations code).next m s .removing =
      (s, (seen code m s).elim (fun _ => .probed) (.returned none) .gone) := by
  refine Prod.ext rfl ?_
  simp only [mutations, Mutation.calls, Parts.next, parts, seen]
  cases peek .done (m.env.clock 0) s code with
  | row row => rfl
  | absent => rfl
  | dead => rfl

/-- A write that finds the row it depends on is the whole update. -/
theorem effect_write {change : Change} {row : Row} (asked : m.asked = some change)
    (fine : unmoved code m s (.loaded change row) = true) :
    (s.mutate code m).1 = .ok ∧ (s.mutate code m).2.held code =
      (rewrite (m.env.clock 1) s code row change.url change.ttl change.hasTtl).held code := by
  rw [unmoved] at fine
  rw [mutate_update asked]
  cases shown : seen code m s with
  | absent =>
      rw [shown] at fine
      cases fine
  | dead =>
      rw [shown] at fine
      cases fine
  | row now =>
      rw [shown] at fine
      simp only [Found.elim, Bool.and_eq_true, Bool.or_eq_true, decide_eq_true_eq] at fine
      refine ⟨rfl, ?_⟩
      simp only [Found.elim, held_drop, held_rewrite, fine.1]
      rcases fine.2 with given | same
      · rw [if_pos given, if_pos given]
      · rw [same]

/-- A look that finds no row is the whole call. -/
theorem mutate_absent (absent : seen code m s = .absent) : s.mutate code m = (.missing, s) := by
  cases asked : m.asked with
  | some change => rw [mutate_update asked, absent, Found.elim]
  | none => rw [mutate_remove asked, absent, Found.elim]

/-- A look that answers found no row. -/
theorem effect_look {goes : Row → Call Row Change String}
    (silent : ∀ row, Mutation.outcome (goes row) = none)
    (answered : Mutation.outcome ((seen code m s).elim goes (.returned none) .gone) = some b) :
    (s.mutate code m).1 = b ∧ (s.mutate code m).2.held code = s.held code := by
  cases shown : seen code m s with
  | absent =>
      rw [shown] at answered
      cases answered
      rw [mutate_absent shown]
      exact ⟨rfl, rfl⟩
  | dead =>
      rw [shown] at answered
      cases answered
  | row row =>
      rw [shown, Found.elim, silent row] at answered
      cases answered

/-- So is the delete of a row that is dead or gone. -/
theorem effect_reap (fine : unmoved code m s .gone = true) :
    (s.mutate code m).1 = .missing ∧ (s.mutate code m).2.held code = none := by
  rw [unmoved] at fine
  cases shown : seen code m s with
  | row row =>
      rw [shown] at fine
      cases fine
  | absent =>
      rw [shown] at fine
      rw [mutate_absent shown]
      exact ⟨rfl, Option.isNone_iff_eq_none.mp fine⟩
  | dead =>
      cases asked : m.asked with
      | some change =>
          rw [mutate_update asked, shown]
          exact ⟨rfl, held_reap code s⟩
      | none =>
          rw [mutate_remove asked, shown]
          exact ⟨rfl, held_reap code s⟩

theorem effect {p : Call Row Change String} (stands : m.Stands p)
    (fine : unmoved code m s p = true) (open_call : Mutation.outcome p = none)
    (answered : Mutation.outcome ((mutations code).next m s p).2 = some b) :
    (s.mutate code m).1 = b ∧
      (s.mutate code m).2.held code = ((mutations code).next m s p).1.held code := by
  cases p with
  | updating change =>
      rw [next_updating] at answered ⊢
      exact effect_look (fun _ => rfl) answered
  | removing =>
      rw [next_removing] at answered ⊢
      exact effect_look (fun _ => rfl) answered
  | loaded change row =>
      cases answered
      exact effect_write stands fine
  | probed =>
      cases answered
      rw [unmoved] at fine
      rw [mutate_remove stands]
      cases shown : seen code m s with
      | row row =>
          refine ⟨rfl, ?_⟩
          exact (held_delete code s).trans (held_delete code s).symm
      | absent =>
          rw [shown] at fine
          cases fine
      | dead =>
          rw [shown] at fine
          cases fine
  | gone =>
      cases answered
      obtain ⟨missing, erased⟩ := effect_reap fine
      exact ⟨missing, erased.trans (held_reap code s).symm⟩
  | deleted write => cases open_call
  | wrote write => cases open_call
  | returned write => cases write <;> cases open_call
  | resolving => cases stands
  | missed => cases stands
  | fetched seen r => cases stands
  | expired => cases stands
  | answered value => cases stands

/-- The other steps leave the row as it is. -/
theorem silent {p : Call Row Change String} (stands : m.Stands p)
    (same : Mutation.outcome ((mutations code).next m s p).2 = Mutation.outcome p) :
    ((mutations code).next m s p).1.held code = s.held code := by
  cases p with
  | updating change => rfl
  | removing => rfl
  | loaded change row => cases same
  | probed => cases same
  | gone => cases same
  | deleted write => rfl
  | wrote write => rfl
  | returned write => rfl
  | resolving => cases stands
  | missed => cases stands
  | fetched seen r => cases stands
  | expired => cases stands
  | answered value => cases stands

theorem gone_of_deletes (deletes : m.Deletes (s.mutate code m).1) :
    (s.mutate code m).2.held code = none := by
  obtain ⟨asked, done⟩ := deletes
  rw [mutate_remove asked] at done ⊢
  cases shown : seen code m s with
  | row row => exact held_delete code s
  | absent =>
      rw [shown] at done
      cases done
  | dead =>
      rw [shown] at done
      cases done

/-- Neither call creates a row. -/
theorem gone_mutate (gone : s.held code = none) : (s.mutate code m).2.held code = none := by
  rw [mutate_absent (seen_gone gone)]
  exact gone

end Steps

theorem lawful_mutations (code : String) :
    (mutations code).Lawful Eq (held code) Mutation.Stands Mutation.Deletes
      (fun s => s.held code = none) (unmoved code) where
  at_start m := m.stands_start
  at_next _ _ _ stands := Mutation.stands_next stands
  unanswered m := m.outcome_start
  final _ _ _ _ answered := Mutation.outcome_next answered
  congr _ _ _ same := mutate_congr same
  like_closes _ _ _ same closes := same ▸ closes
  closed_congr _ _ same gone := same.symm.trans gone
  closing _ _ deletes := gone_of_deletes deletes
  closed _ _ gone := gone_mutate gone
  silent _ _ _ stands same _ := silent stands same
  effect m _ _ _ stands fine open_call answered :=
    ⟨m, rfl, effect stands fine open_call answered⟩

end RocksStore

/-! ## Every run -/

/-- The run of updates and removes has a sequential order that begins with the
order of any beginning of the run, and the row of a link whose remove has been
answered is not there. -/
def Serializes {σ ε π : Type} (calls : Linear.Calls σ (Mutation ε) π MutResult)
    (like : Mutation ε → Mutation ε → Prop) (row : σ → Option Bytes) (s : σ)
    (first rest : List (Linear.Event (Mutation ε))) : Prop :=
  let before := calls.run (.idle s) first
  let after := calls.run (.idle s) (first ++ rest)
  (∃ earlier later, calls.Linearizes like row s before earlier ∧
    calls.Linearizes like row s after (earlier ++ later)) ∧
  ∀ k m, after.inputAt k = some m → m.asked = none → calls.answerAt after k = some .ok →
    row after.store = none

/-- In every run of either store in which each write finds the row that the
call has read, updates and removes are linearizable. -/
theorem mutations_linearize (code : String) :
    (∀ (s : KvStore) (first rest : List (Linear.Event (Mutation KvEnv))),
      Runs.Along (KvStore.mutations code).step
        (fun sys event => Linear.Calls.Meets (KvStore.unmoved code) sys event = true) (.idle s)
        (first ++ rest) →
      Serializes (KvStore.mutations code) KvStore.SameCall (fun s => s.kvGet code) s first rest) ∧
    (∀ (s : RocksStore) (first rest : List (Linear.Event (Mutation RocksEnv))),
      Runs.Along (RocksStore.mutations code).step
        (fun sys event => Linear.Calls.Meets (RocksStore.unmoved code) sys event = true) (.idle s)
        (first ++ rest) →
      Serializes (RocksStore.mutations code) Eq (RocksStore.held code) s first rest) := by
  constructor
  · intro s first rest fine
    have lawful := KvStore.lawful_mutations code
    obtain ⟨earlier, later, start, final⟩ := Linear.Calls.linearizes_run lawful fine
    have shown : (fun s : KvStore => s.kvGet code) =
        (fun h : Layout × Option Stored => h.2.map Stored.value) ∘ KvStore.held code :=
      funext fun s => KvStore.kvGet_eq code s
    refine ⟨⟨earlier, later, ?_, ?_⟩, fun k m given asked answered => ?_⟩
    · rw [shown]
      exact start.of_row _
    · rw [shown]
      exact final.of_row _
    · have gone : KvStore.Gone code _ := final.closed lawful given answered ⟨asked, rfl⟩
      show KvStore.kvGet _ code = none
      rw [KvStore.kvGet_eq, gone]
      rfl
  · intro s first rest fine
    have lawful := RocksStore.lawful_mutations code
    obtain ⟨earlier, later, start, final⟩ := Linear.Calls.linearizes_run lawful fine
    refine ⟨⟨earlier, later, start, final⟩, fun k m given asked answered => ?_⟩
    exact final.closed lawful given answered ⟨asked, rfl⟩

/-- An update and a remove that overlap; the update writes before the delete, or
after the remove has returned. -/
def overlapping {ε : Type} (env : ε) (late : Bool) : List (Linear.Event (Mutation ε)) :=
  [.call ⟨some ⟨"https://new.example", 0, false⟩, env⟩, .call ⟨none, env⟩, .step 0] ++
    (if late then [.step 1, .step 1, .step 1, .step 1, .step 0, .step 0]
      else [.step 1, .step 0, .step 1, .step 1, .step 0, .step 1])

theorem mutations_linearize_overlapping :
    (let calls := KvStore.mutations "promo"
     let after := calls.run (.idle (linkedKv .key)) (overlapping (.at 1001 []) false)
     calls.answerAt after 0 = some .ok ∧ calls.answerAt after 1 = some .ok ∧
      Serializes calls KvStore.SameCall (fun s => s.kvGet "promo") (linkedKv .key) []
        (overlapping (.at 1001 []) false)) ∧
    (let calls := RocksStore.mutations "promo"
     let after := calls.run (.idle linkedRocks) (overlapping ⟨fun _ => 1001⟩ false)
     calls.answerAt after 0 = some .ok ∧ calls.answerAt after 1 = some .ok ∧
      Serializes calls Eq (RocksStore.held "promo") linkedRocks []
        (overlapping ⟨fun _ => 1001⟩ false)) := by
  constructor
  · refine ⟨by decide +kernel, by decide +kernel, ?_⟩
    exact (mutations_linearize "promo").1 (linkedKv .key) [] _ (by decide +kernel)
  · refine ⟨by decide +kernel, by decide +kernel, ?_⟩
    exact (mutations_linearize "promo").2 linkedRocks [] _ (by decide +kernel)

/-- Both calls return ok, the remove before the write, and the link is there
again; no sequential order of the two does that. -/
theorem removed_link_returns :
    (∀ layout,
      let calls := KvStore.mutations "promo"
      let after := calls.run (.idle (linkedKv layout)) (overlapping (.at 1001 []) true)
      calls.answerAt after 0 = some .ok ∧ calls.answerAt after 1 = some .ok ∧
        after.store.kvGet "promo" = some (encVal 0 1000 "https://new.example") ∧
        ¬ ∃ order, calls.Linearizes KvStore.SameCall (fun s => s.kvGet "promo") (linkedKv layout)
          after order) ∧
    (let calls := RocksStore.mutations "promo"
     let after := calls.run (.idle linkedRocks) (overlapping ⟨fun _ => 1001⟩ true)
     calls.answerAt after 0 = some .ok ∧ calls.answerAt after 1 = some .ok ∧
        after.store.held "promo" = some (encVal 0 1000 "https://new.example") ∧
        ¬ ∃ order, calls.Linearizes Eq (RocksStore.held "promo") linkedRocks after order) := by
  constructor
  · intro layout calls after
    have ends : calls.answerAt after 0 = some .ok ∧ calls.answerAt after 1 = some .ok ∧
        after.store.kvGet "promo" = some (encVal 0 1000 "https://new.example") := by
      cases layout with
      | key => decide +kernel
      | hash => decide +kernel
    refine ⟨ends.1, ends.2.1, ends.2.2, ?_⟩
    rintro ⟨order, linear⟩
    have given : after.inputAt 1 = some ⟨none, .at 1001 []⟩ :=
      Linear.Calls.inputAt_run _ _ 1
    have gone : KvStore.Gone "promo" _ :=
      linear.closed_inOrder (KvStore.lawful_mutations "promo") given ends.2.1 ⟨rfl, rfl⟩
    have absent : after.store.kvGet "promo" = none := by
      rw [← linear.row, KvStore.kvGet_eq, gone]
      rfl
    rw [ends.2.2] at absent
    cases absent
  · intro calls after
    have ends : calls.answerAt after 0 = some .ok ∧ calls.answerAt after 1 = some .ok ∧
        after.store.held "promo" = some (encVal 0 1000 "https://new.example") := by
      decide +kernel
    refine ⟨ends.1, ends.2.1, ends.2.2, ?_⟩
    rintro ⟨order, linear⟩
    have given : after.inputAt 1 = some ⟨none, ⟨fun _ => 1001⟩⟩ :=
      Linear.Calls.inputAt_run _ _ 1
    have gone := linear.closed (RocksStore.lawful_mutations "promo") given ends.2.1 ⟨rfl, rfl⟩
    rw [ends.2.2] at gone
    cases gone

end Shrt.Rocks
