import Mathlib.Data.List.Basic
import Shrt.Kv.Cached

/-!
# Deadlines in the server

In the layout with top-level keys the server evicts rows by itself, so a row
with an expiry needs a deadline.  A create gives it one whenever the link has a
time to live.  An update counts the deadline from a later reading of the clock
than the row it read: if the expiry has come by then there is nothing left to
count, and the row is written to stay.
-/

namespace Shrt.Kv

open Shrt.Codec Shrt.Lib
open Shrt.Store.Inner (expiry)

/-- A stored row that has an expiry has a deadline. -/
def Mortal (st : Stored) : Prop :=
  ∀ row, decVal st.value = some row → row.e ≠ 0 → st.deadline ≠ none

/-- What is left until an expiry that has not come. -/
theorem remaining_pos {e now : Int64} (nonneg : 0 ≤ now) (future : now < e) : 0 < e ∧ 0 < e - now := by
  have nowNonneg : 0 ≤ now.toInt := Int64.le_iff_toInt_le.mp nonneg
  have later : now.toInt < e.toInt := Int64.lt_iff_toInt_lt.mp future
  have bound := e.toInt_lt
  have difference := Int64.toInt_sub e now
  rw [Int.bmod_def] at difference
  constructor
  · rw [Int64.lt_iff_toInt_lt, Int64.toInt_zero]
    omega
  · rw [Int64.lt_iff_toInt_lt, Int64.toInt_zero]
    omega

/-- A row that was just written is mortal if a positive time was left for it. -/
theorem mortal_encVal {e c : Int64} {u : String} {px now : Int64} (left : e ≠ 0 → px > 0) :
    Mortal ⟨encVal e c u, if px > 0 then some (now.toInt + px.toInt) else none⟩ := by
  intro row decoded nonzero
  rw [decVal_encVal] at decoded
  cases decoded
  dsimp only
  rw [if_pos (left nonzero)]
  exact Option.some_ne_none _

namespace KvStore

/-- Every row under a key `l:{c}` that has an expiry has a deadline. -/
def AllMortal (s : KvStore) : Prop :=
  s.kv.AtKeys lkey Mortal

/-- The expiry that an update writes is none, or has not come when the time
that is left is counted. -/
def prompt (s : KvStore) (call : KvEnv × KvCall) : Bool :=
  match call.2 with
  | .update code _ ttl hasTtl =>
      ((s.atStep call.1 0).row code).all fun row =>
        let e := if hasTtl then expiry (call.1.clock 1) ttl else row.e
        e = 0 || call.1.clock 2 < e
  | _ => true

namespace AllMortal

variable {s : KvStore} {env : KvEnv}

theorem atStep (mortal : s.AllMortal) (env : KvEnv) (t : Nat) : (s.atStep env t).AllMortal :=
  Redis.AtKeys.evict mortal _ _

/-- No string was added or changed. -/
theorem of_strings {s' : KvStore} (mortal : s.AllMortal)
    (strings : s'.kv.strings = s.kv.strings) : s'.AllMortal :=
  Redis.AtKeys.of_strings mortal fun _ _ found => strings ▸ found

theorem delRow (mortal : s.AllMortal) (code : String) : (s.delRow code).2.AllMortal := by
  simp only [AllMortal, KvStore.delRow]
  cases s.layout with
  | hash => exact mortal
  | key => exact Redis.AtKeys.del mortal _

theorem delHits (mortal : s.AllMortal) (code : String) : (s.delHits code).AllMortal := by
  simp only [AllMortal, KvStore.delHits]
  cases s.layout with
  | hash => exact mortal
  | key => exact Redis.AtKeys.del mortal _

theorem addHits (mortal : s.AllMortal) (code : String) (d : Int64) :
    (s.addHits code d).AllMortal := by
  simp only [AllMortal, KvStore.addHits]
  cases s.layout with
  | hash => exact mortal
  | key => exact Redis.AtKeys.setString mortal fun c same => absurd same (lkey_ne_hkey c code)

/-- An overwrite leaves a mortal row if a positive time is left for it. -/
theorem setRow (mortal : s.AllMortal) (now : Int64) (code : String) {e c : Int64} {u : String}
    {px : Int64} (left : e ≠ 0 → px > 0) : (s.setRow now code (encVal e c u) px).AllMortal := by
  simp only [AllMortal, KvStore.setRow]
  cases s.layout with
  | hash => exact mortal
  | key => exact Redis.AtKeys.set mortal fun _ _ => mortal_encVal left

/-- A create asks for a deadline whenever it writes an expiry. -/
theorem setNx (mortal : s.AllMortal) (now created ttl : Int64) (code url : String) :
    (s.setNx now code (encVal (expiry created ttl) created url) ttl).2.AllMortal := by
  cases fate : (s.setNx now code (encVal (expiry created ttl) created url) ttl).1 with
  | true =>
      rw [setNx_free fate]
      refine mortal.setRow now code fun nonzero => ?_
      by_contra expired
      exact nonzero (if_neg expired)
  | false =>
      rw [setNx_taken fate]
      exact mortal

theorem keptByCreates (env : KvEnv) (ttl : Int64) : KeptByCreates env ttl AllMortal where
  evicted _ t mortal := mortal.atStep env t
  created _ _ _ _ _ _ _ mortal := mortal.setNx _ _ _ _ _

/-! ## Every history -/

theorem update {code url : String} {ttl : Int64} {hasTtl : Bool} (nonneg : 0 ≤ env.clock 2)
    (timely : s.prompt (env, .update code url ttl hasTtl) = true) (mortal : s.AllMortal) :
    (s.update env code url ttl hasTtl).2.AllMortal := by
  have read := mortal.atStep env 0
  rw [KvStore.update]
  cases shown : ((s.atStep env 0).kvGet code).bind decVal with
  | none => exact read
  | some row =>
      have future : (s.atStep env 0).row code = some row := shown
      simp only [prompt, future, Option.all_some, Bool.or_eq_true, decide_eq_true_eq] at timely
      refine (read.atStep env 3).setRow _ _ fun nonzero => ?_
      obtain ⟨positive, left⟩ := remaining_pos nonneg (timely.resolve_left nonzero)
      rw [if_pos positive]
      exact left

theorem remove (mortal : s.AllMortal) (code : String) : (s.remove env code).2.AllMortal := by
  have deleted := (mortal.atStep env 0).delRow code
  rw [KvStore.remove]
  split
  · exact (deleted.atStep env 1).delHits code
  · exact deleted

theorem bump (mortal : s.AllMortal) (code : String) : (s.bump env code).AllMortal := by
  rw [KvStore.bump]
  split
  · exact mortal
  · exact mortal

theorem resolve (mortal : s.AllMortal) (code : String) : (s.resolve env code).2.AllMortal := by
  have looked : AllMortal { s with cache := (s.cached env code).2 } := mortal
  rw [KvStore.resolve]
  split
  · exact looked.bump code
  · split
    · exact looked.atStep env 2
    · refine bump ?_ code
      exact looked.atStep env 2

theorem flushHits (mortal : s.AllMortal) : (s.flushHits env).AllMortal := by
  have start : AllMortal { s.atStep env 0 with dirty := ∅ } := mortal.atStep env 0
  exact Runs.invariant (fun s cn mortal => mortal.addHits cn.1 cn.2) start _

theorem step {call : KvEnv × KvCall} (nonneg : ∀ t, 0 ≤ call.1.clock t)
    (timely : s.prompt call = true) (mortal : s.AllMortal) : (s.step call).AllMortal := by
  obtain ⟨env, call⟩ := call
  cases call with
  | shorten url aliasCode ttl => exact (keptByCreates env ttl).step_shorten url aliasCode mortal
  | shortenMany urls ttl => exact (keptByCreates env ttl).step_shortenMany urls mortal
  | update code url ttl hasTtl => exact update (nonneg 2) timely mortal
  | remove code => exact mortal.remove code
  | resolve code => exact mortal.resolve code
  | flushHits => exact mortal.flushHits
  | sweepExpired =>
      refine (mortal.atStep env 0).of_strings ?_
      rw [KvStore.step, sweepExpired]
      exact strings_sweep _ _ _

end AllMortal

/-- In every history in which no update writes an expiry that has already come,
every row that has an expiry has a deadline. -/
theorem rows_can_expire (inst : Inst) (buckets : Buckets) (cacheEntries : Nat) (cacheTtlMs : Int64)
    (history : List (KvEnv × KvCall)) (clocked : Clocked (history.map Prod.fst))
    (timely : Runs.Along step (fun s call => s.prompt call = true)
      (.fresh inst .key buckets cacheEntries cacheTtlMs) history) :
    ((KvStore.fresh inst .key buckets cacheEntries cacheTtlMs).run history).AllMortal := by
  have guarded : Runs.Along step (fun s call => s.prompt call = true ∧ ∀ t, 0 ≤ call.1.clock t)
      (.fresh inst .key buckets cacheEntries cacheTtlMs) history :=
    timely.mono fun call member s fine =>
      ⟨fine, clocked.nonneg _ (List.mem_map_of_mem member)⟩
  exact guarded.invariant (fun s call mortal fine => mortal.step fine.2 fine.1) Redis.AtKeys.empty

/-- An alias that lives for ten milliseconds is updated with its expiry kept: the
row is read five milliseconds after its creation and written at `last`. -/
def updatedLate (last : Int64) : List (KvEnv × KvCall) :=
  [(.at 1000 [], .shorten "https://a.example" (some promo) 10),
   ({ KvEnv.at 1005 [] with clock := fun t => if t < 2 then 1005 else last },
    .update "promo" "https://b.example" 0 false)]

theorem clocked_updatedLate {last : Int64} (later : 1005 ≤ last) :
    Clocked ((updatedLate last).map Prod.fst) where
  nonneg env member t := by
    have epoch : (0 : Int64) ≤ last := Int64.le_trans (by decide) later
    simp only [updatedLate, List.map_cons, List.map_nil, List.mem_cons, List.not_mem_nil,
      or_false] at member
    rcases member with rfl | rfl
    · exact (by decide : (0 : Int64) ≤ 1000)
    · dsimp only
      split
      · decide
      · exact epoch
  monotone env member t t' le := by
    simp only [updatedLate, List.map_cons, List.map_nil, List.mem_cons, List.not_mem_nil,
      or_false] at member
    rcases member with rfl | rfl
    · exact Int64.le_refl _
    · dsimp only
      split
      · split
        · exact Int64.le_refl _
        · exact later
      · rw [if_neg (by omega)]
        exact Int64.le_refl _
  ordered := by
    have after : (1000 : Int64) ≤ last := Int64.le_trans (by decide) later
    simp only [updatedLate, List.map_cons, List.map_nil, List.pairwise_cons, List.mem_cons,
      List.not_mem_nil, or_false, forall_eq, false_imp_iff, implies_true, List.Pairwise.nil,
      and_true]
    intro t t'
    show (1000 : Int64) ≤ if t' < 2 then 1005 else last
    split
    · decide
    · exact after

/-- Written in time, the new row keeps a deadline. -/
theorem rows_can_expire_updatedLate :
    let s := (KvStore.fresh 0 .key ⟨8, by decide⟩ 100 0).run (updatedLate 1008)
    s.row "promo" = some ⟨1010, 1000, "https://b.example"⟩ ∧ s.AllMortal := by
  refine ⟨by decide +kernel, ?_⟩
  exact rows_can_expire 0 ⟨8, by decide⟩ 100 0 _ (clocked_updatedLate (by decide))
    (by decide +kernel)

/-- Written too late, it stays forever. -/
theorem immortal_after_update :
    Clocked ((updatedLate 1020).map Prod.fst) ∧
      ¬ ((KvStore.fresh 0 .key ⟨8, by decide⟩ 100 0).run (updatedLate 1020)).AllMortal := by
  refine ⟨clocked_updatedLate (by decide), fun mortal => ?_⟩
  have stored : ((KvStore.fresh 0 .key ⟨8, by decide⟩ 100 0).run (updatedLate 1020)).kv.strings.lookup
      (lkey "promo") = some ⟨encVal 1010 1000 "https://b.example", none⟩ := by
    decide +kernel
  exact mortal "promo" _ stored _ (decVal_encVal _ _ _) (by decide) rfl

end KvStore

end Shrt.Kv
