import Mathlib.Data.List.Basic
import Shrt.Kv.Outage
import Shrt.Rocks.Hits

/-!
# A database that fails

The same two calls over the embedded database: a create under a drawn code
takes an error for a taken code, and a flush of hits forgets what its batch
could not write.
-/

namespace Shrt.Rocks

open Shrt.Codec Shrt.Lib Shrt.Lib.Utf8 Shrt.Kv
open Shrt.Store.Inner (expiry)

/-- How the database answers the calls of numbered creates: what a get finds,
with `none` for an error, and whether a put succeeds. -/
structure Answers where
  get : Nat → String → Option (Option Bytes)
  put : Nat → String → Bool

/-- `put_nx`: whether the row was put; `none` is an error of one of the calls. -/
def Answers.putNx (db : Answers) (k : Nat) (code : String) : Option Bool :=
  (db.get k code).bind fun found =>
    if found.isSome then some false else if db.put k code then some true else none

namespace RocksStore

/-- `shorten` over a database that may fail: the result after at most `fuel`
attempts, if it has returned by then. -/
def shortenOver (inst : Inst) (db : Answers) (rng : Nat → Suffix) (aliasCode : Option String)
    (fuel : Nat) : Option (Option String) :=
  match aliasCode with
  | some a =>
      -- `.ok()?`
      some ((db.putNx 0 a).bind (given a))
  | none =>
      (tryUntil (fun k =>
        let code := genCode inst (rng k)
        -- `.unwrap_or(false)`
        given code ((db.putNx k code).getD false)) 0 fuel).map some

theorem shortenOver_returns_iff (inst : Inst) (db : Answers) (rng : Nat → Suffix) :
    (∃ fuel, (shortenOver inst db rng none fuel).isSome) ↔
      ∃ k, db.putNx k (genCode inst (rng k)) = some true := by
  simp only [shortenOver, Option.isSome_map]
  exact exists_tryUntil_given_iff (fun k => genCode inst (rng k)) _

/-- The answers of a database that works; an attempt that finds its code taken
changes nothing. -/
def answering (s : RocksStore) : Answers where
  get _ code := some (s.db.lookup (encode code))
  put _ _ := true

theorem putNx_taken {s : RocksStore} {code : String} {value : Bytes}
    (taken : (s.putNx code value).1 = false) : (s.putNx code value).2 = s := by
  rw [putNx] at taken ⊢
  split at taken
  · rename_i present
    rw [if_pos present]
  · cases taken

theorem fst_putNx (s : RocksStore) (code : String) (value : Bytes) (k : Nat) :
    s.answering.putNx k code = some (s.putNx code value).1 := by
  rw [RocksStore.putNx]
  split
  · rename_i present
    rw [← AList.lookup_isSome] at present
    simp [Answers.putNx, answering, present]
  · rename_i absent
    simp [Answers.putNx, answering, Map.not_mem_iff_lookup.mp absent]

/-- A create of the store is one over a database that works. -/
theorem shorten_eq_shortenOver (inst : Inst) (env : RocksEnv) (rng : List Suffix) (s : RocksStore)
    (url : String) (ttl : Int64) :
    (s.shorten inst env rng url none ttl).map Prod.fst =
      shortenOver inst s.answering (fun k => rng.getD k default) none rng.length := by
  have loop : ∀ (value : Bytes) (rng : List Suffix), (freshCode inst value s rng).map Prod.fst =
      tryUntil (fun k => given (genCode inst (rng.getD k default))
        ((s.answering.putNx k (genCode inst (rng.getD k default))).getD false)) 0 rng.length := by
    intro value rng
    induction rng with
    | nil => rfl
    | cons buf rng ih =>
        have tried := fst_putNx s (genCode inst buf) value 0
        rw [freshCode, List.length_cons, tryUntil, tryUntil_succ]
        cases fate : (s.putNx (genCode inst buf) value).1 with
        | true =>
            rw [fate] at tried
            simp [tried]
        | false =>
            rw [fate] at tried
            rw [putNx_taken fate]
            simp only [List.getD_cons_zero, List.getD_cons_succ, tried, Option.getD_some, given_false,
              Option.none_or]
            exact ih
  rw [shorten, Option.map_map, shortenOver, ← loop, Option.map_map]
  rfl

/-- `flush_hits` with the outcome of its batch. -/
def flushHitsOver (sent : Bool) (order : IterOrder String Int64) (s : RocksStore) : RocksStore :=
  let deltas := order.iter s.dirty
  let s := { s with dirty := ∅ }
  if deltas = [] then s
  else if sent then { s with hits := deltas.foldl (fun hits cn => merge hits cn.1 cn.2) s.hits }
  else s

theorem flushHitsOver_sent (order : IterOrder String Int64) (s : RocksStore) :
    s.flushHitsOver true order = s.flushHits order := by
  rw [flushHitsOver, flushHits]
  split
  · rename_i idle
    rw [idle]
    rfl
  · rfl

theorem flushHitsOver_failed (order : IterOrder String Int64) (s : RocksStore) :
    s.flushHitsOver false order = { s with dirty := ∅ } := by
  rw [flushHitsOver]
  split
  · rfl
  · rfl

theorem keepsHits_failed_iff (order : IterOrder String Int64) (s : RocksStore) :
    KeepsHits s.dirty (s.flushHitsOver false order).dirty s.hitsOf
        (s.flushHitsOver false order).hitsOf ↔ NonePending s.dirty := by
  rw [flushHitsOver_failed]
  exact keepsHits_emptied_iff s.dirty fun c =>
    (counterValue (s.hits.lookup (encode c))).toInt64

end RocksStore

/-! ## Both stores -/

/-- A create under a drawn code, on either store, returns after finitely many
attempts exactly if one of them succeeds. -/
theorem drawn_create_returns_iff (inst : Inst) (rng : Nat → Suffix) (layout : Layout)
    (server : Nat → String → Option Resp) (db : Answers) :
    ((∃ fuel, (KvStore.shortenOver layout inst server rng none fuel).isSome) ↔
        ∃ k, nxReply layout (server k (Shrt.genCode inst (rng k))) = some true) ∧
      ((∃ fuel, (RocksStore.shortenOver inst db rng none fuel).isSome) ↔
        ∃ k, db.putNx k (genCode inst (rng k)) = some true) :=
  ⟨KvStore.shortenOver_returns_iff layout inst server rng,
    RocksStore.shortenOver_returns_iff inst db rng⟩

/-- With the backend down from the start the create never returns. -/
theorem drawn_create_hangs :
    (¬ ∃ fuel, (KvStore.shortenOver .key 0 (fun _ _ => none) (fun _ => .replicate 7 0) none
      fuel).isSome) ∧
    ¬ ∃ fuel, (RocksStore.shortenOver 0 ⟨fun _ _ => none, fun _ _ => false⟩
      (fun _ => .replicate 7 0) none fuel).isSome := by
  constructor
  · rw [KvStore.shortenOver_returns_iff]
    rintro ⟨k, made⟩
    cases made
  · rw [RocksStore.shortenOver_returns_iff]
    rintro ⟨k, made⟩
    cases made

/-- A flush that fails as a whole keeps every delta and every count, on either
store, exactly if nothing is pending. -/
theorem failed_flush_keeps_hits_iff (env : KvEnv) (kv : KvStore)
    (order : IterOrder String Int64) (rocks : RocksStore) :
    (KeepsHits kv.dirty (kv.flushHitsOver false env).dirty kv.hitsOf
        (kv.flushHitsOver false env).hitsOf ↔ NonePending kv.dirty) ∧
      (KeepsHits rocks.dirty (rocks.flushHitsOver false order).dirty rocks.hitsOf
        (rocks.flushHitsOver false order).hitsOf ↔ NonePending rocks.dirty) :=
  ⟨kv.keepsHits_failed_iff env, rocks.keepsHits_failed_iff order⟩

/-- One hit is counted; a flush that fails takes it back. -/
theorem failed_flush_forgets_hits :
    (∀ layout, let s := (KvStore.fresh 0 layout ⟨8, by decide⟩ 100 0).bump (.at 1000 []) "promo"
      s.hitsOf "promo" = 1 ∧ (s.flushHitsOver false (.at 1000 [])).hitsOf "promo" = 0) ∧
    let s := (RocksStore.fresh 100 0).bump "promo"
    s.hitsOf "promo" = 1 ∧ (s.flushHitsOver false (.stored _ _)).hitsOf "promo" = 0 := by
  constructor
  · intro layout
    cases layout with
    | key => decide +kernel
    | hash => decide +kernel
  · decide +kernel

end Shrt.Rocks
