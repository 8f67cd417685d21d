import Mathlib.Data.List.Basic
import Shrt.Kv.Listing

/-!
# Expired rows that the sweep has not reached

In the key layout the server evicts a row that is past its expiry.  In the hash
layout the row stays until the next sweep, and every operation has to look at
the expiry for itself.  `resolve` does; `stats` shows the row, and `update` and
`remove` take it for a link.
-/

namespace Shrt.Kv

open Shrt.Codec Shrt.Lib Shrt.Lib.Utf8
open Shrt.Store (Link MutResult)

namespace KvStore

/-- The operations treat a code as one that has no link. -/
structure Enforced (env : KvEnv) (scan : Scan) (s : KvStore) (code : String) : Prop where
  resolve : (s.resolve env code).1 = none
  stats : (s.stats env code).1 = none
  list : ∀ limit offset sort q, ∀ link ∈ (s.list env scan limit offset sort q).1.1,
    link.code ≠ code
  update : ∀ url ttl hasTtl, (s.update env code url ttl hasTtl).1 = .missing
  remove : (s.remove env code).1 = .missing

/-- A row of the hash layout that is past its expiry at every step of the call. -/
structure Unswept (env : KvEnv) (s : KvStore) (code : String) (row : Row) : Prop where
  hash : s.layout = .hash
  held : (s.kvGet code).bind decVal = some row
  expired : ∀ t, past row.e (env.clock t) = true

/-! ## Codes without a row -/

theorem kvGet_atStep_none {s : KvStore} {code : String} (absent : s.kvGet code = none)
    (env : KvEnv) (t : Nat) : (s.atStep env t).kvGet code = none := by
  rcases kvGet_atStep s env t code with same | gone
  · rw [same, absent]
  · exact gone

/-- Once the row is gone, all agree that there is no link. -/
theorem missing_of_absent {s : KvStore} {code : String} (absent : s.kvGet code = none)
    (env : KvEnv) : (s.stats env code).1 = none ∧
      (∀ url ttl hasTtl, (s.update env code url ttl hasTtl).1 = .missing) ∧
      (s.remove env code).1 = .missing := by
  have gone := kvGet_atStep_none absent env 0
  refine ⟨?_, fun url ttl hasTtl => ?_, ?_⟩
  · rw [stats, gone]
    rfl
  · rw [update, gone]
    rfl
  · have none_deleted : ((s.atStep env 0).delRow code).1 = false := by
      rw [fst_delRow, gone]
      rfl
    rw [remove]
    dsimp only
    rw [if_neg (by simp [none_deleted])]

namespace Unswept

variable {env : KvEnv} {s : KvStore} {code : String} {row : Row}

/-- Nothing is evicted from a hash. -/
theorem kvGet_atStep (unswept : Unswept env s code row) (t : Nat) :
    (s.atStep env t).kvGet code = s.kvGet code := by
  simp only [kvGet, atStep, unswept.hash]
  rfl

/-- What the cache does not answer is not answered from the row. -/
theorem resolve (unswept : Unswept env s code row) (missed : (s.cached env code).1 = none) :
    (s.resolve env code).1 = none := by
  have same : ({ s with cache := (s.cached env code).2 }.atStep env 2).kvGet code =
      s.kvGet code := unswept.kvGet_atStep 2
  have refused : KvStore.readRow { s with cache := (s.cached env code).2 } env 2 3 code = none := by
    obtain ⟨v, held, decoded⟩ := Option.bind_eq_some_iff.mp unswept.held
    rw [readRow, same, held, Option.bind_some, decoded, Option.bind_some,
      if_pos (unswept.expired 3)]
  rw [KvStore.resolve]
  dsimp only
  rw [missed]
  dsimp only
  rw [refused]

theorem stats (unswept : Unswept env s code row) :
    ∃ hits, (s.stats env code).1 = some (row.link code hits) := by
  refine ⟨((s.atStep env 0).atStep env 1).hitsOf code, ?_⟩
  rw [KvStore.stats]
  dsimp only
  rw [unswept.kvGet_atStep, unswept.held, Option.map_some]

theorem update (unswept : Unswept env s code row) (url : String) (ttl : Int64) (hasTtl : Bool) :
    (s.update env code url ttl hasTtl).1 = .ok := by
  rw [KvStore.update]
  dsimp only
  rw [unswept.kvGet_atStep, unswept.held]

theorem remove (unswept : Unswept env s code row) : (s.remove env code).1 = .ok := by
  obtain ⟨v, held, -⟩ := Option.bind_eq_some_iff.mp unswept.held
  have deleted : ((s.atStep env 0).delRow code).1 = true := by
    rw [fst_delRow, unswept.kvGet_atStep, held]
    rfl
  rw [KvStore.remove]
  dsimp only
  rw [if_pos deleted]

end Unswept

/-- An expired row is not treated as gone until it is swept. -/
theorem not_enforced_of_unswept {env : KvEnv} {s : KvStore} {code : String} {row : Row}
    (unswept : Unswept env s code row) (scan : Scan) : ¬ Enforced env scan s code := by
  intro enforced
  obtain ⟨hits, shown⟩ := unswept.stats
  rw [enforced.stats] at shown
  cases shown

/-- A bucket that holds the row of a link which expired at 1. -/
def staleBucket : KvStore :=
  { fresh 0 .hash eightBuckets 0 0 with
    kv := Redis.empty.hset (bkey promo eightBuckets) (encode promo) (encVal 1 0 "u") }

theorem staleBucket_unswept : staleBucket.Unswept (.at 2 []) promo ⟨1, 0, "u"⟩ where
  hash := rfl
  held := by decide +kernel
  expired _ := rfl

theorem not_enforced_staleBucket :
    ¬ Enforced (.at 2 []) ⟨fun keys => keys, fun _ fields => fields⟩ staleBucket promo :=
  not_enforced_of_unswept staleBucket_unswept ⟨fun keys => keys, fun _ fields => fields⟩

/-- At 2 the stale row is removed like the row of a link. -/
theorem stale_row_removed :
    ¬ ∀ (env : KvEnv) (s : KvStore) (code : String) (row : Row) (scan : Scan),
      Unswept env s code row → Enforced env scan s code := by
  intro every
  have enforced := every (.at 2 []) staleBucket promo ⟨1, 0, "u"⟩
    ⟨fun keys => keys, fun _ fields => fields⟩ staleBucket_unswept
  have removed := staleBucket_unswept.remove
  rw [enforced.remove] at removed
  cases removed

end KvStore

end Shrt.Kv
