import Mathlib.Data.List.Basic
import Mathlib.Logic.Function.Basic
import Shrt.Codes
import Shrt.Lib.HashMap

/-!
# The read cache

A bounded cache of resolved links, split into shards by code.  Each shard drops
its oldest entries first.  An entry carries the expiry of the link and the time
it was put in.
-/

namespace Shrt.Kv

open Shrt.Lib

structure CacheEntry where
  u : String
  e : Int64
  cachedAt : Int64
  deriving DecidableEq, Repr

/-- One shard: its entries, and their codes from the oldest on. -/
structure CacheShard where
  map : Map String CacheEntry
  order : List String

structure Lru where
  shards : Nat → CacheShard
  capPerShard : Nat
  ttlMs : Int64

/-- A link that has an expiry and is past it. -/
def past (e now : Int64) : Bool :=
  e != 0 && e ≤ now

namespace CacheShard

def empty : CacheShard := ⟨∅, []⟩

def remove (sh : CacheShard) (code : String) : CacheShard :=
  ⟨sh.map.erase code, sh.order.filter fun x => x != code⟩

/-- Drop the oldest entries until there is room for one more. -/
def makeRoom (cap : Nat) (map : Map String CacheEntry) : List String → CacheShard
  | [] => ⟨map, []⟩
  | old :: order =>
      if cap ≤ order.length + 1 then makeRoom cap (map.erase old) order
      else ⟨map, old :: order⟩

def put (cap : Nat) (sh : CacheShard) (code : String) (ent : CacheEntry) : CacheShard :=
  if code ∈ sh.map then { sh with map := sh.map.insert code ent }
  else
    let room := makeRoom cap sh.map sh.order
    ⟨room.map.insert code ent, room.order ++ [code]⟩

end CacheShard

namespace Lru

def new (cap : Nat) (ttlMs : Int64) : Lru where
  shards _ := .empty
  capPerShard := max (cap / NUM_SHARDS) 16
  ttlMs := ttlMs

def setShard (cache : Lru) (code : String) (sh : CacheShard) : Lru :=
  { cache with shards := Function.update cache.shards (shardOf code) sh }

def find (cache : Lru) (code : String) : Option CacheEntry :=
  (cache.shards (shardOf code)).map.lookup code

def remove (cache : Lru) (code : String) : Lru :=
  cache.setShard code ((cache.shards (shardOf code)).remove code)

/-- `get`, with the clock at its two checks.  An entry that was kept too long
is dropped; one whose link has expired stays. -/
def get (cache : Lru) (stale expired : Int64) (code : String) : Option (String × Int64) × Lru :=
  match cache.find code with
  | none => (none, cache)
  | some ent =>
      if cache.ttlMs > 0 && stale - ent.cachedAt > cache.ttlMs then (none, cache.remove code)
      else if past ent.e expired then (none, cache)
      else (some (ent.u, ent.e), cache)

def put (cache : Lru) (now : Int64) (code u : String) (e : Int64) : Lru :=
  cache.setShard code
    ((cache.shards (shardOf code)).put cache.capPerShard code ⟨u, e, now⟩)

/-! ## What is kept -/

theorem find_setShard_same (cache : Lru) (code : String) (sh : CacheShard) {c : String}
    (shard : shardOf c = shardOf code) : (cache.setShard code sh).find c = sh.map.lookup c := by
  rw [find, setShard, shard]
  simp

theorem find_setShard_other (cache : Lru) {code c : String} (sh : CacheShard)
    (shard : shardOf c ≠ shardOf code) : (cache.setShard code sh).find c = cache.find c := by
  simp [find, setShard, shard]

theorem find_remove (cache : Lru) (code c : String) :
    (cache.remove code).find c = if c = code then none else cache.find c := by
  by_cases shard : shardOf c = shardOf code
  · rw [remove, find_setShard_same cache code _ shard, CacheShard.remove, Map.lookup_erase_eq, find,
      shard]
  · have other : c ≠ code := fun same => shard (congrArg shardOf same)
    rw [remove, find_setShard_other cache _ shard, if_neg other]

/-- Making room only drops entries. -/
theorem lookup_makeRoom (cap : Nat) (map : Map String CacheEntry) (order : List String)
    (c : String) : (CacheShard.makeRoom cap map order).map.lookup c = none ∨
      (CacheShard.makeRoom cap map order).map.lookup c = map.lookup c := by
  induction order generalizing map with
  | nil => exact Or.inr rfl
  | cons old order ih =>
      rw [CacheShard.makeRoom]
      split
      · rcases ih (map.erase old) with dropped | kept
        · exact Or.inl dropped
        · rw [kept, Map.lookup_erase_eq]
          split
          · exact Or.inl rfl
          · exact Or.inr rfl
      · exact Or.inr rfl

/-- A put keeps its own entry and may drop others. -/
theorem find_put (cache : Lru) (now : Int64) (code u : String) (e : Int64) {c : String}
    {ent : CacheEntry} (found : (cache.put now code u e).find c = some ent) :
    (c = code ∧ ent = ⟨u, e, now⟩) ∨ (c ≠ code ∧ cache.find c = some ent) := by
  by_cases shard : shardOf c = shardOf code
  · rw [put, find_setShard_same cache code _ shard, CacheShard.put] at found
    split at found
    · rw [Map.lookup_insert_eq] at found
      split at found
      · rename_i same
        cases found
        exact Or.inl ⟨same, rfl⟩
      · rename_i other
        rw [← shard] at found
        exact Or.inr ⟨other, found⟩
    · rw [Map.lookup_insert_eq] at found
      split at found
      · rename_i same
        cases found
        exact Or.inl ⟨same, rfl⟩
      · rename_i other
        rcases lookup_makeRoom cache.capPerShard (cache.shards (shardOf code)).map
          (cache.shards (shardOf code)).order c with dropped | kept
        · rw [dropped] at found
          cases found
        · rw [kept, ← shard] at found
          exact Or.inr ⟨other, found⟩
  · have other : c ≠ code := fun same => shard (congrArg shardOf same)
    rw [put, find_setShard_other cache _ shard] at found
    exact Or.inr ⟨other, found⟩

/-- A get returns only what is kept and not expired. -/
theorem get_some {cache : Lru} {stale expired : Int64} {code u : String} {e : Int64}
    (hit : (cache.get stale expired code).1 = some (u, e)) :
    ∃ cachedAt, cache.find code = some ⟨u, e, cachedAt⟩ ∧ past e expired = false := by
  rw [get] at hit
  cases found : cache.find code with
  | none =>
      rw [found] at hit
      cases hit
  | some ent =>
      simp only [found] at hit
      split at hit
      · cases hit
      · split at hit
        · cases hit
        · rename_i current
          cases hit
          exact ⟨ent.cachedAt, rfl, Bool.eq_false_iff.mpr current⟩

/-- A get drops nothing but its own entry. -/
theorem find_get {cache : Lru} {stale expired : Int64} {code c : String} {ent : CacheEntry}
    (found : (cache.get stale expired code).2.find c = some ent) : cache.find c = some ent := by
  rw [get] at found
  split at found
  · exact found
  · split at found
    · rw [find_remove] at found
      split at found
      · cases found
      · exact found
    · split at found
      · exact found
      · exact found

end Lru

end Shrt.Kv
