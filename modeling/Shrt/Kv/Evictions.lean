import Mathlib.Algebra.Order.BigOperators.Group.List
import Mathlib.Data.List.Induction
import Shrt.Kv.Interleaved
import Shrt.Lib.Queued

/-!
# What the cache holds and drops

Each shard of the cache keeps a map and a queue of its keys.  Through every call
the queue holds the keys of the map once each, in the order of their insertion, in
the shard of each, and no more of them than a shard may hold.  So the cache is
bounded, and what has to make room is the oldest entry.  The cache of a store is only
ever changed by such calls.
-/

namespace Shrt.Kv

open Shrt.Lib Shrt.Lib.Queued

/-- A call of the cache, with the readings of the clock. -/
inductive LruCall where
  | get (stale expired : Int64) (code : String)
  | put (now : Int64) (code u : String) (e : Int64)
  | remove (code : String)

namespace CacheShard

theorem makeRoom_of_lt {cap : Nat} (map : Map String CacheEntry) {order : List String}
    (room : order.length < cap) : makeRoom cap map order = ⟨map, order⟩ := by
  cases order with
  | nil => rfl
  | cons old order => exact if_neg (Nat.not_le.mpr room)

/-- A queue that is just full gives up its head. -/
theorem makeRoom_full {cap : Nat} (map : Map String CacheEntry) {old : String}
    {order : List String} (full : order.length + 1 = cap) :
    makeRoom cap map (old :: order) = ⟨map.erase old, order⟩ := by
  rw [makeRoom, if_pos full.ge]
  exact makeRoom_of_lt _ (by omega)

/-- What a put does to a shard within its bound: it updates an entry in place, adds
one, or drops the head of the queue first. -/
theorem put_cases {cap : Nat} (positive : 0 < cap) {sh : CacheShard}
    (size : sh.order.length ≤ cap) (code : String) (ent : CacheEntry) :
    (code ∈ sh.map ∧ sh.put cap code ent = ⟨sh.map.insert code ent, sh.order⟩) ∨
      (code ∉ sh.map ∧ sh.order.length < cap ∧
        sh.put cap code ent = ⟨sh.map.insert code ent, sh.order ++ [code]⟩) ∨
      ∃ old order, code ∉ sh.map ∧ sh.order = old :: order ∧ order.length + 1 = cap ∧
        sh.put cap code ent = ⟨(sh.map.erase old).insert code ent, order ++ [code]⟩ := by
  by_cases there : code ∈ sh.map
  · exact Or.inl ⟨there, if_pos there⟩
  · refine Or.inr ?_
    rw [put, if_neg there]
    rcases Nat.lt_or_ge sh.order.length cap with room | full
    · rw [makeRoom_of_lt _ room]
      exact Or.inl ⟨there, room, rfl⟩
    · cases shape : sh.order with
      | nil =>
          rw [shape] at full
          exact absurd full (Nat.not_le.mpr positive)
      | cons old order =>
          rw [shape, List.length_cons] at size full
          have just : order.length + 1 = cap := Nat.le_antisymm size full
          rw [makeRoom_full _ just]
          exact Or.inr ⟨old, order, there, rfl, just, rfl⟩

end CacheShard

namespace Lru

def step (cache : Lru) : LruCall → Lru
  | .get stale expired code => (cache.get stale expired code).2
  | .put now code u e => cache.put now code u e
  | .remove code => cache.remove code

def run (cache : Lru) (calls : List LruCall) : Lru :=
  calls.foldl step cache

def size (cache : Lru) : Nat :=
  ((List.range NUM_SHARDS).map fun i => (cache.shards i).map.entries.length).sum

def inserts (cache : Lru) (call : LruCall) (code : String) : Bool :=
  match call with
  | .put _ c _ _ => c == code && (cache.find code).isNone
  | _ => false

def insertsAt (cache : Lru) (calls : List LruCall) (code : String) (n : Nat) : Bool :=
  calls[n]?.any fun call => (cache.run (calls.take n)).inserts call code

/-- Which call, counted from one, put the entry of a code in last; 0 if none did. -/
def insertedAt (cache : Lru) (calls : List LruCall) (code : String) : Nat :=
  (((List.range calls.length).filter (cache.insertsAt calls code)).getLast?.map Nat.succ).getD 0

theorem run_concat (cache : Lru) (calls : List LruCall) (call : LruCall) :
    cache.run (calls ++ [call]) = (cache.run calls).step call :=
  List.foldl_concat ..

theorem insertedAt_concat (cache : Lru) (calls : List LruCall) (call : LruCall) (code : String) :
    cache.insertedAt (calls ++ [call]) code =
      if (cache.run calls).inserts call code then calls.length + 1
      else cache.insertedAt calls code := by
  have before : (List.range calls.length).filter (cache.insertsAt (calls ++ [call]) code) =
      (List.range calls.length).filter (cache.insertsAt calls code) := by
    refine List.filter_congr fun n early => ?_
    rw [List.mem_range] at early
    rw [insertsAt, insertsAt, List.getElem?_append_left early,
      List.take_append_of_le_length early.le]
  have last : cache.insertsAt (calls ++ [call]) code calls.length =
      (cache.run calls).inserts call code := by
    rw [insertsAt, List.getElem?_concat_length, Option.any_some, List.take_left']
    rfl
  rw [insertedAt, List.length_append, List.length_singleton, List.range_succ, List.filter_append,
    before]
  cases fate : (cache.run calls).inserts call code with
  | true =>
      rw [List.filter_cons_of_pos (last.trans fate), List.filter_nil, List.getLast?_concat]
      rfl
  | false =>
      rw [List.filter_cons_of_neg (by rw [last, fate]; exact Bool.false_ne_true), List.filter_nil,
        List.append_nil]
      rfl

theorem insertedAt_le (cache : Lru) (calls : List LruCall) (code : String) :
    cache.insertedAt calls code ≤ calls.length := by
  rw [insertedAt]
  cases last : ((List.range calls.length).filter (cache.insertsAt calls code)).getLast? with
  | none => exact Nat.zero_le _
  | some n =>
      have among := List.mem_of_mem_filter (List.mem_of_getLast? last)
      exact List.mem_range.mp among

/-! ## The queues -/

/-- Every queue holds the keys of its map in the order of their ages, all of them in
their shard, and is within its bound. -/
structure Ordered (cache : Lru) (age : String → Nat) : Prop where
  tracks : ∀ i, Tracks age (cache.shards i).map (cache.shards i).order
  size : ∀ i, (cache.shards i).order.length ≤ cache.capPerShard
  placed : ∀ i, ∀ c ∈ (cache.shards i).order, shardOf c = i

theorem ordered_new (cap : Nat) (ttlMs : Int64) (age : String → Nat) :
    (Lru.new cap ttlMs).Ordered age where
  tracks _ := .empty age
  size _ := Nat.zero_le _
  placed i c among := by cases among

/-- The number of the call is the age of what it puts in. -/
def ageAfter (cache : Lru) (call : LruCall) (time : Nat) (age : String → Nat) (c : String) : Nat :=
  if cache.inserts call c then time else age c

namespace Ordered

variable {cache : Lru} {age age' : String → Nat}

theorem setShard (ordered : cache.Ordered age) {code : String} {sh : CacheShard}
    (others : ∀ c, shardOf c ≠ shardOf code → age' c = age c) (tracks : Tracks age' sh.map sh.order)
    (size : sh.order.length ≤ cache.capPerShard)
    (placed : ∀ c ∈ sh.order, shardOf c = shardOf code) :
    (cache.setShard code sh).Ordered age' where
  tracks i := by
    by_cases here : i = shardOf code
    · subst here
      simpa only [Lru.setShard, Function.update_self] using tracks
    · simp only [Lru.setShard, Function.update_of_ne here]
      exact (ordered.tracks i).congr fun c among => others c (ordered.placed i c among ▸ here)
  size i := by
    by_cases here : i = shardOf code
    · subst here
      simpa only [Lru.setShard, Function.update_self] using size
    · simpa only [Lru.setShard, Function.update_of_ne here] using ordered.size i
  placed i := by
    by_cases here : i = shardOf code
    · subst here
      simpa only [Lru.setShard, Function.update_self] using placed
    · simpa only [Lru.setShard, Function.update_of_ne here] using ordered.placed i

theorem remove (ordered : cache.Ordered age) (code : String) : (cache.remove code).Ordered age := by
  refine ordered.setShard (fun _ _ => rfl) ((ordered.tracks _).remove code) ?_ fun c among => ?_
  · exact (List.length_filter_le _ _).trans (ordered.size _)
  · exact ordered.placed _ c (List.mem_of_mem_filter among)

/-- A get drops its own entry at most. -/
theorem get (ordered : cache.Ordered age) (stale expired : Int64) (code : String) :
    (cache.get stale expired code).2.Ordered age := by
  rw [Lru.get]
  split
  · exact ordered
  · split
    · exact ordered.remove code
    · split
      · exact ordered
      · exact ordered

theorem put (ordered : cache.Ordered age) (positive : 0 < cache.capPerShard) {time : Nat}
    (earlier : ∀ c, age c < time) (now : Int64) (code u : String) (e : Int64) :
    (cache.put now code u e).Ordered (cache.ageAfter (.put now code u e) time age) := by
  have tracks := ordered.tracks (shardOf code)
  have size := ordered.size (shardOf code)
  have placed := ordered.placed (shardOf code)
  have other : ∀ c, c ≠ code → cache.ageAfter (.put now code u e) time age c = age c := by
    intro c other
    simp [ageAfter, inserts, Ne.symm other]
  have others : ∀ c, shardOf c ≠ shardOf code →
      cache.ageAfter (.put now code u e) time age c = age c :=
    fun c apart => other c fun same => apart (congrArg shardOf same)
  rw [Lru.put]
  rcases CacheShard.put_cases positive size code ⟨u, e, now⟩ with
    ⟨there, same⟩ | ⟨absent, room, same⟩ | ⟨old, order, absent, shape, full, same⟩
  · have kept : cache.ageAfter (.put now code u e) time age = age := by
      have found : cache.find code ≠ none := Map.mem_iff_lookup.mp there
      funext c
      by_cases own : c = code
      · simp [ageAfter, inserts, own, found]
      · exact other c own
    rw [kept, same]
    exact ordered.setShard (fun _ _ => rfl) (tracks.update there _) size placed
  all_goals
    have new : cache.ageAfter (.put now code u e) time age code = time := by
      have missing : cache.find code = none := Map.not_mem_iff_lookup.mp absent
      simp [ageAfter, inserts, missing]
    have unlike : ∀ c ∈ (cache.shards (shardOf code)).order, c ≠ code := by
      rintro c among rfl
      exact absent ((tracks.mem_iff c).mp among)
  · rw [same]
    refine ordered.setShard others (tracks.push (fun c among => other c (unlike c among))
      (fun c _ => by rw [new]; exact earlier c) _) ?_ ?_
    · rwa [List.length_append]
    · intro c among
      rcases List.mem_append.mp among with before | own
      · exact placed c before
      · rw [List.mem_singleton.mp own]
  · rw [same]
    rw [shape] at tracks placed unlike
    refine ordered.setShard others (tracks.pop.push
      (fun c among => other c (unlike c (List.mem_cons_of_mem _ among)))
      (fun c _ => by rw [new]; exact earlier c) _) ?_ ?_
    · rw [List.length_append]
      exact full.le
    · intro c among
      rcases List.mem_append.mp among with before | own
      · exact placed c (List.mem_cons_of_mem _ before)
      · rw [List.mem_singleton.mp own]

/-- The step lemma. -/
theorem step (ordered : cache.Ordered age) (positive : 0 < cache.capPerShard) {time : Nat}
    (earlier : ∀ c, age c < time) (call : LruCall) :
    (cache.step call).Ordered (cache.ageAfter call time age) := by
  cases call with
  | get stale expired code => exact ordered.get stale expired code
  | put now code u e => exact ordered.put positive earlier now code u e
  | remove code => exact ordered.remove code

/-- What a put drops is the oldest key of its shard, and only to make room for a new
one. -/
theorem evicted_iff (ordered : cache.Ordered age) (positive : 0 < cache.capPerShard) (now : Int64)
    (code u : String) (e : Int64) (k : String) :
    (cache.find k ≠ none ∧ (cache.put now code u e).find k = none) ↔
      cache.find code = none ∧
        cache.capPerShard ≤ (cache.shards (shardOf code)).order.length ∧
        k ∈ (cache.shards (shardOf code)).map ∧
        ∀ k' ∈ (cache.shards (shardOf code)).map, age k ≤ age k' := by
  have tracks := ordered.tracks (shardOf code)
  have size := ordered.size (shardOf code)
  by_cases shard : shardOf k = shardOf code
  · rw [Lru.put, find_setShard_same cache code _ shard, find, shard, find]
    rcases CacheShard.put_cases positive size code ⟨u, e, now⟩ with
      ⟨there, same⟩ | ⟨absent, room, same⟩ | ⟨old, order, absent, shape, full, same⟩
    · rw [same]
      constructor
      · rintro ⟨found, gone⟩
        exact absurd (Map.lookup_eq_none_of_insert gone) found
      · rintro ⟨missing, -⟩
        exact absurd missing (Map.mem_iff_lookup.mp there)
    · rw [same]
      constructor
      · rintro ⟨found, gone⟩
        exact absurd (Map.lookup_eq_none_of_insert gone) found
      · rintro ⟨-, full, -⟩
        exact absurd room (Nat.not_lt.mpr full)
    · have missing := Map.not_mem_iff_lookup.mp absent
      rw [shape] at tracks
      have pushed : cache.capPerShard ≤ (cache.shards (shardOf code)).order.length := by
        rw [shape]
        exact full.ge
      rw [same, ← tracks.eq_head_iff k]
      constructor
      · rintro ⟨found, gone⟩
        have dropped := Map.lookup_eq_none_of_insert gone
        rw [Map.lookup_erase_eq] at dropped
        split at dropped
        · rename_i oldest
          exact ⟨missing, pushed, oldest⟩
        · exact absurd dropped found
      · rintro ⟨-, -, rfl⟩
        have member := (tracks.mem_iff k).mp List.mem_cons_self
        refine ⟨Map.mem_iff_lookup.mp member, ?_⟩
        have other : k ≠ code := by
          rintro rfl
          exact absent member
        rw [AList.lookup_insert_ne other, AList.lookup_erase]
  · rw [Lru.put, find_setShard_other cache _ shard]
    constructor
    · rintro ⟨found, gone⟩
      exact absurd gone found
    · rintro ⟨-, -, member, -⟩
      exact absurd (ordered.placed _ k ((tracks.mem_iff k).mpr member)) shard

/-- All shards together hold what their bounds add up to. -/
theorem size_le (ordered : cache.Ordered age) : cache.size ≤ NUM_SHARDS * cache.capPerShard := by
  have each : ∀ n ∈ (List.range NUM_SHARDS).map fun i => (cache.shards i).map.entries.length,
      n ≤ cache.capPerShard := by
    intro n among
    obtain ⟨i, -, rfl⟩ := List.mem_map.mp among
    rw [← (ordered.tracks i).length_eq]
    exact ordered.size i
  have bound := List.sum_le_card_nsmul _ _ each
  rwa [List.length_map, List.length_range, Nat.nsmul_eq_mul] at bound

end Ordered

theorem capPerShard_step (cache : Lru) (call : LruCall) :
    (cache.step call).capPerShard = cache.capPerShard := by
  cases call with
  | get stale expired code =>
      rw [step, get]
      split
      · rfl
      · split
        · rfl
        · split
          · rfl
          · rfl
  | put now code u e => rfl
  | remove code => rfl

/-! ## Runs -/

variable (cap : Nat) (ttlMs : Int64)

theorem capPerShard_run (calls : List LruCall) :
    ((Lru.new cap ttlMs).run calls).capPerShard = max (cap / NUM_SHARDS) 16 := by
  induction calls using List.reverseRecOn with
  | nil => rfl
  | append_singleton calls call ih => rw [run_concat, capPerShard_step, ih]

theorem capPerShard_run_pos (calls : List LruCall) :
    0 < ((Lru.new cap ttlMs).run calls).capPerShard := by
  rw [capPerShard_run]
  exact Nat.lt_of_lt_of_le (by decide) (Nat.le_max_right _ 16)

/-- The run lemma: through every call the keys are queued in the order of the calls
that put them in. -/
theorem ordered_run (calls : List LruCall) :
    ((Lru.new cap ttlMs).run calls).Ordered ((Lru.new cap ttlMs).insertedAt calls) := by
  induction calls using List.reverseRecOn with
  | nil => exact ordered_new cap ttlMs _
  | append_singleton calls call ih =>
      have after := ih.step (capPerShard_run_pos cap ttlMs calls)
        (fun c => Nat.lt_succ_of_le (insertedAt_le _ calls c)) call
      have ages : (Lru.new cap ttlMs).insertedAt (calls ++ [call]) =
          ((Lru.new cap ttlMs).run calls).ageAfter call (calls.length + 1)
            ((Lru.new cap ttlMs).insertedAt calls) :=
        funext fun c => insertedAt_concat _ calls call c
      rw [run_concat, ages]
      exact after

theorem shards_cap : NUM_SHARDS * max (cap / NUM_SHARDS) 16 ≤ max cap 4096 := by
  rw [← Nat.mul_max_mul_left]
  exact max_le_max (Nat.mul_div_le cap NUM_SHARDS) (Nat.le_refl _)

/-- After any calls, whatever the clock reads in them: the queue of each shard holds
every key of its map once, in the shard of each, and no more of them than the shard's
part; the whole cache is within its capacity; and what a further put drops is the key
that was put into its shard longest ago, if it must make room. -/
theorem cache_represented (calls : List LruCall) :
    let start := Lru.new cap ttlMs
    let cache := start.run calls
    (∀ i, (cache.shards i).order.Nodup ∧
        (∀ c, c ∈ (cache.shards i).order ↔ c ∈ (cache.shards i).map) ∧
        (cache.shards i).order.length ≤ max (cap / NUM_SHARDS) 16 ∧
        ∀ c ∈ (cache.shards i).map, shardOf c = i) ∧
      cache.size ≤ max cap 4096 ∧
      ∀ now code u e k,
        (cache.find k ≠ none ∧ (cache.put now code u e).find k = none) ↔
          cache.find code = none ∧
            max (cap / NUM_SHARDS) 16 ≤ (cache.shards (shardOf code)).order.length ∧
            k ∈ (cache.shards (shardOf code)).map ∧
            ∀ k' ∈ (cache.shards (shardOf code)).map,
              start.insertedAt calls k ≤ start.insertedAt calls k' := by
  intro start cache
  have ordered : cache.Ordered (start.insertedAt calls) := ordered_run cap ttlMs calls
  have bound : cache.capPerShard = max (cap / NUM_SHARDS) 16 := capPerShard_run cap ttlMs calls
  refine ⟨fun i => ⟨(ordered.tracks i).nodup, (ordered.tracks i).mem_iff, ?_, ?_⟩, ?_, ?_⟩
  · rw [← bound]
    exact ordered.size i
  · intro c member
    exact ordered.placed i c (((ordered.tracks i).mem_iff c).mpr member)
  · calc cache.size ≤ NUM_SHARDS * cache.capPerShard := ordered.size_le
      _ = NUM_SHARDS * max (cap / NUM_SHARDS) 16 := by rw [bound]
      _ ≤ max cap 4096 := shards_cap cap
  · intro now code u e k
    rw [← bound]
    exact ordered.evicted_iff (capPerShard_run_pos cap ttlMs calls) now code u e k

end Lru

/-! ## In the store -/

namespace KvStore

/-- The cache of the store came from a new one by its own calls. -/
def Caches (cap : Nat) (ttlMs : Int64) (s : KvStore) : Prop :=
  ∃ calls, s.cache = (Lru.new cap ttlMs).run calls

namespace Caches

variable {cap : Nat} {ttlMs : Int64} {s s' : KvStore}

theorem unchanged (caches : s.Caches cap ttlMs) (same : s'.cache = s.cache) :
    s'.Caches cap ttlMs := by
  obtain ⟨calls, made⟩ := caches
  exact ⟨calls, same.trans made⟩

theorem called (caches : s.Caches cap ttlMs) (call : LruCall)
    (same : s'.cache = s.cache.step call) : s'.Caches cap ttlMs := by
  obtain ⟨calls, made⟩ := caches
  refine ⟨calls ++ [call], ?_⟩
  rw [same, made, Lru.run_concat]

theorem keptByCreates (env : KvEnv) (ttl : Int64) : KeptByCreates env ttl (Caches cap ttlMs) where
  evicted _ _ caches := caches.unchanged rfl
  created _ _ _ _ _ _ _ caches := caches.unchanged rfl

theorem resolve (caches : s.Caches cap ttlMs) (env : KvEnv) (code : String) :
    (s.resolve env code).2.Caches cap ttlMs := by
  have looked : Caches cap ttlMs { s with cache := (s.cached env code).2 } :=
    caches.called (.get (env.clock 0) (env.clock 1) code) rfl
  rw [KvStore.resolve]
  split
  · exact looked.unchanged (cache_bump env _ code)
  · split
    · exact looked.unchanged rfl
    · rename_i row _
      exact looked.called (.put (env.clock 4) code row.u row.e) (cache_bump env _ code)

theorem update (caches : s.Caches cap ttlMs) (env : KvEnv) (code url : String) (ttl : Int64)
    (hasTtl : Bool) : (s.update env code url ttl hasTtl).2.Caches cap ttlMs := by
  rw [KvStore.update]
  cases ((s.atStep env 0).kvGet code).bind decVal with
  | none => exact caches.unchanged rfl
  | some row => exact caches.called (.remove code) rfl

theorem remove (caches : s.Caches cap ttlMs) (env : KvEnv) (code : String) :
    (s.remove env code).2.Caches cap ttlMs := by
  rw [KvStore.remove]
  split
  · exact caches.called (.remove code) rfl
  · exact caches.unchanged rfl

theorem addHits (caches : s.Caches cap ttlMs) (code : String) (d : Int64) :
    (s.addHits code d).Caches cap ttlMs :=
  caches.unchanged rfl

theorem flushHits (caches : s.Caches cap ttlMs) (env : KvEnv) :
    (s.flushHits env).Caches cap ttlMs := by
  have start : Caches cap ttlMs { s.atStep env 0 with dirty := ∅ } := caches.unchanged rfl
  exact Runs.invariant (fun s cn caches => caches.addHits cn.1 cn.2) start _

theorem step (caches : s.Caches cap ttlMs) (call : KvEnv × KvCall) :
    (s.step call).Caches cap ttlMs := by
  obtain ⟨env, call⟩ := call
  cases call with
  | shorten url aliasCode ttl => exact (keptByCreates env ttl).step_shorten url aliasCode caches
  | shortenMany urls ttl => exact (keptByCreates env ttl).step_shortenMany urls caches
  | update code url ttl hasTtl => exact caches.update env code url ttl hasTtl
  | remove code => exact caches.remove env code
  | resolve code => exact caches.resolve env code
  | flushHits => exact caches.flushHits env
  | sweepExpired => exact caches.unchanged rfl

end Caches

theorem caches_run (inst : Inst) (layout : Layout) (buckets : Buckets) (cacheEntries : Nat)
    (cacheTtlMs : Int64) (history : List (KvEnv × KvCall)) :
    ((fresh inst layout buckets cacheEntries cacheTtlMs).run history).Caches
      (max cacheEntries 1) cacheTtlMs := by
  have start : (fresh inst layout buckets cacheEntries cacheTtlMs).Caches
      (max cacheEntries 1) cacheTtlMs := ⟨[], rfl⟩
  generalize max cacheEntries 1 = cap at start
  exact Runs.invariant (fun s call caches => caches.step call) start history

/-- However many links a process has resolved, its cache holds no more than it was
configured for, or 4096. -/
theorem size_cache_le (inst : Inst) (layout : Layout) (buckets : Buckets) (cacheEntries : Nat)
    (cacheTtlMs : Int64) (history : List (KvEnv × KvCall)) :
    ((fresh inst layout buckets cacheEntries cacheTtlMs).run history).cache.size ≤
      max cacheEntries 4096 := by
  obtain ⟨calls, made⟩ := caches_run inst layout buckets cacheEntries cacheTtlMs history
  rw [made]
  refine (Lru.ordered_run _ _ calls).size_le.trans ?_
  rw [Lru.capPerShard_run]
  exact (Lru.shards_cap _).trans (by omega)

end KvStore

end Shrt.Kv
