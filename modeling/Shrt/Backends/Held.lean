import Mathlib.Data.List.Basic
import Shrt.Backends.KvWords
import Shrt.Backends.RocksWords
import Shrt.Http.StoreCalls

/-!
# Links that are held

A store holds the link of a code as long as its row stands in the server or in the database.
The row stays until it is past its expiry, unless a call revises it; and where the cache has
an entry of the code, it is of this link or was there before it.
-/

namespace Shrt.Backends

open Shrt.Codec Shrt.Lib Shrt.Lib.Utf8 Shrt.Kv Shrt.Rocks
open Shrt.Http (StoreCall)
open Shrt.Store.Inner (expiry)

/-! ## The cache -/

/-- The cache does not serve an entry: it was kept too long, or its link is past its
expiry. -/
def Unserved (ttl stale expired : Int64) (ent : CacheEntry) : Prop :=
  (ttl > 0 ∧ stale - ent.cachedAt > ttl) ∨ past ent.e expired = true

instance (ttl stale expired : Int64) (ent : CacheEntry) : Decidable (Unserved ttl stale expired ent) :=
  inferInstanceAs (Decidable (_ ∨ _))

/-- Under the code the cache has an entry of the link, the one that it had before, or
none. -/
structure Remembers (code : String) (link : Word) (before : Option CacheEntry) (ttl : Int64)
    (cache : Lru) : Prop where
  entry : ∀ ent, cache.find code = some ent → before = some ent ∨ (ent.u = link.u ∧ ent.e = link.e)
  ttlMs : cache.ttlMs = ttl

namespace Remembers

variable {code : String} {link : Word} {before : Option CacheEntry} {ttl : Int64} {cache : Lru}

theorem start (code : String) (link : Word) (cache : Lru) :
    Remembers code link (cache.find code) cache.ttlMs cache where
  entry _ found := Or.inl found
  ttlMs := rfl

theorem of_find {cache' : Lru} (remembers : Remembers code link before ttl cache)
    (kept : ∀ ent, cache'.find code = some ent → cache.find code = some ent)
    (same : cache'.ttlMs = cache.ttlMs) : Remembers code link before ttl cache' where
  entry ent found := remembers.entry ent (kept ent found)
  ttlMs := same.trans remembers.ttlMs

theorem get (remembers : Remembers code link before ttl cache) (stale expired : Int64)
    (c : String) : Remembers code link before ttl (cache.get stale expired c).2 := by
  refine remembers.of_find (fun _ found => Lru.find_get found) ?_
  rw [Lru.get]
  split
  · rfl
  · split
    · rfl
    · split
      · rfl
      · rfl

theorem put (remembers : Remembers code link before ttl cache) (now : Int64) {c u : String}
    {e : Int64} (own : c = code → u = link.u ∧ e = link.e) :
    Remembers code link before ttl (cache.put now c u e) where
  entry ent found := by
    rcases Lru.find_put _ _ _ _ _ found with ⟨same, rfl⟩ | ⟨-, kept⟩
    · exact Or.inr (own same.symm)
    · exact remembers.entry ent kept
  ttlMs := remembers.ttlMs

theorem remove (remembers : Remembers code link before ttl cache) (c : String) :
    Remembers code link before ttl (cache.remove c) := by
  refine remembers.of_find (fun ent found => ?_) rfl
  rw [Lru.find_remove] at found
  split at found
  · cases found
  · exact found

theorem cleared (remembers : Remembers code link before ttl cache) :
    Remembers code link before ttl { cache with shards := fun _ => .empty } where
  entry ent found := by
    rw [Lru.find] at found
    cases found
  ttlMs := remembers.ttlMs

/-- What the cache serves is the url of the link. -/
theorem served (remembers : Remembers code link before ttl cache) {stale expired : Int64}
    {u : String} {e : Int64} (hit : (cache.get stale expired code).1 = some (u, e))
    (other : ∀ ent, before = some ent → ent.u = link.u ∨ Unserved ttl stale expired ent) :
    u = link.u := by
  rw [Lru.get] at hit
  split at hit
  · cases hit
  rename_i ent found
  split at hit
  · cases hit
  rename_i recent
  split at hit
  · cases hit
  rename_i current
  cases hit
  rcases remembers.entry ent found with old | ⟨same, -⟩
  · rcases other ent old with same | kept | late
    · exact same
    · rw [remembers.ttlMs] at recent
      simp [kept] at recent
    · exact absurd late current
  · exact same

end Remembers

/-! ## The key-value store -/

/-- The server may not evict a string before the expiry. -/
def LastsUntil (e : Int64) (st : Stored) : Prop :=
  ∀ d, st.deadline = some d → e ≠ 0 ∧ e.toInt ≤ d

theorem LastsUntil.not_due {e now : Int64} {st : Stored} (lasts : LastsUntil e st)
    (current : past e now = false) : st.due now = false := by
  rw [Stored.due]
  cases deadline : st.deadline with
  | none => rfl
  | some d =>
      obtain ⟨nonzero, le⟩ := lasts d deadline
      by_contra due
      have reached : d ≤ now.toInt := by simpa using due
      have old : e ≤ now := Int64.le_iff_toInt_le.mpr (le.trans reached)
      rw [past, Bool.and_eq_false_iff] at current
      rcases current with zero | future
      · exact nonzero (by simpa using zero)
      · exact absurd (decide_eq_true old) (by rw [future]; decide)

/-- The server has the row of the link, and the cache nothing newer. -/
structure KvHolds (code : String) (link : Word) (before : Option CacheEntry) (ttl : Int64)
    (s : KvStore) : Prop where
  row : kvWords s code = some link
  lasts : s.layout = .key → s.kv.AtKeys (fun _ => lkey code) (LastsUntil link.e)
  cache : Remembers code link before ttl s.cache

theorem kvWords_congr {s s' : KvStore} {c : String} (same : s'.kvGet c = s.kvGet c) :
    kvWords s' c = kvWords s c := by
  rw [kvWords, kvWords, KvStore.row, KvStore.row, same]

namespace KvHolds

variable {code : String} {link : Word} {before : Option CacheEntry} {ttl : Int64} {s : KvStore}
variable {env : KvEnv}

theorem atStep (holds : KvHolds code link before ttl s) {t : Nat}
    (current : past link.e (env.clock t) = false) : KvHolds code link before ttl (s.atStep env t) where
  row := by
    rw [kvWords_congr, holds.row]
    cases layout : s.layout with
    | hash =>
        simp only [KvStore.kvGet, KvStore.atStep, layout]
        rfl
    | key =>
        simp only [KvStore.kvGet, KvStore.atStep, layout, Redis.get]
        rcases Redis.lookup_evict s.kv (env.clock t) (env.evicts t) (lkey code) with
          same | ⟨-, st, found, due⟩
        · rw [same]
        · rw [((holds.lasts layout) code st found).not_due current] at due
          cases due
  lasts layout := (holds.lasts layout).evict _ _
  cache := holds.cache

theorem setRow (holds : KvHolds code link before ttl s) (now : Int64) {c : String}
    (other : code ≠ c) (value : Bytes) (px : Int64) :
    KvHolds code link before ttl (s.setRow now c value px) where
  row := by
    rw [kvWords, KvStore.row_setRow_other _ _ _ _ other]
    exact holds.row
  lasts layout := by
    have layout' : s.layout = .key := layout
    simp only [KvStore.setRow, layout']
    exact (holds.lasts layout').set fun _ same => absurd (lkey_injective same) other
  cache := holds.cache

/-- A row under another code, or none where there is one. -/
theorem setNx (holds : KvHolds code link before ttl s) (now : Int64) (c : String) (value : Bytes)
    (px : Int64) : KvHolds code link before ttl (s.setNx now c value px).2 := by
  cases free : (s.setNx now c value px).1 with
  | false =>
      rw [KvStore.setNx_taken free]
      exact holds
  | true =>
      have other : code ≠ c := by
        rintro rfl
        have row := holds.row
        rw [KvStore.fst_setNx, Option.isNone_iff_eq_none] at free
        rw [kvWords, KvStore.row, free] at row
        cases row
      rw [KvStore.setNx_free free]
      exact holds.setRow now other value px

theorem keptByCreates (current : ∀ t, past link.e (env.clock t) = false) (px : Int64) :
    KvStore.KeptByCreates env px (KvHolds code link before ttl) where
  evicted _ t holds := holds.atStep (current t)
  created _ _ _ _ _ _ _ holds := holds.setNx _ _ _ _

theorem bump (holds : KvHolds code link before ttl s) (env : KvEnv) (c : String) :
    KvHolds code link before ttl (s.bump env c) := by
  rw [KvStore.bump]
  split
  · exact ⟨holds.row, holds.lasts, holds.cache⟩
  · exact holds

/-- What is read of the code is the link. -/
theorem read (holds : KvHolds code link before ttl s) {row : Row} (found : s.row code = some row) :
    row.u = link.u ∧ row.e = link.e := by
  have shown := holds.row
  rw [kvWords, found] at shown
  cases shown
  exact ⟨rfl, rfl⟩

theorem resolve (holds : KvHolds code link before ttl s)
    (current : past link.e (env.clock 2) = false) (c : String) :
    KvHolds code link before ttl (s.resolve env c).2 := by
  have looked : KvHolds code link before ttl { s with cache := (s.cached env c).2 } :=
    ⟨holds.row, holds.lasts, holds.cache.get _ _ c⟩
  have read := looked.atStep current
  rw [KvStore.resolve]
  cases hit : (s.cached env c).1 with
  | some shown => exact looked.bump env c
  | none =>
      dsimp only
      split
      · exact read
      · rename_i row got
        have own : c = code → row.u = link.u ∧ row.e = link.e := by
          rintro rfl
          exact read.read (KvStore.row_of_readRow got)
        exact bump (s := { KvStore.atStep { s with cache := (s.cached env c).2 } env 2 with
          cache := (s.cached env c).2.put (env.clock 4) c row.u row.e })
          ⟨read.row, read.lasts, read.cache.put (env.clock 4) own⟩ env c

theorem update (holds : KvHolds code link before ttl s)
    (current : ∀ t, past link.e (env.clock t) = false) {c : String} (other : code ≠ c)
    (url : String) (px : Int64) (hasTtl : Bool) :
    KvHolds code link before ttl (s.update env c url px hasTtl).2 := by
  have first := holds.atStep (current 0)
  rw [KvStore.update]
  split
  · exact first
  · have last := (first.atStep (current 3)).setRow (env.clock 3) other
    exact ⟨(last _ _).row, (last _ _).lasts, (last _ _).cache.remove c⟩

theorem delRow (holds : KvHolds code link before ttl s) {c : String} (other : code ≠ c) :
    KvHolds code link before ttl (s.delRow c).2 where
  row := by
    rw [kvWords, KvStore.row_delRow_other _ other]
    exact holds.row
  lasts layout := by
    have layout' : s.layout = .key := layout
    simp only [KvStore.delRow, layout']
    exact (holds.lasts layout').del _
  cache := holds.cache

theorem delHits (plain : Plain code) (holds : KvHolds code link before ttl s) (c : String) :
    KvHolds code link before ttl (s.delHits c) where
  row := by
    rw [kvWords_congr (KvStore.kvGet_delHits s c plain), holds.row]
  lasts layout := by
    have layout' : s.layout = .key := layout
    simp only [KvStore.delHits, layout']
    exact (holds.lasts layout').del _
  cache := holds.cache

theorem addHits (plain : Plain code) (holds : KvHolds code link before ttl s) (c : String)
    (d : Int64) : KvHolds code link before ttl (s.addHits c d) where
  row := by
    rw [kvWords_congr (KvStore.kvGet_addHits s c d plain), holds.row]
  lasts layout := by
    have layout' : s.layout = .key := layout
    simp only [KvStore.addHits, layout', Redis.incrby]
    exact (holds.lasts layout').setString fun _ same => absurd same (lkey_ne_hkey code c)
  cache := holds.cache

theorem remove (plain : Plain code) (holds : KvHolds code link before ttl s)
    (current : ∀ t, past link.e (env.clock t) = false) {c : String} (other : code ≠ c) :
    KvHolds code link before ttl (s.remove env c).2 := by
  have first := (holds.atStep (current 0)).delRow other
  have second := (first.atStep (current 1)).delHits plain c
  rw [KvStore.remove]
  dsimp only
  split
  · exact ⟨second.row, second.lasts, second.cache.remove c⟩
  · exact first

/-- A call that revises no row of the code. -/
theorem run (plain : Plain code) (holds : KvHolds code link before ttl s)
    (current : ∀ t, past link.e (env.clock t) = false) (scan : Scan) {call : StoreCall}
    (wellFormed : call.Plain) (spared : call.revises ≠ some code) :
    KvHolds code link before ttl (call.run (kvOps env scan) s) := by
  cases call with
  | resolve c => exact holds.resolve (current 2) c
  | shorten url aliasCode px =>
      simp only [StoreCall.run, kvOps]
      cases done : s.shorten env url aliasCode px with
      | none => exact holds
      | some result =>
          exact (keptByCreates current px).shorten (fun a given => .of_codeOk (wellFormed a given))
            holds done
  | shortenMany urls px =>
      simp only [StoreCall.run, kvOps]
      cases done : s.shortenMany env urls px with
      | none => exact holds
      | some result => exact (keptByCreates current px).shortenMany holds done
  | update c url px hasTtl =>
      exact holds.update current (fun same => spared (congrArg some same.symm)) url px hasTtl
  | remove c => exact holds.remove plain current fun same => spared (congrArg some same.symm)

/-! ### The threads -/

theorem flushHits (plain : Plain code) (holds : KvHolds code link before ttl s)
    (current : past link.e (env.clock 0) = false) :
    KvHolds code link before ttl (s.flushHits env) := by
  have first := holds.atStep current
  have start : KvHolds code link before ttl { s.atStep env 0 with dirty := ∅ } :=
    ⟨first.row, first.lasts, first.cache⟩
  have sent : ∀ (s : KvStore) (cn : String × Int64), KvHolds code link before ttl s →
      KvHolds code link before ttl (s.addHits cn.1 cn.2) := fun _ cn holds =>
    addHits plain holds cn.1 cn.2
  exact Runs.invariant sent start _

/-- The sweep deletes rows that are past their expiry. -/
theorem sweepExpired (holds : KvHolds code link before ttl s)
    (current : ∀ t, past link.e (env.clock t) = false) :
    KvHolds code link before ttl (s.sweepExpired env) := by
  have first := holds.atStep (current 0)
  refine ⟨?_, fun layout => ?_, first.cache⟩
  · rw [kvWords_congr, first.row]
    cases layout : s.layout with
    | key =>
        simp only [KvStore.kvGet, KvStore.sweepExpired, KvStore.atStep, layout, Redis.get,
          KvStore.strings_sweep]
    | hash =>
        have shown := first.row
        simp only [kvWords, KvStore.row, KvStore.kvGet, KvStore.sweepExpired, KvStore.atStep,
          layout] at shown ⊢
        rcases KvStore.swept_sweep (env.clock 1) _ (s.kv.evict (env.clock 0) (env.evicts 0))
          (bkey code s.buckets) (encode code) with same | ⟨-, v, found, row, decoded, old⟩
        · exact same
        · rw [found, Option.bind_some, decoded, Option.map_some, Option.some.injEq] at shown
          rw [← shown] at current
          rw [current 1] at old
          cases old
  · have kept := first.lasts layout
    intro c st found
    simp only [KvStore.sweepExpired, KvStore.strings_sweep] at found
    exact kept c st found

theorem listKeys (current : ∀ t, past link.e (env.clock t) = false)
    (holds : KvHolds code link before ttl s) (q : String) (t : Nat) (keys : List Bytes) :
    KvHolds code link before ttl (KvStore.listKeys env q s t keys).2 := by
  induction keys generalizing s t with
  | nil => exact holds
  | cons k keys ih =>
      have later := ih ((holds.atStep (current t)).atStep (current (t + 1))) (t + 2)
      rw [KvStore.listKeys]
      split
      · exact later
      · split
        · exact later
        · exact later

theorem list (holds : KvHolds code link before ttl s)
    (current : ∀ t, past link.e (env.clock t) = false) (scan : Scan) (limit offset : Nat)
    (sort q : String) : KvHolds code link before ttl (s.list env scan limit offset sort q).2 := by
  have read := holds.atStep (current 0)
  rw [KvStore.list, KvStore.listed]
  dsimp only
  split
  · exact read
  · exact listKeys current read q 1 _

theorem restart (plain : Plain code) (holds : KvHolds code link before ttl s)
    (current : past link.e (env.clock 0) = false) :
    KvHolds code link before ttl (kvRestart env s) :=
  have flushed := holds.flushHits plain current
  ⟨flushed.row, flushed.lasts, holds.cache.cleared⟩

/-- A resolve of the code answers the url of the link. -/
theorem shown (holds : KvHolds code link before ttl s)
    (current : ∀ t, past link.e (env.clock t) = false)
    (other : ∀ ent, before = some ent → ent.u = link.u ∨
      Unserved ttl (env.clock 0) (env.clock 1) ent) :
    (s.resolve env code).1 = some link.u := by
  rw [KvStore.resolve]
  cases hit : (s.cached env code).1 with
  | some shown => exact congrArg some (holds.cache.served hit other)
  | none =>
      have read := (holds.atStep (current 2)).row
      rw [kvWords, Option.map_eq_some_iff] at read
      obtain ⟨row, held, rfl⟩ := read
      have got : KvStore.readRow { s with cache := (s.cached env code).2 } env 2 3 code =
          some row := by
        have same : KvStore.readRow { s with cache := (s.cached env code).2 } env 2 3 code =
            s.readRow env 2 3 code := rfl
        rw [same, KvReflects.readRow_eq, held, Option.bind_some]
        exact if_neg (Bool.eq_false_iff.mp (current 3))
      rw [got]

/-- A created link lasts in the server until its expiry; a server that evicts counts from its
own clock. -/
theorem created {s' : KvStore} {url code' : String} {px : Int64}
    (done : s.shorten env url (some code) px = some (some code', s'))
    (steady : s.layout = .key → 0 ≤ env.clock 0 ∧ env.clock 0 ≤ env.clock 1) :
    code' = code ∧
      KvHolds code ⟨url, expiry (env.clock 0) px⟩ (s'.cache.find code) s'.cache.ttlMs s' := by
  simp only [KvStore.shorten, KvStore.shortenFrom, Option.map_some, Option.some.injEq,
    Prod.mk.injEq] at done
  obtain ⟨made, rfl⟩ := done
  split at made
  · rename_i free
    cases made
    refine ⟨rfl, ?_, fun layout => ?_, .start _ _ _⟩
    · refine KvReflects.kvWords_of_kvGet (c := env.clock 0) ?_
      rw [KvStore.setNx_free free, KvStore.kvGet_setRow, if_pos rfl]
    · have layout' : (s.atStep env 1).layout = .key := layout
      rw [KvStore.fst_setNx, Option.isNone_iff_eq_none] at free
      simp only [KvStore.kvGet, layout', Redis.get, Option.map_eq_none_iff] at free
      have none_yet : (s.atStep env 1).kv.AtKeys (fun _ => lkey code)
          (LastsUntil (expiry (env.clock 0) px)) := by
        intro c st found
        rw [free] at found
        cases found
      simp only [KvStore.setNx, layout']
      refine none_yet.set fun c _ d deadline => ?_
      dsimp only at deadline
      split at deadline
      · rename_i positive
        cases deadline
        obtain ⟨nonneg, le⟩ := steady layout
        obtain ⟨nonzero, early⟩ := expiry_spec nonneg positive
        have later : (env.clock 0).toInt ≤ (env.clock (0 + 1)).toInt :=
          Int64.le_iff_toInt_le.mp le
        exact ⟨nonzero, early.trans (by omega)⟩
      · cases deadline
  · cases made

end KvHolds

/-! ## The embedded database -/

/-- The database has the row of the link, and the cache nothing newer. -/
structure RocksHolds (code : String) (link : Word) (before : Option CacheEntry) (ttl : Int64)
    (s : RocksStore) : Prop where
  row : dbWords s.db code = some link
  cache : Remembers code link before ttl s.cache

namespace RocksHolds

variable {code : String} {link : Word} {before : Option CacheEntry} {ttl : Int64} {s s' : RocksStore}
variable {env : RocksEnv}

/-- What is not past its expiry does not lapse. -/
theorem of_lapsed (holds : RocksHolds code link before ttl s) {now : Int64}
    (current : past link.e now = false) (lapsed : Lapsed now (dbWords s.db) (dbWords s'.db))
    (same : s'.cache = s.cache) : RocksHolds code link before ttl s' where
  row := by
    rcases lapsed.missing holds.row with kept | old
    · exact kept
    · rw [current] at old
      cases old
  cache := same ▸ holds.cache

theorem stored_row (holds : RocksHolds code link before ttl s) {now : Int64}
    (current : past link.e now = false) (c : String) :
    RocksHolds code link before ttl (RocksStore.row now s c).2 :=
  holds.of_lapsed current (RocksReflects.lapsed_row (Int64.le_refl now) s c)
    (RocksReflects.cache_row now s c)

/-- Another row is written or deleted. -/
theorem set (holds : RocksHolds code link before ttl s) {c : String} {v : Option Word}
    (words : dbWords s'.db = Function.update (dbWords s.db) c v) (other : code ≠ c)
    (cache : Remembers code link before ttl s'.cache) : RocksHolds code link before ttl s' where
  row := by
    rw [words, Function.update_of_ne other]
    exact holds.row
  cache := cache

theorem putNx (holds : RocksHolds code link before ttl s) {c : String} (e created : Int64)
    (url : String) : RocksHolds code link before ttl (s.putNx c (encVal e created url)).2 := by
  rw [RocksStore.putNx]
  split
  · exact holds
  · rename_i free
    refine holds.set (dbWords_insert s.db c e created url) ?_ holds.cache
    rintro rfl
    have row := holds.row
    rw [dbWords, Map.not_mem_iff_lookup.mp free] at row
    cases row

theorem freshCode (holds : RocksHolds code link before ttl s) {inst : Inst} {e created : Int64}
    {url made : String} {rng : List Suffix}
    (done : RocksStore.freshCode inst (encVal e created url) s rng = some (made, s')) :
    RocksHolds code link before ttl s' := by
  induction rng generalizing s with
  | nil => cases done
  | cons buf rng ih =>
      have tried := holds.putNx (c := Rocks.genCode inst buf) e created url
      rw [RocksStore.freshCode] at done
      split at done
      · cases done
        exact tried
      · exact ih tried done

theorem shorten (holds : RocksHolds code link before ttl s) {inst : Inst} {rng : List Suffix}
    {url : String} {aliasCode made : Option String} {px : Int64}
    (done : s.shorten inst env rng url aliasCode px = some (made, s')) :
    RocksHolds code link before ttl s' := by
  cases aliasCode with
  | some a =>
      simp only [RocksStore.shorten, Option.some.injEq, Prod.mk.injEq] at done
      rw [← done.2]
      exact holds.putNx _ _ _
  | none =>
      simp only [RocksStore.shorten, Option.map_eq_some_iff] at done
      obtain ⟨⟨c, s''⟩, drawn, same⟩ := done
      cases same
      exact holds.freshCode drawn

/-- The batch overwrites only what is under the codes that it draws. -/
theorem shortenMany (holds : RocksHolds code link before ttl s) {inst : Inst} {rng : List Suffix}
    {urls codes : List String} {px : Int64}
    (undrawn : code ∉ (rng.take urls.length).map (Rocks.genCode inst))
    (done : s.shortenMany inst env rng urls px = some (codes, s')) :
    RocksHolds code link before ttl s' := by
  rw [RocksStore.shortenMany] at done
  dsimp only at done
  split at done
  · cases done
  cases done
  refine ⟨?_, holds.cache⟩
  dsimp only
  rw [RocksReflects.dbWords_batch, RocksReflects.puts_other, holds.row]
  rw [List.map_map]
  intro drawn
  obtain ⟨cu, among, rfl⟩ := List.mem_map.mp drawn
  exact undrawn (List.of_mem_zip among).1

theorem resolve (holds : RocksHolds code link before ttl s)
    (current : past link.e (env.clock 2) = false) (c : String) :
    RocksHolds code link before ttl (s.resolve env c).2 := by
  have looked : RocksHolds code link before ttl { s with cache := (s.cached env c).2 } :=
    ⟨holds.row, holds.cache.get _ _ c⟩
  have read := looked.stored_row current c
  rw [RocksStore.resolve]
  cases hit : (s.cached env c).1 with
  | some shown => exact ⟨looked.row, looked.cache⟩
  | none =>
      dsimp only
      cases done : RocksStore.row (env.clock 2) { s with cache := (s.cached env c).2 } c with
      | mk found s' =>
          rw [done] at read
          cases found with
          | none => exact read
          | some row =>
              have own : c = code → row.u = link.u ∧ row.e = link.e := by
                rintro rfl
                obtain ⟨held, -, -⟩ := RocksReflects.row_some (congrArg Prod.fst done)
                have shown := looked.row
                rw [RocksReflects.dbWords_stored held] at shown
                cases shown
                exact ⟨rfl, rfl⟩
              exact ⟨read.row, read.cache.put (env.clock 3) own⟩

theorem update (holds : RocksHolds code link before ttl s)
    (current : past link.e (env.clock 0) = false) {c : String} (other : code ≠ c) (url : String)
    (px : Int64) (hasTtl : Bool) :
    RocksHolds code link before ttl (s.update env c url px hasTtl).2 := by
  have read := holds.stored_row current c
  rw [RocksStore.update]
  cases done : RocksStore.row (env.clock 0) s c with
  | mk found s' =>
      rw [done] at read
      cases found with
      | none => exact read
      | some row => exact read.set (dbWords_insert s'.db c _ row.c url) other (read.cache.remove c)

theorem remove (holds : RocksHolds code link before ttl s)
    (current : past link.e (env.clock 0) = false) {c : String} (other : code ≠ c) :
    RocksHolds code link before ttl (s.remove env c).2 := by
  have read := holds.stored_row current c
  rw [RocksStore.remove]
  cases done : RocksStore.row (env.clock 0) s c with
  | mk found s' =>
      rw [done] at read
      cases found with
      | none => exact read
      | some row => exact read.set (dbWords_erase s'.db c) other (read.cache.remove c)

/-- A call that revises no row of the code and draws it for no new link. -/
theorem run (holds : RocksHolds code link before ttl s)
    (current : ∀ t, past link.e (env.clock t) = false) (inst : Inst) (rng : List Suffix)
    (order : IterOrder String Int64) {call : StoreCall} (spared : call.revises ≠ some code)
    (undrawn : ∀ urls px, call = .shortenMany urls px →
      code ∉ (rng.take urls.length).map (Rocks.genCode inst)) :
    RocksHolds code link before ttl (call.run (rocksOps inst env rng order) s) := by
  cases call with
  | resolve c => exact holds.resolve (current 2) c
  | shorten url aliasCode px =>
      simp only [StoreCall.run, rocksOps]
      cases done : s.shorten inst env rng url aliasCode px with
      | none => exact holds
      | some result => exact holds.shorten done
  | shortenMany urls px =>
      simp only [StoreCall.run, rocksOps]
      cases done : s.shortenMany inst env rng urls px with
      | none => exact holds
      | some result => exact holds.shortenMany (undrawn urls px rfl) done
  | update c url px hasTtl =>
      exact holds.update (current 0) (fun same => spared (congrArg some same.symm)) url px hasTtl
  | remove c => exact holds.remove (current 0) fun same => spared (congrArg some same.symm)

/-! ### The threads -/

theorem flushHits (holds : RocksHolds code link before ttl s) (order : IterOrder String Int64) :
    RocksHolds code link before ttl (s.flushHits order) :=
  ⟨holds.row, holds.cache⟩

theorem stats (holds : RocksHolds code link before ttl s)
    (current : past link.e (env.clock 0) = false) (c : String) :
    RocksHolds code link before ttl (s.stats env c).2 := by
  have read := holds.stored_row current c
  rw [RocksStore.stats]
  cases done : RocksStore.row (env.clock 0) s c with
  | mk found s' =>
      rw [done] at read
      cases found with
      | none => exact read
      | some row => exact read

theorem compact (holds : RocksHolds code link before ttl s) {now : Int64}
    (current : past link.e now = false) (chosen : Bytes → Bool) :
    RocksHolds code link before ttl (compacted now chosen s) :=
  holds.of_lapsed current (RocksReflects.lapsed_compacted now chosen s) rfl

theorem restart (holds : RocksHolds code link before ttl s) (order : IterOrder String Int64) :
    RocksHolds code link before ttl (rocksRestart order s) :=
  ⟨holds.row, holds.cache.cleared⟩

/-- A resolve of the code answers the url of the link. -/
theorem shown (holds : RocksHolds code link before ttl s)
    (current : past link.e (env.clock 2) = false)
    (other : ∀ ent, before = some ent → ent.u = link.u ∨
      Unserved ttl (env.clock 0) (env.clock 1) ent) :
    (s.resolve env code).1 = some link.u := by
  rw [RocksStore.resolve]
  cases hit : (s.cached env code).1 with
  | some shown => exact congrArg some (holds.cache.served hit other)
  | none =>
      have there := holds.row
      rw [dbWords, Option.map_eq_some_iff] at there
      obtain ⟨row, held, rfl⟩ := there
      have read : RocksStore.row (env.clock 2) { s with cache := (s.cached env code).2 } code =
          (some row, { s with cache := (s.cached env code).2 }) := by
        have stored : RocksStore.stored { s with cache := (s.cached env code).2 } code =
            some row := held
        rw [RocksStore.row, stored]
        exact if_neg (Bool.eq_false_iff.mp current)
      simp only [read]

theorem created {s' : RocksStore} {inst : Inst} {rng : List Suffix} {url code' : String}
    {px : Int64} (done : s.shorten inst env rng url (some code) px = some (some code', s')) :
    code' = code ∧
      RocksHolds code ⟨url, expiry (env.clock 0) px⟩ (s'.cache.find code) s'.cache.ttlMs s' := by
  simp only [RocksStore.shorten, Option.some.injEq, Prod.mk.injEq] at done
  obtain ⟨made, rfl⟩ := done
  rw [RocksStore.putNx] at made ⊢
  split at made
  · cases made
  · rename_i free
    cases made
    refine ⟨rfl, ?_, .start _ _ _⟩
    rw [if_neg free]
    dsimp only
    rw [dbWords_insert]
    exact Function.update_self ..

end RocksHolds

end Shrt.Backends
