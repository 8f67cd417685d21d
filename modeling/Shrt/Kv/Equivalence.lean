import Mathlib.Data.List.Basic
import Mathlib.Data.Option.Basic
import Shrt.Kv.Listing
import Shrt.Lib.Pages

/-!
# The two layouts are the same store

Two stores that hold the same rows and the same counters, wherever these stand
in the server, answer alike.  Only the order of a scan tells them apart, and it
shows in the pages of a listing.
-/

namespace Shrt.Kv

open Shrt.Codec Shrt.Lib Shrt.Lib.Utf8
open Shrt.Store (Link MutResult)
open Shrt.Store.Inner (expiry)

/-! ## Partial results -/

section Partial

variable {α β γ δ : Type} {R : α → β → Prop} {S : γ → δ → Prop}

theorem rel_map {f : α → γ} {g : β → δ} {a : Option α} {b : Option β} (rel : Option.Rel R a b)
    (maps : ∀ a b, R a b → S (f a) (g b)) : Option.Rel S (a.map f) (b.map g) := by
  cases rel with
  | none => exact .none
  | some holds => exact .some (maps _ _ holds)

theorem rel_bind {f : α → Option γ} {g : β → Option δ} {a : Option α} {b : Option β}
    (rel : Option.Rel R a b) (binds : ∀ a b, R a b → Option.Rel S (f a) (g b)) :
    Option.Rel S (a.bind f) (b.bind g) := by
  cases rel with
  | none => exact .none
  | some holds => exact binds _ _ holds

end Partial

/-! ## Two stores -/

/-- Two calls with the same clock readings and random bytes; what the server
evicts and the orders of iteration are each store's own. -/
structure KvEnv.Like (env env' : KvEnv) : Prop where
  clock : env.clock = env'.clock
  rng : env.rng = env'.rng
  trackHits : env.trackHits = env'.trackHits

namespace KvStore

/-- Two stores with the same rows and counters, whatever their layouts. -/
structure Twins (s s' : KvStore) : Prop where
  filed : s.Filed
  filed' : s'.Filed
  rows : ∀ c, Plain c → s.kvGet c = s'.kvGet c
  counters : ∀ c, Plain c → s.counter c = s'.counter c
  cache : s.cache = s'.cache
  dirty : s.dirty = s'.dirty
  inst : s.inst = s'.inst

/-- A new store has no rows and no counters. -/
theorem kvGet_fresh (inst : Inst) (layout : Layout) (buckets : Buckets) (cacheEntries : Nat)
    (cacheTtlMs : Int64) (c : String) :
    (fresh inst layout buckets cacheEntries cacheTtlMs).kvGet c = none := by
  cases layout with
  | hash => rfl
  | key => rfl

theorem counter_fresh (inst : Inst) (layout : Layout) (buckets : Buckets) (cacheEntries : Nat)
    (cacheTtlMs : Int64) (c : String) :
    (fresh inst layout buckets cacheEntries cacheTtlMs).counter c = none := by
  cases layout with
  | hash => rfl
  | key => rfl

theorem twins_fresh (inst : Inst) (layout layout' : Layout) (buckets buckets' : Buckets)
    (cacheEntries : Nat) (cacheTtlMs : Int64) :
    Twins (fresh inst layout buckets cacheEntries cacheTtlMs)
      (fresh inst layout' buckets' cacheEntries cacheTtlMs) where
  filed := filed_fresh _ _ _ _ _
  filed' := filed_fresh _ _ _ _ _
  rows c _ := (kvGet_fresh inst layout buckets _ _ c).trans (kvGet_fresh inst layout' _ _ _ c).symm
  counters c _ :=
    (counter_fresh inst layout buckets _ _ c).trans (counter_fresh inst layout' _ _ _ c).symm
  cache := rfl
  dirty := rfl
  inst := rfl

/-! ## Sending hits -/

def sendHits (deltas : List (String × Int64)) (s : KvStore) : KvStore :=
  deltas.foldl (fun s cn => s.addHits cn.1 cn.2) s

/-- Only the server changes. -/
theorem sendHits_local (deltas : List (String × Int64)) (s : KvStore) :
    (s.sendHits deltas).cache = s.cache ∧ (s.sendHits deltas).dirty = s.dirty ∧
      (s.sendHits deltas).inst = s.inst := by
  induction deltas generalizing s with
  | nil => exact ⟨rfl, rfl, rfl⟩
  | cons cn deltas ih => exact ih (s.addHits cn.1 cn.2)

theorem Filed.sendHits {s : KvStore} (filed : s.Filed) {deltas : List (String × Int64)}
    (plain : ∀ cn ∈ deltas, Plain cn.1) : (s.sendHits deltas).Filed := by
  induction deltas generalizing s with
  | nil => exact filed
  | cons cn deltas ih =>
      exact ih (filed.addHits (plain cn List.mem_cons_self) cn.2)
        fun later member => plain later (List.mem_cons_of_mem _ member)

theorem kvGet_sendHits (deltas : List (String × Int64)) (s : KvStore) {c : String}
    (plain : Plain c) : (s.sendHits deltas).kvGet c = s.kvGet c := by
  induction deltas generalizing s with
  | nil => rfl
  | cons cn deltas ih =>
      exact (ih (s.addHits cn.1 cn.2)).trans (kvGet_addHits s cn.1 cn.2 plain)

/-- Every counter grows by the one delta of its code. -/
theorem counter_sendHits {deltas : List (String × Int64)} (distinct : (deltas.map Prod.fst).Nodup)
    (s : KvStore) (c : String) :
    (s.sendHits deltas).counter c =
      ((deltas.find? fun cn => cn.1 = c).map fun cn => Redis.counted (s.counter c) cn.2).or
        (s.counter c) := by
  induction deltas generalizing s with
  | nil => rfl
  | cons cn deltas ih =>
      obtain ⟨absent, distinct⟩ := List.nodup_cons.mp distinct
      have later := ih distinct (s.addHits cn.1 cn.2)
      rw [KvStore.sendHits] at later
      rw [KvStore.sendHits, List.foldl_cons, later, List.find?_cons, counter_addHits]
      by_cases same : c = cn.1
      · subst same
        rw [find?_key_eq_none absent]
        simp
      · simp [same, Ne.symm same]

namespace Twins

variable {s s' : KvStore}

/-! ## Commands -/

theorem setRow (twins : Twins s s') (now : Int64) {code : String} (plain : Plain code) (c : Int64)
    (u : String) :
    Twins (s.setRow now code (encVal 0 c u) 0) (s'.setRow now code (encVal 0 c u) 0) where
  filed := twins.filed.setRow now plain c u
  filed' := twins.filed'.setRow now plain c u
  rows c' plain' := by rw [kvGet_setRow, kvGet_setRow, twins.rows c' plain']
  counters c' plain' := by
    rw [counter_setRow s now plain, counter_setRow s' now plain, twins.counters c' plain']
  cache := twins.cache
  dirty := twins.dirty
  inst := twins.inst

theorem setNx (twins : Twins s s') (now : Int64) {code : String} (plain : Plain code) (c : Int64)
    (u : String) :
    (s.setNx now code (encVal 0 c u) 0).1 = (s'.setNx now code (encVal 0 c u) 0).1 ∧
      Twins (s.setNx now code (encVal 0 c u) 0).2 (s'.setNx now code (encVal 0 c u) 0).2 := by
  have fates : (s.setNx now code (encVal 0 c u) 0).1 = (s'.setNx now code (encVal 0 c u) 0).1 := by
    rw [fst_setNx, fst_setNx, twins.rows code plain]
  refine ⟨fates, ?_⟩
  cases fate : (s.setNx now code (encVal 0 c u) 0).1 with
  | true =>
      rw [setNx_free fate, setNx_free (fates ▸ fate)]
      exact twins.setRow now plain c u
  | false =>
      rw [setNx_taken fate, setNx_taken (fates ▸ fate)]
      exact twins

theorem delRow (twins : Twins s s') {code : String} (plain : Plain code) :
    (s.delRow code).1 = (s'.delRow code).1 ∧ Twins (s.delRow code).2 (s'.delRow code).2 where
  left := by rw [fst_delRow, fst_delRow, twins.rows code plain]
  right :=
    { filed := twins.filed.of_less (s.less_delRow code)
      filed' := twins.filed'.of_less (s'.less_delRow code)
      rows := fun c plain' => by rw [kvGet_delRow, kvGet_delRow, twins.rows c plain']
      counters := fun c plain' => by
        rw [counter_delRow s plain, counter_delRow s' plain, twins.counters c plain']
      cache := twins.cache
      dirty := twins.dirty
      inst := twins.inst }

theorem delHits (twins : Twins s s') (code : String) : Twins (s.delHits code) (s'.delHits code) where
  filed := twins.filed.of_less (s.less_delHits code)
  filed' := twins.filed'.of_less (s'.less_delHits code)
  rows c plain := by rw [kvGet_delHits s code plain, kvGet_delHits s' code plain, twins.rows c plain]
  counters c plain := by rw [counter_delHits, counter_delHits, twins.counters c plain]
  cache := twins.cache
  dirty := twins.dirty
  inst := twins.inst

theorem of_cache (twins : Twins s s') (f : Lru → Lru) :
    Twins { s with cache := f s.cache } { s' with cache := f s'.cache } where
  filed := twins.filed.recached _
  filed' := twins.filed'.recached _
  rows := twins.rows
  counters := twins.counters
  cache := congrArg f twins.cache
  dirty := twins.dirty
  inst := twins.inst

theorem of_dirty (twins : Twins s s') (f : Map String Int64 → Map String Int64)
    (plain : ∀ c, c ∈ f s.dirty → Plain c) :
    Twins { s with dirty := f s.dirty } { s' with dirty := f s'.dirty } where
  filed := twins.filed.recounted plain
  filed' := twins.filed'.recounted (twins.dirty ▸ plain)
  rows := twins.rows
  counters := twins.counters
  cache := twins.cache
  dirty := congrArg f twins.dirty
  inst := twins.inst

/-! ## Creates -/

structure Alike {α β : Type} (a b : α × KvStore × β) : Prop where
  result : a.1 = b.1
  twins : Twins a.2.1 b.2.1
  rest : a.2.2 = b.2.2

section Creates

variable {env env' : KvEnv}

theorem freshCode (like : env.Like env') (twins : Twins s s') (c : Int64) (u : String) (t : Nat)
    (rng : List Suffix) :
    Option.Rel Alike (KvStore.freshCode env (encVal 0 c u) 0 s t rng)
      (KvStore.freshCode env' (encVal 0 c u) 0 s' t rng) := by
  induction rng generalizing s s' t with
  | nil => exact .none
  | cons buf rng ih =>
      obtain ⟨fates, tried⟩ := twins.setNx (env.clock t) (plain_genCode s.inst buf) c u
      rw [KvStore.freshCode, KvStore.freshCode, twins.filed.atStep_eq, twins.filed'.atStep_eq,
        ← like.clock, ← twins.inst, ← fates]
      split
      · exact .some ⟨rfl, tried, rfl⟩
      · exact ih tried (t + 1)

theorem expiry_zero (now : Int64) : expiry now 0 = 0 :=
  if_neg (by decide)

theorem shortenFrom (like : env.Like env') (twins : Twins s s') (t : Nat) (rng : List Suffix)
    (url : String) {aliasCode : Option String} (plain : ∀ a, aliasCode = some a → Plain a) :
    Option.Rel Alike (s.shortenFrom env t rng url aliasCode 0)
      (s'.shortenFrom env' t rng url aliasCode 0) := by
  cases aliasCode with
  | some a =>
      obtain ⟨fates, tried⟩ := twins.setNx (env.clock (t + 1)) (plain a rfl) (env.clock t) url
      simp only [KvStore.shortenFrom, twins.filed.atStep_eq, twins.filed'.atStep_eq, ← like.clock,
        expiry_zero]
      exact .some ⟨by rw [fates], tried, rfl⟩
  | none =>
      simp only [KvStore.shortenFrom, ← like.clock, expiry_zero]
      refine rel_map (freshCode like twins (env.clock t) url (t + 1) rng) fun a b same => ?_
      exact ⟨congrArg some same.result, same.twins, same.rest⟩

theorem pipeNx (like : env.Like env') (twins : Twins s s') (now : Int64) (t : Nat)
    {pairs : List (String × String)} (plain : ∀ p ∈ pairs, Plain p.2) :
    Alike (KvStore.pipeNx env now 0 s t pairs) (KvStore.pipeNx env' now 0 s' t pairs) := by
  induction pairs generalizing s s' t with
  | nil => exact ⟨rfl, twins, rfl⟩
  | cons p pairs ih =>
      obtain ⟨fates, tried⟩ := twins.setNx (env.clock t) (plain p List.mem_cons_self) now p.1
      have later := ih tried (t + 1) fun q member => plain q (List.mem_cons_of_mem _ member)
      simp only [KvStore.pipeNx, twins.filed.atStep_eq, twins.filed'.atStep_eq, ← like.clock,
        expiry_zero]
      refine ⟨?_, later.twins, later.rest⟩
      rw [fates, later.result]

theorem retryTaken (like : env.Like env') (twins : Twins s s') (t : Nat) (rng : List Suffix)
    (tried : List (String × String × Bool)) :
    Option.Rel (fun a b => a.1 = b.1 ∧ Twins a.2 b.2) (KvStore.retryTaken env 0 s t rng tried)
      (KvStore.retryTaken env' 0 s' t rng tried) := by
  induction tried generalizing s s' t rng with
  | nil => exact .some ⟨rfl, twins⟩
  | cons one tried ih =>
      obtain ⟨url, code, free⟩ := one
      cases free with
      | true =>
          refine rel_map (ih twins t rng) fun a b same => ?_
          exact ⟨congrArg (code :: ·) same.1, same.2⟩
      | false =>
          have again : Option.Rel Alike (s.shortenFrom env t rng url none 0)
              (s'.shortenFrom env' t rng url none 0) :=
            twins.shortenFrom like t rng url (by simp)
          refine rel_bind again fun a b same => ?_
          rw [← same.rest, ← same.result]
          refine rel_map (ih same.twins _ _) fun codes codes' later => ?_
          exact ⟨congrArg (_ :: ·) later.1, later.2⟩

theorem shorten (like : env.Like env') (twins : Twins s s') (url : String)
    {aliasCode : Option String} (plain : ∀ a, aliasCode = some a → Plain a) :
    Option.Rel (fun a b => a.1 = b.1 ∧ Twins a.2 b.2) (s.shorten env url aliasCode 0)
      (s'.shorten env' url aliasCode 0) := by
  rw [KvStore.shorten, KvStore.shorten, ← like.rng]
  exact rel_map (twins.shortenFrom like 0 env.rng url plain) fun a b same =>
    ⟨same.result, same.twins⟩

theorem shortenMany (like : env.Like env') (twins : Twins s s') (urls : List String) :
    Option.Rel (fun a b => a.1 = b.1 ∧ Twins a.2 b.2) (s.shortenMany env urls 0)
      (s'.shortenMany env' urls 0) := by
  rw [KvStore.shortenMany, KvStore.shortenMany, ← like.rng, ← like.clock, ← twins.inst]
  split
  · exact .none
  · have plain : ∀ p ∈ urls.zip ((env.rng.take urls.length).map (genCode s.inst)), Plain p.2 := by
      intro p member
      obtain ⟨buf, -, same⟩ := List.mem_map.mp (List.of_mem_zip member).2
      rw [← same]
      exact plain_genCode _ buf
    have piped := twins.pipeNx like (env.clock 0) 1 plain
    simp only [← piped.result, ← piped.rest]
    exact piped.twins.retryTaken like _ _ _

end Creates

/-! ## Calls -/

section Calls

variable {env env' : KvEnv}

theorem row (twins : Twins s s') {code : String} (plain : Plain code) : s.row code = s'.row code := by
  rw [KvStore.row, KvStore.row, twins.rows code plain]

/-- The row that is written never expires, as the one that was read. -/
theorem update (like : env.Like env') (twins : Twins s s') {code : String} (plain : Plain code)
    (url : String) (ttl : Int64) :
    (s.update env code url ttl false).1 = (s'.update env' code url ttl false).1 ∧
      Twins (s.update env code url ttl false).2 (s'.update env' code url ttl false).2 := by
  simp only [KvStore.update, twins.filed.atStep_eq, twins.filed'.atStep_eq,
    ← twins.rows code plain, ← like.clock]
  cases held : s.kvGet code with
  | none => exact ⟨rfl, twins⟩
  | some v =>
      obtain ⟨row, decoded, eternal⟩ := twins.filed.rows code v plain held
      simp only [Option.bind_some, decoded, Bool.false_eq_true, if_false, eternal, Int64.lt_irrefl,
        gt_iff_lt, true_and]
      exact (twins.setRow _ plain row.c url).of_cache fun cache => cache.remove code

theorem remove (twins : Twins s s') {code : String} (plain : Plain code) :
    (s.remove env code).1 = (s'.remove env' code).1 ∧
      Twins (s.remove env code).2 (s'.remove env' code).2 := by
  obtain ⟨fates, deleted⟩ := twins.delRow plain
  simp only [KvStore.remove, twins.filed.atStep_eq, twins.filed'.atStep_eq,
    deleted.filed.atStep_eq, deleted.filed'.atStep_eq, ← fates]
  split
  · exact ⟨rfl, (deleted.delHits code).of_cache fun cache => cache.remove code⟩
  · exact ⟨rfl, deleted⟩

theorem bump (like : env.Like env') (twins : Twins s s') {code : String} (plain : Plain code) :
    Twins (s.bump env code) (s'.bump env' code) := by
  rw [KvStore.bump, KvStore.bump, ← like.trackHits]
  split
  · refine twins.of_dirty (fun dirty => dirty.insert code ((dirty.lookup code).getD 0 + 1)) ?_
    intro c member
    rcases (AList.mem_insert _).mp member with rfl | old
    · exact plain
    · exact twins.filed.dirty c old
  · exact twins

theorem readRow (like : env.Like env') (twins : Twins s s') {code : String} (plain : Plain code)
    (read check : Nat) : s.readRow env read check code = s'.readRow env' read check code := by
  rw [KvStore.readRow, KvStore.readRow, twins.filed.atStep_eq, twins.filed'.atStep_eq,
    twins.rows code plain, like.clock]

theorem resolve (like : env.Like env') (twins : Twins s s') {code : String} (plain : Plain code) :
    (s.resolve env code).1 = (s'.resolve env' code).1 ∧
      Twins (s.resolve env code).2 (s'.resolve env' code).2 := by
  have looks : s'.cached env' code = s.cached env code := by
    rw [cached, cached, like.clock, twins.cache]
  have looked := twins.of_cache fun _ => (s.cached env code).2
  rw [KvStore.resolve, KvStore.resolve, looks]
  cases (s.cached env code).1 with
  | some hit => exact ⟨rfl, looked.bump like plain⟩
  | none =>
      simp only [← looked.readRow like plain, looked.filed.atStep_eq, looked.filed'.atStep_eq,
        ← like.clock]
      cases KvStore.readRow { s with cache := (s.cached env code).2 } env 2 3 code with
      | none => exact ⟨rfl, looked⟩
      | some row =>
          refine ⟨rfl, ?_⟩
          exact (looked.of_cache fun cache => cache.put (env.clock 4) code row.u row.e).bump like plain

/-- The deltas reach the counters in any order. -/
theorem sendHits (twins : Twins s s') {dirty : Map String Int64} (ord ord' : IterOrder String Int64)
    (plain : ∀ c, c ∈ dirty → Plain c) :
    Twins (s.sendHits (ord.iter dirty)) (s'.sendHits (ord'.iter dirty)) := by
  have coded : ∀ (ord : IterOrder String Int64), ∀ cn ∈ ord.iter dirty, Plain cn.1 := by
    intro ord cn member
    refine plain cn.1 (Map.mem_iff_lookup.mpr ?_)
    rw [ord.mem_iter_iff.mp member]
    exact Option.some_ne_none _
  obtain ⟨cache, dirty_eq, inst⟩ := sendHits_local (ord.iter dirty) s
  obtain ⟨cache', dirty_eq', inst'⟩ := sendHits_local (ord'.iter dirty) s'
  refine
    { filed := twins.filed.sendHits (coded ord)
      filed' := twins.filed'.sendHits (coded ord')
      rows := fun c plain => ?_
      counters := fun c plain => ?_
      cache := ?_
      dirty := ?_
      inst := ?_ }
  · rw [kvGet_sendHits _ s plain, kvGet_sendHits _ s' plain, twins.rows c plain]
  · rw [counter_sendHits (ord.nodup_keys dirty), counter_sendHits (ord'.nodup_keys dirty),
      ord.find?_iter, ord'.find?_iter, twins.counters c plain]
  · rw [cache, cache', twins.cache]
  · rw [dirty_eq, dirty_eq', twins.dirty]
  · rw [inst, inst', twins.inst]

theorem flushHits (twins : Twins s s') : Twins (s.flushHits env) (s'.flushHits env') := by
  have emptied := twins.of_dirty (fun _ => ∅) fun c member => nomatch member
  rw [KvStore.flushHits, KvStore.flushHits, twins.filed.atStep_eq, twins.filed'.atStep_eq,
    ← twins.dirty]
  exact emptied.sendHits env.dirtyOrder env'.dirtyOrder twins.filed.dirty

theorem stats (twins : Twins s s') {code : String} (plain : Plain code) :
    (KvStore.stats env s code).1 = (KvStore.stats env' s' code).1 ∧
      Twins (KvStore.stats env s code).2 (KvStore.stats env' s' code).2 := by
  simp only [KvStore.stats, twins.filed.atStep_eq, twins.filed'.atStep_eq, hitsOf,
    ← twins.rows code plain, ← twins.counters code plain, ← twins.dirty]
  exact ⟨trivial, twins⟩

/-- The same links are listed, each in the order of its scan. -/
theorem listed (twins : Twins s s') {scan scan' : Scan} (once : scan.Once) (once' : scan'.Once)
    (env env' : KvEnv) (q : String) :
    ∃ codes codes', s.Lists codes ∧ s'.Lists codes' ∧
      s.listed env scan q = (codes.filterMap (s.shows q), s) ∧
      s'.listed env' scan' q = (codes'.filterMap (s'.shows q), s') ∧
      (codes.filterMap (s.shows q)).Perm (codes'.filterMap (s'.shows q)) := by
  obtain ⟨codes, lists, found⟩ := listed_spec twins.filed env once q
  obtain ⟨codes', lists', found'⟩ := listed_spec twins.filed' env' once' q
  have same : codes.Perm codes' := by
    rw [List.perm_ext_iff_of_nodup lists.nodup lists'.nodup]
    intro c
    rw [lists.mem_iff, lists'.mem_iff]
    refine and_congr_right fun plain => ?_
    rw [twins.rows c plain]
  have shows : codes'.filterMap (s'.shows q) = codes'.filterMap (s.shows q) := by
    refine List.filterMap_congr fun c member => ?_
    have plain := ((lists'.mem_iff c).mp member).1
    rw [KvStore.shows, KvStore.shows, twins.row plain, twins.counters c plain]
  exact ⟨codes, codes', lists, lists', found, found', shows ▸ same.filterMap _⟩

end Calls

end Twins

end KvStore

/-! ## Requests and answers -/

/-- The calls of a history, with those that only read. -/
inductive KvQuery where
  | call (call : KvCall)
  | stats (code : String)
  | list (limit offset : Nat) (sort q : String)

/-- What a call returns; `waits` is a call that is still drawing codes. -/
inductive Answer where
  | waits
  | code (made : Option String)
  | codes (made : List String)
  | changed (result : MutResult)
  | url (u : Option String)
  | done
  | link (shown : Option Link)
  | links (page : List Link × Nat)
  deriving DecidableEq, Repr

namespace KvStore

def reply (s : KvStore) (env : KvEnv) (scan : Scan) : KvQuery → Answer
  | .call (.shorten url aliasCode ttl) =>
      ((s.shorten env url (aliasCode.map Subtype.val) ttl).map fun made => .code made.1).getD .waits
  | .call (.shortenMany urls ttl) =>
      ((s.shortenMany env urls ttl).map fun made => .codes made.1).getD .waits
  | .call (.update code url ttl hasTtl) => .changed (s.update env code url ttl hasTtl).1
  | .call (.remove code) => .changed (s.remove env code).1
  | .call (.resolve code) => .url (s.resolve env code).1
  | .call .flushHits => .done
  | .call .sweepExpired => .done
  | .stats code => .link (KvStore.stats env s code).1
  | .list limit offset sort q => .links (s.list env scan limit offset sort q).1

def after (s : KvStore) (env : KvEnv) (scan : Scan) : KvQuery → KvStore
  | .call call => s.step (env, call)
  | .stats code => (KvStore.stats env s code).2
  | .list limit offset sort q => (s.list env scan limit offset sort q).2

end KvStore

/-- The calls that the layouts answer alike: on valid codes, and no link is
given a time to live. -/
def KvQuery.Timeless : KvQuery → Prop
  | .call (.shorten _ _ ttl) => ttl = 0
  | .call (.shortenMany _ ttl) => ttl = 0
  | .call (.update code _ _ hasTtl) => codeOk code = true ∧ hasTtl = false
  | .call (.remove code) => codeOk code = true
  | .call (.resolve code) => codeOk code = true
  | .call .flushHits => True
  | .call .sweepExpired => False
  | .stats code => codeOk code = true
  | .list _ _ _ _ => True

/-- The links of a store that match a query, each once; only for `hits` their order is
fixed. -/
structure KvStore.Arranges (s : KvStore) (sort q : String) (all : List Link) : Prop where
  nodup : all.Nodup
  mem_iff : ∀ link, link ∈ all ↔ ∃ c, Plain c ∧ s.shows q c = some link
  sorted : sort = "hits" → (all.map Link.hits).Pairwise fun m n => n ≤ m

/-- Two pages of the same links, those of the two stores, each in an order of its own. -/
structure SamePage (s s' : KvStore) (limit offset : Nat) (sort q : String)
    (a b : List Link × Nat) : Prop where
  arranged : ∃ all all', s.Arranges sort q all ∧ s'.Arranges sort q all' ∧ all.Perm all' ∧
    a = window limit offset all ∧ b = window limit offset all'
  total : a.2 = b.2
  length : a.1.length = b.1.length
  hits : sort = "hits" → a.1.map Link.hits = b.1.map Link.hits
  whole : offset = 0 → a.2 ≤ limit → a.1.Perm b.1

/-- Answers of two stores are the same; of a listing, as far as the order of a scan
allows. -/
def Answer.Alike (s s' : KvStore) : KvQuery → Answer → Answer → Prop
  | .list limit offset sort q, .links a, .links b => SamePage s s' limit offset sort q a b
  | _, a, b => a = b

theorem arrange_perm (sort : String) (items : List Link) : (arrange sort items).Perm items := by
  rw [arrange]
  split
  · exact List.mergeSort_perm _ _
  · exact .refl _

theorem sorted_arrange (items : List Link) :
    ((arrange "hits" items).map Link.hits).Pairwise fun m n => n ≤ m := by
  rw [arrange, if_pos rfl, List.pairwise_map]
  exact Pages.pairwise_byKey Link.hits items

/-- Links with equal hits may change places, hits may not. -/
theorem map_hits_arrange {items items' : List Link} (same : items.Perm items') :
    (arrange "hits" items).map Link.hits = (arrange "hits" items').map Link.hits := by
  have perm := ((arrange_perm "hits" items).trans same).trans (arrange_perm "hits" items').symm
  refine (perm.map Link.hits).eq_of_pairwise (fun m n _ _ ge le => ?_) (sorted_arrange items)
    (sorted_arrange items')
  exact Int64.le_antisymm le ge

theorem KvStore.Lists.arranges {s : KvStore} {codes : List String} (lists : s.Lists codes)
    (sort q : String) : s.Arranges sort q (arrange sort (codes.filterMap (s.shows q))) := by
  have perm := arrange_perm sort (codes.filterMap (s.shows q))
  refine ⟨perm.nodup_iff.mpr ?_, fun link => ?_, ?_⟩
  · refine lists.nodup.filterMap fun c c' link here there => ?_
    exact (code_of_shows here).symm.trans (code_of_shows there)
  · rw [perm.mem_iff, List.mem_filterMap]
    constructor
    · rintro ⟨c, listed, here⟩
      exact ⟨c, ((lists.mem_iff c).mp listed).1, here⟩
    · rintro ⟨c, plain, here⟩
      refine ⟨c, (lists.mem_iff c).mpr ⟨plain, fun absent => ?_⟩, here⟩
      obtain ⟨row, found, -⟩ := shows_eq_some_iff.mp here
      rw [KvStore.row, absent] at found
      cases found
  · rintro rfl
    exact sorted_arrange _

theorem samePage {s s' : KvStore} {q : String} {items items' : List Link}
    (same : items.Perm items') {sort : String} (arranges : s.Arranges sort q (arrange sort items))
    (arranges' : s'.Arranges sort q (arrange sort items')) (limit offset : Nat) :
    SamePage s s' limit offset sort q (window limit offset (arrange sort items))
      (window limit offset (arrange sort items')) := by
  have perm := ((arrange_perm sort items).trans same).trans (arrange_perm sort items').symm
  refine
    { arranged := ⟨_, _, arranges, arranges', perm, rfl, rfl⟩
      total := perm.length_eq
      length := ?_
      hits := ?_
      whole := ?_ }
  · simp only [window, List.length_take, List.length_drop, perm.length_eq]
  · rintro rfl
    simp only [window, List.map_take, List.map_drop, perm.length_eq, map_hits_arrange same]
  · rintro rfl fits
    have fits : (arrange sort items).length ≤ limit := fits
    have fits' : (arrange sort items').length ≤ limit := perm.length_eq ▸ fits
    simp only [window, Nat.zero_min, List.drop_zero]
    rw [List.take_of_length_le fits, List.take_of_length_le fits']
    exact perm

/-! ## Every history -/

/-- What a call is given in each of the two stores: the same from outside, and
scans of their own that return every element once. -/
structure Feed where
  env : KvEnv
  env' : KvEnv
  scan : Scan
  scan' : Scan
  like : env.Like env'
  once : scan.Once
  once' : scan'.Once

/-- One call of a history in both stores. -/
abbrev TwinCall := Feed × { query : KvQuery // query.Timeless }

namespace KvStore

def serve (s : KvStore) (history : List TwinCall) : KvStore :=
  history.foldl (fun s call => s.after call.1.env call.1.scan call.2.val) s

def serve' (s : KvStore) (history : List TwinCall) : KvStore :=
  history.foldl (fun s call => s.after call.1.env' call.1.scan' call.2.val) s

namespace Twins

variable {s s' : KvStore}

/-- A call that creates links. -/
theorem created {α : Type} (twins : Twins s s') {one two : Option (α × KvStore)}
    (made : Option.Rel (fun a b => a.1 = b.1 ∧ Twins a.2 b.2) one two) (answer : α → Answer) :
    (one.map fun made => answer made.1).getD .waits =
        (two.map fun made => answer made.1).getD .waits ∧
      Twins ((one.map Prod.snd).getD s) ((two.map Prod.snd).getD s') := by
  cases made with
  | none => exact ⟨rfl, twins⟩
  | some same => exact ⟨congrArg answer same.1, same.2⟩

/-- One call keeps the stores alike and is answered alike. -/
theorem query (twins : Twins s s') (call : TwinCall) :
    Answer.Alike s s' call.2.val (s.reply call.1.env call.1.scan call.2.val)
        (s'.reply call.1.env' call.1.scan' call.2.val) ∧
      Twins (s.after call.1.env call.1.scan call.2.val)
        (s'.after call.1.env' call.1.scan' call.2.val) := by
  obtain ⟨⟨env, env', scan, scan', like, once, once'⟩, query, timeless⟩ := call
  cases query with
  | call call =>
      cases call with
      | shorten url aliasCode ttl =>
          cases timeless
          refine twins.created (twins.shorten like url fun a given => ?_) .code
          obtain ⟨valid, -, rfl⟩ := Option.map_eq_some_iff.mp given
          exact .of_codeOk valid.property
      | shortenMany urls ttl =>
          cases timeless
          exact twins.created (twins.shortenMany like urls) .codes
      | update code url ttl hasTtl =>
          obtain ⟨valid, rfl⟩ := timeless
          obtain ⟨same, later⟩ := twins.update like (.of_codeOk valid) url ttl
          exact ⟨congrArg Answer.changed same, later⟩
      | remove code =>
          obtain ⟨same, later⟩ := twins.remove (.of_codeOk timeless)
          exact ⟨congrArg Answer.changed same, later⟩
      | resolve code =>
          obtain ⟨same, later⟩ := twins.resolve like (.of_codeOk timeless)
          exact ⟨congrArg Answer.url same, later⟩
      | flushHits => exact ⟨rfl, twins.flushHits⟩
      | sweepExpired => cases timeless
  | stats code =>
      obtain ⟨same, later⟩ := twins.stats (.of_codeOk timeless)
      exact ⟨congrArg Answer.link same, later⟩
  | list limit offset sort q =>
      obtain ⟨codes, codes', lists, lists', found, found', same⟩ :=
        twins.listed once once' env env' q
      simp only [KvStore.reply, KvStore.after, KvStore.list, found, found']
      exact ⟨samePage same (lists.arranges sort q) (lists'.arranges sort q) limit offset, twins⟩

theorem serve (twins : Twins s s') (history : List TwinCall) :
    Twins (s.serve history) (s'.serve' history) := by
  induction history generalizing s s' with
  | nil => exact twins
  | cons call history ih => exact ih (twins.query call).2

end Twins

/-- A store in the key layout and one in the hash layout answer every call of
every history alike. -/
theorem layouts_answer_alike (inst : Inst) (unused buckets : Buckets) (cacheEntries : Nat)
    (cacheTtlMs : Int64) (history : List TwinCall) (call : TwinCall) :
    let key := (KvStore.fresh inst .key unused cacheEntries cacheTtlMs).serve history
    let hash := (KvStore.fresh inst .hash buckets cacheEntries cacheTtlMs).serve' history
    Answer.Alike key hash call.2.val (key.reply call.1.env call.1.scan call.2.val)
      (hash.reply call.1.env' call.1.scan' call.2.val) := by
  intro key hash
  have twins : Twins key hash := (twins_fresh inst .key .hash unused buckets _ _).serve history
  exact (twins.query call).1

/-- Scans in the order of storage, and in the opposite one. -/
def forwards : Scan := ⟨id, fun _ => id⟩

def backwards : Scan := ⟨List.reverse, fun _ => List.reverse⟩

/-- The first store scans forwards, the second one backwards. -/
def opposed (now : Int64) : Feed where
  env := .at now []
  env' := .at now []
  scan := forwards
  scan' := backwards
  like := ⟨rfl, rfl, rfl⟩
  once := ⟨fun _ => .refl _, fun _ _ => .refl _⟩
  once' := ⟨List.reverse_perm, fun _ => List.reverse_perm⟩

def twoLinks : List TwinCall :=
  [(opposed 1000, ⟨.call (.shorten "https://a.example" (some ⟨"one", by decide⟩) 0), rfl⟩),
   (opposed 1001, ⟨.call (.shorten "https://b.example" (some ⟨"two", by decide⟩) 0), rfl⟩)]

/-- A page of one link is a different one in the two layouts. -/
theorem page_depends_on_scan :
    let key := (KvStore.fresh 0 .key ⟨1, by decide⟩ 100 0).serve twoLinks
    let hash := (KvStore.fresh 0 .hash ⟨1, by decide⟩ 100 0).serve' twoLinks
    forwards.Once ∧ backwards.Once ∧
      key.reply (.at 1002 []) forwards (.list 1 0 "" "") =
        .links ([⟨"two", "https://b.example", 0, 1001, none⟩], 2) ∧
      hash.reply (.at 1002 []) backwards (.list 1 0 "" "") =
        .links ([⟨"one", "https://a.example", 0, 1000, none⟩], 2) := by
  refine ⟨(opposed 0).once, (opposed 0).once', ?_, ?_⟩
  · decide +kernel
  · decide +kernel

end KvStore

end Shrt.Kv
