import Mathlib.Data.List.Basic
import Shrt.Kv.Cached
import Shrt.Lib.ReadThrough

/-!
# Calls on one code, step by step

The calls of the key-value store cut at every command to the server and every
access to the cache.  A command may fail, with or without having taken effect.
Run without a break and without a failure, the steps make the calls as they
are.
-/

namespace Shrt.Kv

open Shrt.Codec Shrt.Lib Shrt.Lib.Utf8 Shrt.Lib.ReadThrough
open Shrt.Store (MutResult)
open Shrt.Store.Inner (expiry)

/-- What a step is given: the clock and evictions of its call, and what becomes
of its command. -/
structure KvStep where
  env : KvEnv
  fate : Fate

/-- What an update asks for. -/
structure Change where
  url : String
  ttl : Int64
  hasTtl : Bool
  deriving DecidableEq, Repr

namespace KvStore

/-- The row as a command that may fail reads it. -/
def found (fate : Fate) (row : Option Row) : Found Row :=
  if fate = .done then row.elim .absent .row else .absent

/-- The new row of an update, written at step 3. -/
def rewrite (env : KvEnv) (s : KvStore) (code : String) (row : Row) (change : Change) : KvStore :=
  let exp := if change.hasTtl then expiry (env.clock 1) change.ttl else row.e
  let px := if exp > 0 then exp - env.clock 2 else 0
  (s.atStep env 3).setRow (env.clock 3) code (encVal exp row.c change.url) px

def parts (code : String) : Parts KvStore KvStep Row Change String where
  lookup t s :=
    let looked := s.cached t.env code
    let s := { s with cache := looked.2 }
    match looked.1 with
    | some hit => (some hit.1, s.bump t.env code)
    | none => (none, s)
  fetch t s := (found t.fate (s.readRow t.env 2 3 code), s.atStep t.env 2)
  value row := row.u
  insert t s row := { s with cache := s.cache.put (t.env.clock 4) code row.u row.e }.bump t.env code
  load t s :=
    let s := s.atStep t.env 0
    (found t.fate (s.row code), s)
  write t s row change :=
    (t.fate, if t.fate = .failed then s.atStep t.env 3 else s.rewrite t.env code row change)
  asked change := change.url
  -- the server is not asked before it deletes
  probe _ s := (.row (), s)
  reap _ s := s
  delete t s :=
    let done := (s.atStep t.env 0).delRow code
    if t.fate = .failed then (.failed, s.atStep t.env 0)
    else (if done.1 then t.fate else .failed, done.2)
  tidy t s :=
    let s := s.atStep t.env 1
    if t.fate = .failed then s else s.delHits code
  drop s := { s with cache := s.cache.remove code }

/-! ## The steps in a row -/

theorem resolve_steps (env : KvEnv) (s : KvStore) (code : String) :
    let t : KvStep := ⟨env, .done⟩
    let looked := (parts code).lookup t s
    let read := (parts code).fetch t looked.2
    s.resolve env code =
      match looked.1, read.1 with
      | some u, _ => (some u, looked.2)
      | none, .row row => (some row.u, (parts code).insert t read.2 row)
      | none, _ => (none, read.2) := by
  intro t looked read
  simp only [looked, read, parts, resolve, t]
  cases (s.cached env code).1 with
  | some hit => rfl
  | none =>
      simp only
      cases readRow { s with cache := (s.cached env code).2 } env 2 3 code with
      | none => rfl
      | some row => rfl

theorem update_steps (env : KvEnv) (s : KvStore) (code : String) (change : Change) :
    let t : KvStep := ⟨env, .done⟩
    let loaded := (parts code).load t s
    s.update env code change.url change.ttl change.hasTtl =
      match loaded.1 with
      | .row row => (.ok, (parts code).drop ((parts code).write t loaded.2 row change).2)
      | _ => (.missing, loaded.2) := by
  intro t loaded
  simp only [loaded, parts, update, t, row]
  cases ((s.atStep env 0).kvGet code).bind decVal with
  | none => rfl
  | some row => rfl

theorem remove_steps (env : KvEnv) (s : KvStore) (code : String) :
    let t : KvStep := ⟨env, .done⟩
    let deleted := (parts code).delete t s
    s.remove env code =
      if deleted.1 = .done then
        (.ok, (parts code).drop ((parts code).tidy t deleted.2))
      else (.missing, deleted.2) := by
  intro t deleted
  simp only [deleted, parts, remove, t]
  cases ((s.atStep env 0).delRow code).1 with
  | false => rfl
  | true => rfl

/-! ## Their laws -/

theorem row_of_atStep {s : KvStore} {env : KvEnv} {t : Nat} {c : String} {r : Row}
    (shown : (s.atStep env t).row c = some r) : s.row c = some r := by
  rcases kvGet_atStep s env t c with same | gone
  · rwa [row, same] at shown
  · rw [row, gone] at shown
    cases shown

theorem row_of_delHits {s : KvStore} {code c : String} {r : Row}
    (shown : (s.delHits code).row c = some r) : s.row c = some r := by
  cases layout : s.layout with
  | hash =>
      simp only [row, kvGet, delHits, layout] at shown ⊢
      rw [Redis.hget_hdel] at shown
      split at shown
      · cases shown
      · exact shown
  | key =>
      simp only [row, kvGet, delHits, layout, Redis.del, Redis.get] at shown ⊢
      rwa [Map.lookup_erase_eq, if_neg (lkey_ne_hkey c code)] at shown

theorem row_setRow (s : KvStore) (now : Int64) (code : String) (e c : Int64) (u : String)
    (px : Int64) : (s.setRow now code (encVal e c u) px).row code = some ⟨e, c, u⟩ := by
  rw [row, kvGet_setRow, if_pos rfl]
  exact decVal_encVal e c u

theorem row_delRow (s : KvStore) (code : String) : (s.delRow code).2.row code = none := by
  rw [row, kvGet_delRow, if_pos rfl]
  rfl

def rowUrl (code : String) (s : KvStore) : Option String :=
  (s.row code).map Row.u

def cachedUrl (code : String) (s : KvStore) : Option String :=
  (s.cache.find code).map CacheEntry.u

/-- No row was added and the cache is as it was. -/
theorem quiet_of_rows {code : String} {s s' : KvStore}
    (rows : ∀ r, s'.row code = some r → s.row code = some r) (cache : s'.cache = s.cache) :
    Quiet (rowUrl code) (cachedUrl code) s s' where
  row u shown := by
    obtain ⟨r, there, rfl⟩ := Option.map_eq_some_iff.mp shown
    exact Option.map_eq_some_iff.mpr ⟨r, rows r there, rfl⟩
  cached u shown := by
    rwa [cachedUrl, cache] at shown

theorem cache_bump (env : KvEnv) (s : KvStore) (code : String) : (s.bump env code).cache = s.cache := by
  rw [bump]
  split
  · rfl
  · rfl

theorem row_bump (env : KvEnv) (s : KvStore) (code c : String) : (s.bump env code).row c = s.row c := by
  rw [bump]
  split
  · rfl
  · rfl

/-- Looking into the cache, or putting into it, changes no row. -/
theorem quiet_lookup (t : KvStep) (s : KvStore) (code : String) :
    Quiet (rowUrl code) (cachedUrl code) s ((parts code).lookup t s).2 where
  row u shown := by
    simp only [parts] at shown
    split at shown
    · rw [rowUrl, row_bump] at shown
      exact shown
    · exact shown
  cached u shown := by
    have kept : ∀ ent, (s.cached t.env code).2.find code = some ent →
        s.cache.find code = some ent := fun ent found => Lru.find_get found
    simp only [parts] at shown
    split at shown
    · rw [cachedUrl, cache_bump] at shown
      obtain ⟨ent, there, rfl⟩ := Option.map_eq_some_iff.mp shown
      exact Option.map_eq_some_iff.mpr ⟨ent, kept ent there, rfl⟩
    · obtain ⟨ent, there, rfl⟩ := Option.map_eq_some_iff.mp shown
      exact Option.map_eq_some_iff.mpr ⟨ent, kept ent there, rfl⟩

theorem lookup_hit {t : KvStep} {s : KvStore} {code u : String}
    (hit : ((parts code).lookup t s).1 = some u) : cachedUrl code s = some u := by
  simp only [parts] at hit
  split at hit
  · rename_i entry looked
    cases hit
    obtain ⟨cachedAt, found, -⟩ := Lru.get_some looked
    rw [cachedUrl, found]
    rfl
  · cases hit

theorem found_eq_row {fate : Fate} {row : Option Row} {r : Row} (found_row : found fate row = .row r) :
    row = some r := by
  rw [found] at found_row
  split at found_row
  · cases row with
    | none => cases found_row
    | some row =>
        cases found_row
        rfl
  · cases found_row

theorem insert_cached {t : KvStep} {s : KvStore} {code u : String} {r : Row}
    (shown : cachedUrl code ((parts code).insert t s r) = some u) : u = r.u := by
  rw [cachedUrl, parts, cache_bump] at shown
  obtain ⟨ent, there, rfl⟩ := Option.map_eq_some_iff.mp shown
  rcases Lru.find_put _ _ _ _ _ there with ⟨-, rfl⟩ | ⟨other, -⟩
  · rfl
  · exact absurd rfl other

theorem lawful_parts (code : String) : (parts code).Lawful (rowUrl code) (cachedUrl code) where
  lookup_quiet t s := quiet_lookup t s code
  lookup_hit _ _ _ hit := lookup_hit hit
  fetch_quiet t s := quiet_of_rows (fun _ => row_of_atStep) rfl
  fetch_some t s r read := by
    have shown := row_of_readRow (found_eq_row read)
    rw [rowUrl, row_of_atStep shown]
    rfl
  insert_row t s r u shown := by
    rw [rowUrl, parts, row_bump] at shown
    exact shown
  insert_cached _ _ _ _ shown := insert_cached shown
  load_quiet t s := quiet_of_rows (fun _ => row_of_atStep) rfl
  write_quiet t s r change failed := by
    refine quiet_of_rows (fun r' shown => ?_) ?_
    · simp only [parts] at failed shown
      rw [if_pos failed] at shown
      exact row_of_atStep shown
    · simp only [parts] at failed ⊢
      rw [if_pos failed]
      rfl
  write_row t s r change u done shown := by
    simp only [parts] at done shown
    rw [if_neg done, rowUrl, rewrite, row_setRow] at shown
    cases shown
    rfl
  write_cached t s r change u shown := by
    simp only [parts] at shown
    split at shown
    · exact shown
    · exact shown
  probe_quiet t s := ⟨fun _ shown => shown, fun _ shown => shown⟩
  reap_quiet t s := ⟨fun _ shown => shown, fun _ shown => shown⟩
  delete_quiet t s failed := by
    refine quiet_of_rows (fun r shown => ?_) ?_
    · simp only [parts] at failed shown
      split at shown
      · exact row_of_atStep shown
      · rw [row_delRow] at shown
        cases shown
    · simp only [parts]
      split
      · rfl
      · rfl
  delete_row t s done := by
    simp only [parts] at done ⊢
    split at done
    · exact absurd rfl done
    · rename_i sent
      rw [if_neg sent, rowUrl, row_delRow]
      rfl
  delete_cached t s u shown := by
    simp only [parts] at shown
    split at shown
    · exact shown
    · exact shown
  tidy_quiet t s := by
    refine quiet_of_rows (fun r shown => ?_) ?_
    · simp only [parts] at shown
      split at shown
      · exact row_of_atStep shown
      · exact row_of_atStep (row_of_delHits shown)
    · simp only [parts]
      split
      · rfl
      · rfl
  drop_quiet s := by
    refine ⟨fun _ shown => shown, fun u shown => ?_⟩
    rw [cachedUrl, parts, Lru.find_remove, if_pos rfl] at shown
    cases shown
  drop_cached s := by
    rw [cachedUrl, parts, Lru.find_remove, if_pos rfl]
    rfl

end KvStore

end Shrt.Kv
