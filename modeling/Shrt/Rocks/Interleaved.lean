import Mathlib.Data.List.Basic
import Shrt.Kv.Interleaved
import Shrt.Rocks.Store

/-!
# Calls on one code of the embedded database, step by step

The calls cut at every database call and every access to the cache, the lazy
delete of an expired row included.  Both this store and the key-value store
then keep what the read-through cache promises, as long as no reader is late.
-/

namespace Shrt.Rocks

open Shrt.Codec Shrt.Lib Shrt.Lib.Utf8 Shrt.Lib.ReadThrough Shrt.Kv
open Shrt.Store (MutResult)

/-- What a step is given: the clock of its call, and what becomes of its
database call. -/
structure RocksStep where
  env : RocksEnv
  fate : Fate

namespace RocksStore

/-- What the first half of `row` finds. -/
def peek (fate : Fate) (now : Int64) (s : RocksStore) (code : String) : Found Row :=
  if fate = .done then
    match s.stored code with
    | none => .absent
    | some row => if past row.e now then .dead else .row row
  else .absent

def parts (code : String) : Parts RocksStore RocksStep Row Change String where
  lookup t s :=
    let looked := s.cached t.env code
    let s := { s with cache := looked.2 }
    match looked.1 with
    | some hit => (some hit.1, s.bump code)
    | none => (none, s)
  fetch t s := (peek t.fate (t.env.clock 2) s code, s)
  value row := row.u
  insert t s row := { s with cache := s.cache.put (t.env.clock 3) code row.u row.e }.bump code
  load t s := (peek t.fate (t.env.clock 0) s code, s)
  write t s row change :=
    (t.fate, if t.fate = .failed then s
      else rewrite (t.env.clock 1) s code row change.url change.ttl change.hasTtl)
  asked change := change.url
  probe t s := ((peek t.fate (t.env.clock 0) s code).elim (fun _ => .row ()) .absent .dead, s)
  reap t s := if t.fate = .failed then s else s.reap code
  delete t s := (t.fate, if t.fate = .failed then s else s.delete code)
  -- the batch has deleted the hits
  tidy _ s := s
  drop s := { s with cache := s.cache.remove code }

/-! ## The steps in a row -/

/-- `row` is a look, and a delete if the row is dead. -/
theorem row_steps (now : Int64) (s : RocksStore) (code : String) :
    row now s code = (peek .done now s code).elim (fun row => (some row, s)) (none, s)
      (none, s.reap code) := by
  rw [row, peek, if_pos rfl]
  cases s.stored code with
  | none => rfl
  | some row =>
      simp only
      split
      · rfl
      · rfl

theorem resolve_steps (env : RocksEnv) (s : RocksStore) (code : String) :
    let t : RocksStep := ⟨env, .done⟩
    let looked := (parts code).lookup t s
    let read := (parts code).fetch t looked.2
    s.resolve env code =
      match looked.1 with
      | some u => (some u, looked.2)
      | none => read.1.elim (fun row => (some row.u, (parts code).insert t read.2 row))
          (none, read.2) (none, (parts code).reap t read.2) := by
  intro t looked read
  simp only [looked, read, parts, resolve, t]
  cases (s.cached env code).1 with
  | some hit => rfl
  | none =>
      simp only [row_steps]
      cases peek .done (env.clock 2) { s with cache := (s.cached env code).2 } code with
      | row row => rfl
      | absent => rfl
      | dead => rfl

theorem update_steps (env : RocksEnv) (s : RocksStore) (code : String) (change : Change) :
    let t : RocksStep := ⟨env, .done⟩
    let loaded := (parts code).load t s
    s.update env code change.url change.ttl change.hasTtl =
      loaded.1.elim
        (fun row => (.ok, (parts code).drop ((parts code).write t loaded.2 row change).2))
        (.missing, loaded.2) (.missing, (parts code).reap t loaded.2) := by
  intro t loaded
  simp only [loaded, parts, update, row_steps, t]
  cases peek .done (env.clock 0) s code with
  | row row => rfl
  | absent => rfl
  | dead => rfl

theorem remove_steps (env : RocksEnv) (s : RocksStore) (code : String) :
    let t : RocksStep := ⟨env, .done⟩
    let probed := (parts code).probe t s
    s.remove env code =
      probed.1.elim (fun _ => (.ok, (parts code).drop ((parts code).delete t probed.2).2))
        (.missing, probed.2) (.missing, (parts code).reap t probed.2) := by
  intro t probed
  simp only [probed, parts, remove, row_steps, t]
  cases peek .done (env.clock 0) s code with
  | row row => rfl
  | absent => rfl
  | dead => rfl

/-! ## Their laws -/

def rowUrl (code : String) (s : RocksStore) : Option String :=
  (s.stored code).map Row.u

def cachedUrl (code : String) (s : RocksStore) : Option String :=
  (s.cache.find code).map CacheEntry.u

theorem stored_reap (s : RocksStore) (code : String) : (s.reap code).stored code = none := by
  rw [stored, reap, Map.lookup_erase_eq, if_pos rfl]
  rfl

theorem peek_eq_row {fate : Fate} {now : Int64} {s : RocksStore} {code : String} {r : Row}
    (read : peek fate now s code = .row r) : s.stored code = some r := by
  rw [peek] at read
  split at read
  · cases there : s.stored code with
    | none =>
        rw [there] at read
        cases read
    | some row =>
        simp only [there] at read
        split at read
        · cases read
        · cases read
          rfl
  · cases read

theorem quiet_lookup (t : RocksStep) (s : RocksStore) (code : String) :
    Quiet (rowUrl code) (cachedUrl code) s ((parts code).lookup t s).2 where
  row u shown := by
    simp only [parts] at shown
    split at shown
    · exact shown
    · exact shown
  cached u shown := by
    have kept : ∀ ent, (s.cached t.env code).2.find code = some ent →
        s.cache.find code = some ent := fun ent found => Lru.find_get found
    have shown' : ((s.cached t.env code).2.find code).map CacheEntry.u = some u := by
      simp only [parts] at shown
      split at shown
      · exact shown
      · exact shown
    obtain ⟨ent, there, rfl⟩ := Option.map_eq_some_iff.mp shown'
    exact Option.map_eq_some_iff.mpr ⟨ent, kept ent there, rfl⟩

theorem lookup_hit {t : RocksStep} {s : RocksStore} {code u : String}
    (hit : ((parts code).lookup t s).1 = some u) : cachedUrl code s = some u := by
  simp only [parts] at hit
  split at hit
  · rename_i entry looked
    cases hit
    obtain ⟨cachedAt, found, -⟩ := Lru.get_some looked
    rw [cachedUrl, found]
    rfl
  · cases hit

theorem lawful_parts (code : String) : (parts code).Lawful (rowUrl code) (cachedUrl code) where
  lookup_quiet t s := quiet_lookup t s code
  lookup_hit _ _ _ hit := lookup_hit hit
  fetch_quiet t s := ⟨fun _ shown => shown, fun _ shown => shown⟩
  fetch_some t s r read := by
    rw [rowUrl, peek_eq_row read]
    rfl
  insert_row t s r u shown := shown
  insert_cached t s r u shown := by
    obtain ⟨ent, there, rfl⟩ := Option.map_eq_some_iff.mp shown
    rcases Lru.find_put _ _ _ _ _ there with ⟨-, rfl⟩ | ⟨other, -⟩
    · rfl
    · exact absurd rfl other
  load_quiet t s := ⟨fun _ shown => shown, fun _ shown => shown⟩
  write_quiet t s r change failed := by
    simp only [parts] at failed ⊢
    rw [if_pos failed]
    exact ⟨fun _ shown => shown, fun _ shown => shown⟩
  write_row t s r change u done shown := by
    simp only [parts] at done shown
    rw [if_neg done, rowUrl, stored, rewrite, Map.lookup_insert_eq, if_pos rfl, Option.bind_some,
      decVal_encVal] at shown
    cases shown
    rfl
  write_cached t s r change u shown := by
    simp only [parts] at shown
    split at shown
    · exact shown
    · exact shown
  probe_quiet t s := ⟨fun _ shown => shown, fun _ shown => shown⟩
  reap_quiet t s := by
    simp only [parts]
    split
    · exact ⟨fun _ shown => shown, fun _ shown => shown⟩
    · refine ⟨fun u shown => ?_, fun _ shown => shown⟩
      rw [rowUrl, stored_reap] at shown
      cases shown
  delete_quiet t s failed := by
    simp only [parts] at failed ⊢
    rw [if_pos failed]
    exact ⟨fun _ shown => shown, fun _ shown => shown⟩
  delete_row t s done := by
    simp only [parts] at done ⊢
    rw [if_neg done]
    exact congrArg (Option.map Row.u) (stored_reap s code)
  delete_cached t s u shown := by
    simp only [parts] at shown
    split at shown
    · exact shown
    · exact shown
  tidy_quiet t s := ⟨fun _ shown => shown, fun _ shown => shown⟩
  drop_quiet s := by
    refine ⟨fun _ shown => shown, fun u shown => ?_⟩
    rw [cachedUrl, parts, Lru.find_remove, if_pos rfl] at shown
    cases shown
  drop_cached s := by
    rw [cachedUrl, parts, Lru.find_remove, if_pos rfl]
    rfl

end RocksStore

/-! ## Read after write -/

/-- A resolve that starts after the events `first` answers no url that the code
had only before a call that has returned by then: the url was written by that
call or later. -/
def ReadsWrites {σ ε ρ : Type} (parts : Parts σ ε ρ Change String) (s : σ)
    (first rest : List (Event ε Change)) : Prop :=
  let before := parts.run (.idle s) first
  let after := parts.run (.idle s) (first ++ .resolve :: rest)
  ∀ write u, .returned (some write) ∈ before.calls →
    after.calls[before.calls.length]? = some (.answered (some u)) →
    some u ∈ after.writes.drop write

/-- In every run of either store in which no resolve puts into the cache what
it read before a write that is already covered, reads follow writes. -/
theorem reads_follow_writes (code : String) :
    (∀ (s : KvStore) (first rest : List (Event KvStep Change)),
      Runs.Along (KvStore.parts code).step (fun sys event => timely sys event = true) (.idle s)
        (first ++ .resolve :: rest) →
      ReadsWrites (KvStore.parts code) s first rest) ∧
    (∀ (s : RocksStore) (first rest : List (Event RocksStep Change)),
      Runs.Along (RocksStore.parts code).step (fun sys event => timely sys event = true) (.idle s)
        (first ++ .resolve :: rest) →
      ReadsWrites (RocksStore.parts code) s first rest) := by
  constructor
  · intro s first rest fine write u returned answer
    exact read_after_write (KvStore.lawful_parts code) fine returned answer
  · intro s first rest fine write u returned answer
    exact read_after_write (RocksStore.lawful_parts code) fine returned answer

def linkedKv (layout : Layout) : KvStore :=
  (KvStore.fresh 0 layout eightBuckets 100 0).step
    (.at 1000 [], .shorten "https://old.example" (some promo) 0)

def linkedRocks : RocksStore :=
  let s := RocksStore.fresh 100 0
  { s with db := s.db.insert (encode "promo") (encVal 0 1000 "https://old.example") }

/-- The second resolve starts after the update has returned, while the first one
may still be about to put in the old row. -/
def overtaken {ε : Type} (e : ε) (late : Bool) : List (Event ε Change) :=
  [.resolve, .update ⟨"https://new.example", 0, false⟩, .step 0 e, .step 0 e, .step 1 e] ++
    (if late then [.step 1 e, .step 1 e, .step 0 e] else [.step 1 e, .step 0 e, .step 1 e])

/-- A reader that is overtaken by the write but not by the drop does no harm. -/
theorem reads_follow_writes_overtaken :
    let e : KvStep := ⟨.at 1001 [], .done⟩
    let final := (KvStore.parts "promo").run (.idle (linkedKv .key))
      (overtaken e false ++ .resolve :: [.step 2 e, .step 2 e, .step 2 e])
    .answered (some "https://new.example") ∈ final.calls ∧
      ReadsWrites (KvStore.parts "promo") (linkedKv .key) (overtaken e false)
        [.step 2 e, .step 2 e, .step 2 e] := by
  refine ⟨by decide +kernel, ?_⟩
  exact (reads_follow_writes "promo").1 (linkedKv .key) _ _ (by decide +kernel)

/-- In both stores the late reader brings the old url back. -/
theorem old_url_after_update :
    (∀ layout, ¬ ReadsWrites (KvStore.parts "promo") (linkedKv layout)
      (overtaken ⟨.at 1001 [], .done⟩ true) [.step 2 ⟨.at 1002 [], .done⟩]) ∧
    ¬ ReadsWrites (RocksStore.parts "promo") linkedRocks
      (overtaken ⟨⟨fun _ => 1001⟩, .done⟩ true) [.step 2 ⟨⟨fun _ => 1002⟩, .done⟩] := by
  constructor
  · intro layout reads
    have served := reads 0 "https://old.example"
    revert served
    cases layout with
    | key => decide +kernel
    | hash => decide +kernel
  · intro reads
    have served := reads 0 "https://old.example"
    revert served
    decide +kernel

end Shrt.Rocks
