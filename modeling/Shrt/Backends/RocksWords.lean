import Mathlib.Data.List.Basic
import Shrt.Backends.Words
import Shrt.Rocks.Filter
import Shrt.Rocks.Listing

/-!
# The words of the embedded database

A read that finds a row past its expiry deletes it, and so may a compaction.  A bulk
creation writes its rows without looking: it is asked to draw codes that are free, for the
cache may still hold what stood under another.
-/

namespace Shrt.Backends

open Shrt.Codec Shrt.Lib Shrt.Lib.Utf8 Shrt.Kv Shrt.Rocks
open Shrt.Http (Ops)
open Shrt.Store (MutResult)
open Shrt.Store.Inner (expiry)

def rocksOps (inst : Inst) (env : RocksEnv) (rng : List Suffix) (order : IterOrder String Int64) :
    Ops RocksStore where
  healthy _ := true
  resolve s code := s.resolve env code
  stats s code := (s.stats env code).1
  list s limit offset byHits q :=
    (s.list order env limit offset (if byHits then "hits" else "created") q).1
  shorten s url aliasCode ttl := s.shorten inst env rng url aliasCode ttl
  shortenMany s urls ttl := s.shortenMany inst env rng urls ttl
  update s code url ttl hasTtl := s.update env code url ttl hasTtl
  remove s code := s.remove env code

/-- A compaction that drops the chosen ones of the rows that the filter removes. -/
def compacted (now : Int64) (chosen : Bytes → Bool) (s : RocksStore) : RocksStore :=
  { s with
    db := s.db.eraseAll
      ((s.db.pairs.filter fun kv => chosen kv.1 && expiredFilter now kv.2 = .remove).map Prod.fst) }

/-- `close`, which sends the hits, and `open` on the same database, with an empty cache. -/
def rocksRestart (order : IterOrder String Int64) (s : RocksStore) : RocksStore :=
  { s.flushHits order with cache := { s.cache with shards := fun _ => .empty }, dirty := ∅ }

/-- None of the codes that a bulk creation is about to draw is in use. -/
def Unused (inst : Inst) (rng : List Suffix) (s : RocksStore) (n : Nat) : Prop :=
  ∀ buf ∈ rng.take n, encode (Rocks.genCode inst buf) ∉ s.db

def renewed (now ttl : Int64) : Int64 :=
  now + max ttl 0

def dbWords (db : Map Bytes Bytes) : Words :=
  fun c => ((db.lookup (encode c)).bind decVal).map fun row => ⟨row.u, row.e⟩

theorem dbWords_insert (db : Map Bytes Bytes) (code : String) (e c : Int64) (u : String) :
    dbWords (db.insert (encode code) (encVal e c u)) = (dbWords db).put code ⟨u, e⟩ := by
  funext k
  rw [dbWords, Map.lookup_insert_eq, Words.put, Function.update_apply]
  by_cases same : k = code
  · rw [if_pos (congrArg encode same), if_pos same, Option.bind_some, decVal_encVal]
    rfl
  · rw [if_neg fun equal => same (encode_injective equal), if_neg same]
    rfl

theorem dbWords_erase (db : Map Bytes Bytes) (code : String) :
    dbWords (db.erase (encode code)) = (dbWords db).drop code := by
  funext k
  rw [dbWords, Map.lookup_erase_eq, Words.drop, Function.update_apply]
  by_cases same : k = code
  · rw [if_pos (congrArg encode same), if_pos same]
    rfl
  · rw [if_neg fun equal => same (encode_injective equal), if_neg same]
    rfl

/-- The cache agrees with the database, which holds the words. -/
structure RocksReflects (now : Int64) (s : RocksStore) (ws : Words) : Prop where
  fits : ∀ c ent, s.cache.find c = some ent →
    past ent.e now = true ∨ dbWords s.db c = some ⟨ent.u, ent.e⟩
  lapsed : Lapsed now ws (dbWords s.db)

namespace RocksReflects

variable {now : Int64} {s s' : RocksStore} {ws : Words} {env : RocksEnv}

/-- A call in which rows only go away at their expiry. -/
theorem fades (reflects : RocksReflects now s ws)
    (fades : Lapsed now (dbWords s.db) (dbWords s'.db))
    (kept : ∀ c ent, s'.cache.find c = some ent → s.cache.find c = some ent) :
    RocksReflects now s' ws where
  fits c ent found := by
    rcases reflects.fits c ent (kept c ent found) with old | shown
    · exact Or.inl old
    · rcases fades.missing shown with still | old
      · exact Or.inr still
      · exact Or.inl old
  lapsed := reflects.lapsed.trans fades

/-- A call that sets what stands under a code, which is not in the cache or was free. -/
theorem set (reflects : RocksReflects now s ws) {code : String} {v : Option Word}
    (words : dbWords s'.db = Function.update (dbWords s.db) code v)
    (kept : ∀ c ent, s'.cache.find c = some ent → s.cache.find c = some ent)
    (unseen : s'.cache.find code = none ∨ dbWords s.db code = none) :
    RocksReflects now s' (Function.update ws code v) where
  fits c ent found := by
    rcases reflects.fits c ent (kept c ent found) with old | shown
    · exact Or.inl old
    · right
      rw [words, Function.update_of_ne, shown]
      rintro rfl
      rcases unseen with absent | free
      · rw [absent] at found
        cases found
      · rw [free] at shown
        cases shown
  lapsed := by
    rw [words]
    exact reflects.lapsed.set (Function.update_self ..) fun c other =>
      Or.inl (Function.update_of_ne other _ _)

/-! ### Reads -/

theorem dbWords_stored {s : RocksStore} {code : String} {row : Row}
    (held : s.stored code = some row) : dbWords s.db code = some ⟨row.u, row.e⟩ :=
  congrArg (Option.map _) held

/-- The delete of a row that is past its expiry. -/
theorem lapsed_reap {s : RocksStore} {code : String} {row : Row} (held : s.stored code = some row)
    (old : past row.e now = true) : Lapsed now (dbWords s.db) (dbWords (s.reap code).db) := by
  intro c
  have words : dbWords (s.reap code).db = (dbWords s.db).drop code := dbWords_erase s.db code
  rw [words, Words.drop, Function.update_apply]
  split
  · rename_i same
    rw [same]
    exact Or.inr ⟨rfl, _, dbWords_stored held, old⟩
  · exact Or.inl rfl

theorem lapsed_row {time : Int64} (le : time ≤ now) (s : RocksStore) (code : String) :
    Lapsed now (dbWords s.db) (dbWords (RocksStore.row time s code).2.db) := by
  rw [RocksStore.row]
  cases held : s.stored code with
  | none => exact .refl _ _
  | some row =>
      dsimp only
      split
      · rename_i late
        exact lapsed_reap held (past_mono le late)
      · exact .refl _ _

theorem cache_row (time : Int64) (s : RocksStore) (code : String) :
    (RocksStore.row time s code).2.cache = s.cache := by
  rw [RocksStore.row]
  split
  · rfl
  · split
    · rfl
    · rfl

theorem row_some {time : Int64} {s : RocksStore} {code : String} {row : Row}
    (read : (RocksStore.row time s code).1 = some row) :
    s.stored code = some row ∧ past row.e time = false ∧ (RocksStore.row time s code).2 = s := by
  rw [RocksStore.row] at read ⊢
  cases held : s.stored code with
  | none =>
      rw [held] at read
      cases read
  | some row' =>
      rw [held] at read
      dsimp only at read ⊢
      split at read
      · cases read
      · rename_i current
        cases read
        rw [if_neg current]
        exact ⟨rfl, Bool.eq_false_iff.mpr current, rfl⟩

theorem row_none {time : Int64} {s : RocksStore} {code : String}
    (read : (RocksStore.row time s code).1 = none) {row : Row} (held : s.stored code = some row) :
    past row.e time = true := by
  rw [RocksStore.row, held] at read
  dsimp only at read
  split at read
  · assumption
  · cases read

theorem row (reflects : RocksReflects now s ws) {time : Int64} (le : time ≤ now) (code : String) :
    RocksReflects now (RocksStore.row time s code).2 ws :=
  reflects.fades (lapsed_row le s code) fun _ _ found => cache_row time s code ▸ found

/-- What a look into the cache leaves. -/
theorem looked (reflects : RocksReflects now s ws) (env : RocksEnv) (code : String) :
    RocksReflects now { s with cache := (s.cached env code).2 } ws :=
  reflects.fades (.refl _ _) fun _ _ found => Lru.find_get found

/-- The row that the database shows may be cached. -/
theorem put (reflects : RocksReflects now s ws) {code : String} {row : Row}
    (held : s.stored code = some row) (time : Int64) :
    RocksReflects now { s with cache := s.cache.put time code row.u row.e } ws where
  fits c ent found := by
    rcases Lru.find_put _ _ _ _ _ found with ⟨rfl, rfl⟩ | ⟨-, kept⟩
    · exact Or.inr (dbWords_stored held)
    · exact reflects.fits c ent kept
  lapsed := reflects.lapsed

theorem resolve (reflects : RocksReflects now s ws) (le : env.clock 2 ≤ now) (code : String) :
    RocksReflects now (s.resolve env code).2 ws := by
  have looked := reflects.looked env code
  rw [RocksStore.resolve]
  cases hit : (s.cached env code).1 with
  | some shown => exact ⟨looked.fits, looked.lapsed⟩
  | none =>
      have read := looked.row le code
      dsimp only
      cases done : RocksStore.row (env.clock 2) { s with cache := (s.cached env code).2 } code with
      | mk found s' =>
          rw [done] at read
          cases found with
          | none => exact read
          | some row =>
              obtain ⟨held, -, same⟩ := row_some (congrArg Prod.fst done)
              rw [done] at same
              cases same
              have cached := read.put held (env.clock 3)
              exact ⟨cached.fits, cached.lapsed⟩

/-! ### Creations -/

theorem putNx (reflects : RocksReflects now s ws) {code url : String} {e created : Int64} :
    let done := s.putNx code (encVal e created url)
    (done.1 = true → RocksReflects now done.2 (ws.put code ⟨url, e⟩)) ∧
      (done.1 = false → done.2 = s) := by
  rw [RocksStore.putNx]
  split
  · refine ⟨fun made => ?_, fun _ => rfl⟩
    cases made
  · rename_i free
    refine ⟨fun _ => ?_, fun taken => ?_⟩
    · refine reflects.set (dbWords_insert s.db code e created url) (fun _ _ found => found) ?_
      right
      rw [dbWords, Map.not_mem_iff_lookup.mp free]
      rfl
    · cases taken

theorem freshCode (reflects : RocksReflects now s ws) {inst : Inst} {url code : String}
    {e created : Int64} {rng : List Suffix}
    (done : RocksStore.freshCode inst (encVal e created url) s rng = some (code, s')) :
    Plain code ∧ RocksReflects now s' (ws.put code ⟨url, e⟩) := by
  induction rng generalizing s with
  | nil => cases done
  | cons buf rng ih =>
      rw [RocksStore.freshCode] at done
      split at done
      · rename_i made
        cases done
        exact ⟨Rocks.plain_genCode inst buf, reflects.putNx.1 made⟩
      · rename_i taken
        refine ih ?_ done
        rw [reflects.putNx.2 (Bool.eq_false_iff.mpr taken)]
        exact reflects

theorem shorten (reflects : RocksReflects now s ws) {inst : Inst} {rng : List Suffix} {url : String}
    {aliasCode made : Option String} {ttl : Int64}
    (plain : ∀ a, aliasCode = some a → codeOk a = true)
    (done : s.shorten inst env rng url aliasCode ttl = some (made, s')) :
    (made = none → RocksReflects now s' ws) ∧
      ∀ code, made = some code → Plain code ∧
        RocksReflects now s' (ws.put code ⟨url, expiry (env.clock 0) ttl⟩) := by
  cases aliasCode with
  | none =>
      obtain ⟨⟨code, s''⟩, drawn, same⟩ := Option.map_eq_some_iff.mp done
      cases same
      refine ⟨fun none_made => ?_, fun code made => ?_⟩
      · cases none_made
      · cases made
        exact reflects.freshCode drawn
  | some a =>
      simp only [RocksStore.shorten] at done
      split at done
      · rename_i free
        cases done
        refine ⟨fun none_made => ?_, fun code made => ?_⟩
        · cases none_made
        · cases made
          exact ⟨.of_codeOk (plain a rfl), reflects.putNx.1 free⟩
      · rename_i taken
        cases done
        refine ⟨fun _ => ?_, fun code made => ?_⟩
        · rw [reflects.putNx.2 (Bool.eq_false_iff.mpr taken)]
          exact reflects
        · cases made

/-- The batch of a bulk creation. -/
theorem dbWords_batch (now ttl : Int64) (rows : List (String × String)) (db : Map Bytes Bytes) :
    dbWords
        (rows.foldl (fun db cu => db.insert (encode cu.1) (encVal (expiry now ttl) now cu.2)) db) =
      (dbWords db).puts (rows.map fun cu => (cu.1, ⟨cu.2, expiry now ttl⟩)) := by
  induction rows generalizing db with
  | nil => rfl
  | cons row rows ih =>
      rw [List.foldl_cons, ih, dbWords_insert]
      rfl

theorem puts_other {ws : Words} {made : List (String × Word)} {c : String}
    (other : c ∉ made.map Prod.fst) : ws.puts made c = ws c := by
  induction made generalizing ws with
  | nil => rfl
  | cons m made ih =>
      rw [List.map_cons, List.mem_cons, not_or] at other
      have first : (ws.put m.1 m.2) c = ws c := Function.update_of_ne other.1 _ _
      exact (ih other.2).trans first

theorem shortenMany (reflects : RocksReflects now s ws) {inst : Inst} {rng : List Suffix}
    {urls codes : List String} {ttl : Int64} (unused : Unused inst rng s urls.length)
    (done : s.shortenMany inst env rng urls ttl = some (codes, s')) :
    codes.length = urls.length ∧ (∀ c ∈ codes, Plain c) ∧
      ∃ made, Makes env.clock ttl (codes.zip urls) made ∧ RocksReflects now s' (ws.puts made) := by
  rw [RocksStore.shortenMany] at done
  dsimp only at done
  split at done
  · cases done
  rename_i enough
  cases done
  have long : ((rng.take urls.length).map (Rocks.genCode inst)).length = urls.length := by
    rw [List.length_map, List.length_take]
    omega
  refine ⟨long, fun c among => ?_, _, .at_once env.clock ttl _ 0, ?_, ?_⟩
  · obtain ⟨buf, -, rfl⟩ := List.mem_map.mp among
    exact Rocks.plain_genCode inst buf
  · intro c ent found
    rcases reflects.fits c ent found with old | shown
    · exact Or.inl old
    · right
      dsimp only
      rw [dbWords_batch, puts_other, shown]
      rw [List.map_map]
      intro drawn
      obtain ⟨cu, among, rfl⟩ := List.mem_map.mp drawn
      obtain ⟨buf, taken, same⟩ := List.mem_map.mp (List.of_mem_zip among).1
      have free := Map.not_mem_iff_lookup.mp (unused buf taken)
      rw [same] at free
      dsimp only [Function.comp_apply] at shown
      rw [dbWords, free] at shown
      cases shown
  · dsimp only
    rw [dbWords_batch]
    exact reflects.lapsed.puts _

/-! ### Changes -/

theorem update (reflects : RocksReflects now s ws) (le : env.clock 0 ≤ now) (code url : String)
    (ttl : Int64) (hasTtl : Bool) :
    let done := s.update env code url ttl hasTtl
    (done.1 = .ok → ∃ w t, ws code = some w ∧ RocksReflects now done.2
      (ws.put code ⟨url, if hasTtl then renewed (env.clock t) ttl else w.e⟩)) ∧
      (done.1 ≠ .ok → RocksReflects now done.2 ws) := by
  have read := reflects.row le code
  rw [RocksStore.update]
  cases done : RocksStore.row (env.clock 0) s code with
  | mk found s' =>
      rw [done] at read
      cases found with
      | none =>
          refine ⟨fun ok => ?_, fun _ => read⟩
          cases ok
      | some row =>
          obtain ⟨held, -, same⟩ := row_some (congrArg Prod.fst done)
          rw [done] at same
          dsimp only at same
          subst same
          refine ⟨fun _ => ⟨⟨row.u, row.e⟩, 1, ?_, ?_⟩, fun other => absurd rfl other⟩
          · exact read.lapsed.shown (dbWords_stored held)
          · refine read.set (dbWords_insert s'.db code _ row.c url) (fun c ent found => ?_) ?_
            · rw [Lru.find_remove] at found
              split at found
              · cases found
              · exact found
            · exact Or.inl ((Lru.find_remove _ _ _).trans (if_pos rfl))

theorem remove (reflects : RocksReflects now s ws) (le : env.clock 0 ≤ now) (code : String) :
    let done := s.remove env code
    (done.1 = .ok → RocksReflects now done.2 (ws.drop code)) ∧
      (done.1 ≠ .ok → RocksReflects now done.2 ws) := by
  have read := reflects.row le code
  rw [RocksStore.remove]
  cases done : RocksStore.row (env.clock 0) s code with
  | mk found s' =>
      rw [done] at read
      cases found with
      | none =>
          refine ⟨fun ok => ?_, fun _ => read⟩
          cases ok
      | some row =>
          refine ⟨fun _ => ?_, fun other => absurd rfl other⟩
          refine read.set (dbWords_erase s'.db code) (fun c ent found => ?_) ?_
          · rw [Lru.find_remove] at found
            split at found
            · cases found
            · exact found
          · exact Or.inl ((Lru.find_remove _ _ _).trans (if_pos rfl))

/-! ### What the database and the threads do -/

theorem flushHits (reflects : RocksReflects now s ws) (order : IterOrder String Int64) :
    RocksReflects now (s.flushHits order) ws :=
  ⟨reflects.fits, reflects.lapsed⟩

theorem stats (reflects : RocksReflects now s ws) (le : env.clock 0 ≤ now) (code : String) :
    RocksReflects now (s.stats env code).2 ws := by
  have read := reflects.row le code
  rw [RocksStore.stats]
  cases done : RocksStore.row (env.clock 0) s code with
  | mk found s' =>
      rw [done] at read
      cases found with
      | none => exact read
      | some row => exact read

theorem compacts_compacted (now : Int64) (chosen : Bytes → Bool) (s : RocksStore) :
    Compacts now s (compacted now chosen s) := by
  intro key
  rw [compacted, Map.lookup_eraseAll]
  split
  · rename_i listed
    obtain ⟨⟨key', v⟩, among, rfl⟩ := List.mem_map.mp listed
    rw [List.mem_filter, Map.mem_pairs_iff, Bool.and_eq_true, decide_eq_true_eq] at among
    exact Or.inr ⟨rfl, v, among.1, among.2.2⟩
  · exact Or.inl rfl

/-- What a compaction drops is past its expiry or no row. -/
theorem lapsed_compacted (time : Int64) (chosen : Bytes → Bool) (s : RocksStore) :
    Lapsed time (dbWords s.db) (dbWords (compacted time chosen s).db) := by
  intro c
  rcases compacts_compacted time chosen s (encode c) with same | ⟨gone, v, held, removed⟩
  · exact Or.inl (by rw [dbWords, dbWords, same])
  · cases read : decVal v with
    | none => exact Or.inl (by rw [dbWords, dbWords, gone, held, Option.bind_some, read]; rfl)
    | some row =>
        refine Or.inr ⟨by rw [dbWords, gone]; rfl, ⟨row.u, row.e⟩, ?_, ?_⟩
        · rw [dbWords, held, Option.bind_some, read]
          rfl
        · exact past_of_removed removed read

theorem compact (reflects : RocksReflects now s ws) {time : Int64} (le : time ≤ now)
    (chosen : Bytes → Bool) : RocksReflects now (compacted time chosen s) ws := by
  refine reflects.fades (fun c => ?_) fun _ _ found => found
  rcases lapsed_compacted time chosen s c with same | ⟨gone, w, was, old⟩
  · exact Or.inl same
  · exact Or.inr ⟨gone, w, was, past_mono le old⟩

theorem restart (reflects : RocksReflects now s ws) (order : IterOrder String Int64) :
    RocksReflects now (rocksRestart order s) ws := by
  refine (reflects.flushHits order).fades (.refl _ _) fun c ent found => ?_
  rw [Lru.find] at found
  cases found

/-- A resolve answers the word of its code. -/
theorem reads (reflects : RocksReflects (env.clock 1) s ws)
    (monotone : ∀ {t t'}, t ≤ t' → env.clock t ≤ env.clock t') (code : String) :
    Reads ws env.clock code (s.resolve env code).1 := by
  have later : ∀ {e : Int64} {t : Nat}, past e (env.clock t) = false →
      past e (env.clock 0) = false := by
    intro e t current
    cases early : past e (env.clock 0) with
    | false => rfl
    | true =>
        rw [past_mono (monotone (Nat.zero_le t)) early] at current
        cases current
  rw [RocksStore.resolve]
  cases hit : (s.cached env code).1 with
  | some shown =>
      obtain ⟨u, e⟩ := shown
      obtain ⟨cachedAt, found, current⟩ := Lru.get_some hit
      rcases reflects.fits code _ found with gone | held
      · rw [current] at gone
        cases gone
      · exact ⟨e, reflects.lapsed.shown held, later current⟩
  | none =>
      dsimp only
      cases done : RocksStore.row (env.clock 2) { s with cache := (s.cached env code).2 } code with
      | mk found s' =>
          cases found with
          | some row =>
              obtain ⟨held, current, -⟩ := row_some (congrArg Prod.fst done)
              exact ⟨row.e, reflects.lapsed.shown (dbWords_stored held), later current⟩
          | none =>
              intro w there
              rcases reflects.lapsed.missing there with shown | old
              · obtain ⟨row, held, rfl⟩ := Option.map_eq_some_iff.mp shown
                exact ⟨2, row_none (congrArg Prod.fst done) held⟩
              · exact ⟨1, old⟩

end RocksReflects

end Shrt.Backends
