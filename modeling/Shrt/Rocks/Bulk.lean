import Mathlib.Data.List.Basic
import Mathlib.Data.List.Forall2
import Shrt.Rocks.Store

/-!
# Bulk creation in one batch

A bulk creation puts all its rows in one batch, without looking at what is
there.  When the batch fails it goes through the rows once more, with a get in
front of every put, but takes a code that is taken for one that it may return.
So it is harmless exactly when no drawn code meets a row that matters: in the
batch another row than its own, in the second round a row with another url.
-/

namespace Shrt.Rocks

open Shrt.Codec Shrt.Lib Shrt.Lib.Utf8 Shrt.Kv
open Shrt.Store.Inner (expiry)

/-- Which database calls succeed: the batch, and the get and the put of each
numbered create behind a batch that failed. -/
structure Fates where
  batch : Bool
  get : Nat → Bool
  put : Nat → Bool

/-- `put_nx` with the fates of its calls; `none` is an error. -/
def putNxOver (fates : Fates) (k : Nat) (db : Map Bytes Bytes) (code : String) (value : Bytes) :
    Option Bool × Map Bytes Bytes :=
  if fates.get k then
    if encode code ∈ db then (some false, db)
    else if fates.put k then (some true, db.insert (encode code) value)
    else (none, db)
  else (none, db)

/-- The loop of `shorten` without an alias: an error counts as a taken code. -/
def freshCodeOver (inst : Inst) (fates : Fates) (value : Bytes) :
    Map Bytes Bytes → Nat → List Suffix → Option (String × Map Bytes Bytes × Nat × List Suffix)
  | _, _, [] => none
  | db, k, buf :: rng =>
      let done := putNxOver fates k db (genCode inst buf) value
      -- `.unwrap_or(false)`
      if done.1 = some true then some (genCode inst buf, done.2, k + 1, rng)
      else freshCodeOver inst fates value done.2 (k + 1) rng

/-- `enc_val(exp, now, u)` of a creation. -/
def createdValue (now ttl : Int64) (url : String) : Bytes :=
  encVal (expiry now ttl) now url

/-- One row of the second round: a create for its code, and a new code if that
ends in an error. -/
def again (inst : Inst) (env : RocksEnv) (fates : Fates) (ttl : Int64) (db : Map Bytes Bytes)
    (k : Nat) (rng : List Suffix) (cu : String × String) :
    Option (String × Map Bytes Bytes × Nat × List Suffix) :=
  let done := putNxOver fates k db cu.1 (createdValue (env.clock 0) ttl cu.2)
  match done.1 with
  | some _ => some (cu.1, done.2, k + 1, rng)
  | none =>
      let value := createdValue (env.clock (k + 1)) ttl cu.2
      freshCodeOver inst fates value done.2 (k + 1) rng

def secondRound (inst : Inst) (env : RocksEnv) (fates : Fates) (ttl : Int64) :
    Map Bytes Bytes → Nat → List Suffix → List (String × String) →
      Option (List String × Map Bytes Bytes)
  | db, _, _, [] => some ([], db)
  | db, k, rng, cu :: rest =>
      (again inst env fates ttl db k rng cu).bind fun done =>
        (secondRound inst env fates ttl done.2.1 done.2.2.1 done.2.2.2 rest).map fun later =>
          (done.1 :: later.1, later.2)

def batchRows (inst : Inst) (rng : List Suffix) (urls : List String) : List (String × String) :=
  ((rng.take urls.length).map (genCode inst)).zip urls

def putAll (now ttl : Int64) (db : Map Bytes Bytes) (rows : List (String × String)) :
    Map Bytes Bytes :=
  rows.foldl (fun db cu => db.insert (encode cu.1) (createdValue now ttl cu.2)) db

/-- `shorten_many` with the fates of its database calls. -/
def shortenManyOver (inst : Inst) (env : RocksEnv) (fates : Fates) (rng : List Suffix)
    (db : Map Bytes Bytes) (urls : List String) (ttl : Int64) :
    Option (List String × Map Bytes Bytes) :=
  if rng.length < urls.length then none
  else
    let rows := batchRows inst rng urls
    if fates.batch then some (rows.map Prod.fst, putAll (env.clock 0) ttl db rows)
    else secondRound inst env fates ttl db 0 (rng.drop urls.length) rows

theorem map_fst_batchRows (inst : Inst) {rng : List Suffix} {urls : List String}
    (enough : ¬ rng.length < urls.length) :
    (batchRows inst rng urls).map Prod.fst = (rng.take urls.length).map (genCode inst) := by
  refine List.map_fst_zip ?_
  rw [List.length_map, List.length_take]
  omega

theorem map_snd_batchRows (inst : Inst) {rng : List Suffix} {urls : List String}
    (enough : ¬ rng.length < urls.length) : (batchRows inst rng urls).map Prod.snd = urls := by
  refine List.map_snd_zip ?_
  rw [List.length_map, List.length_take]
  omega

/-- With a batch that succeeds it is the bulk creation of the store. -/
theorem shortenManyOver_batch (inst : Inst) (env : RocksEnv) (get put : Nat → Bool)
    (rng : List Suffix) (s : RocksStore) (urls : List String) (ttl : Int64) :
    (s.shortenMany inst env rng urls ttl).map (fun done => (done.1, done.2.db)) =
      shortenManyOver inst env ⟨true, get, put⟩ rng s.db urls ttl := by
  rw [RocksStore.shortenMany, shortenManyOver]
  split
  · rfl
  · rename_i enough
    rw [if_pos rfl, map_fst_batchRows inst enough]
    rfl

/-! ## What a creation must not do -/

def urlOf (db : Map Bytes Bytes) (code : String) : Option String :=
  ((db.lookup (encode code)).bind decVal).map Row.u

def KeepsRows (db db' : Map Bytes Bytes) : Prop :=
  ∀ key v, db.lookup key = some v → db'.lookup key = some v

/-- Rows are kept, and every url has a code of its own that is stored with it. -/
structure Harmless (db db' : Map Bytes Bytes) (urls codes : List String) : Prop where
  keeps : KeepsRows db db'
  distinct : codes.Nodup
  stores : List.Forall₂ (fun url code => urlOf db' code = some url) urls codes

/-- The rows of the batch have codes of their own, which are free or hold these
very rows. -/
structure BatchFits (now ttl : Int64) (db : Map Bytes Bytes) (rows : List (String × String)) :
    Prop where
  distinct : (rows.map Prod.fst).Nodup
  free : ∀ cu ∈ rows, ∀ v, db.lookup (encode cu.1) = some v → v = createdValue now ttl cu.2

/-- Whenever the second round finds a code taken, the code was not returned
before, and the row that it finds has the url that the code is wanted for. -/
def RoundFits (inst : Inst) (env : RocksEnv) (fates : Fates) (ttl : Int64) :
    List String → Map Bytes Bytes → Nat → List Suffix → List (String × String) → Prop
  | _, _, _, _, [] => True
  | returned, db, k, rng, cu :: rest =>
      (fates.get k = true → encode cu.1 ∈ db → cu.1 ∉ returned ∧ urlOf db cu.1 = some cu.2) ∧
        ∀ done ∈ again inst env fates ttl db k rng cu,
          RoundFits inst env fates ttl (done.1 :: returned) done.2.1 done.2.2.1 done.2.2.2 rest

/-- No drawn code meets a row that matters, on the path that is taken. -/
def Fits (inst : Inst) (env : RocksEnv) (fates : Fates) (rng : List Suffix)
    (db : Map Bytes Bytes) (urls : List String) (ttl : Int64) : Prop :=
  let rows := batchRows inst rng urls
  if fates.batch then BatchFits (env.clock 0) ttl db rows
  else RoundFits inst env fates ttl [] db 0 (rng.drop urls.length) rows

/-! ## The batch -/

theorem decVal_createdValue (now ttl : Int64) (url : String) :
    (decVal (createdValue now ttl url)).map Row.u = some url := by
  rw [createdValue, decVal_encVal]
  rfl

/-- A key that no row of the batch has is not touched. -/
theorem lookup_putAll_other (now ttl : Int64) (db : Map Bytes Bytes) {rows : List (String × String)}
    {key : Bytes} (other : ∀ cu ∈ rows, encode cu.1 ≠ key) :
    (putAll now ttl db rows).lookup key = db.lookup key := by
  induction rows generalizing db with
  | nil => rfl
  | cons cu rows ih =>
      have later := ih (db.insert (encode cu.1) (createdValue now ttl cu.2))
        fun x among => other x (List.mem_cons_of_mem cu among)
      rw [putAll, List.foldl_cons]
      refine later.trans ?_
      rw [Map.lookup_insert_eq, if_neg (Ne.symm (other cu List.mem_cons_self))]

/-- When no two rows have the same code, every row is stored. -/
theorem lookup_putAll (now ttl : Int64) (db : Map Bytes Bytes) {rows : List (String × String)}
    (distinct : (rows.map Prod.fst).Nodup) {cu : String × String} (among : cu ∈ rows) :
    (putAll now ttl db rows).lookup (encode cu.1) = some (createdValue now ttl cu.2) := by
  induction rows generalizing db with
  | nil => cases among
  | cons first rows ih =>
      obtain ⟨alone, later⟩ := List.nodup_cons.mp distinct
      rw [putAll, List.foldl_cons]
      rcases List.mem_cons.mp among with rfl | among
      · have untouched : ∀ x ∈ rows, encode x.1 ≠ encode cu.1 := by
          intro x inside same
          exact alone (encode_injective same ▸ List.mem_map_of_mem inside)
        refine (lookup_putAll_other now ttl _ untouched).trans ?_
        rw [Map.lookup_insert_eq, if_pos rfl]
      · exact ih _ later among

theorem harmless_putAll_iff (now ttl : Int64) (db : Map Bytes Bytes) (rows : List (String × String)) :
    Harmless db (putAll now ttl db rows) (rows.map Prod.snd) (rows.map Prod.fst) ↔
      BatchFits now ttl db rows := by
  constructor
  · rintro ⟨keeps, distinct, -⟩
    refine ⟨distinct, fun cu among v held => ?_⟩
    have kept := keeps _ v held
    rw [lookup_putAll now ttl db distinct among] at kept
    exact (Option.some.inj kept).symm
  · rintro ⟨distinct, free⟩
    refine ⟨fun key v held => ?_, distinct, ?_⟩
    · by_cases touched : ∃ cu ∈ rows, encode cu.1 = key
      · obtain ⟨cu, among, rfl⟩ := touched
        rw [lookup_putAll now ttl db distinct among, free cu among v held]
      · have other : ∀ cu ∈ rows, encode cu.1 ≠ key :=
          fun cu among same => touched ⟨cu, among, same⟩
        rw [lookup_putAll_other now ttl db other, held]
    · rw [List.forall₂_map_left_iff, List.forall₂_map_right_iff, List.forall₂_same]
      intro cu among
      rw [urlOf, lookup_putAll now ttl db distinct among, Option.bind_some, decVal_createdValue]

/-! ## The second round -/

theorem KeepsRows.refl (db : Map Bytes Bytes) : KeepsRows db db :=
  fun _ _ held => held

theorem KeepsRows.trans {db db' db'' : Map Bytes Bytes} (first : KeepsRows db db')
    (second : KeepsRows db' db'') : KeepsRows db db'' :=
  fun key v held => second key v (first key v held)

theorem KeepsRows.insert {db : Map Bytes Bytes} {key : Bytes} (free : key ∉ db) (v : Bytes) :
    KeepsRows db (db.insert key v) := by
  intro other w held
  rw [Map.lookup_insert_eq, if_neg]
  · exact held
  · rintro rfl
    rw [Map.not_mem_iff_lookup.mp free] at held
    cases held

theorem KeepsRows.urlOf {db db' : Map Bytes Bytes} (keeps : KeepsRows db db') {code : String}
    (present : encode code ∈ db) : urlOf db' code = urlOf db code := by
  obtain ⟨v, held⟩ := Option.ne_none_iff_exists'.mp (Map.mem_iff_lookup.mp present)
  rw [Rocks.urlOf, keeps _ v held, Rocks.urlOf, held]

/-- A code that was free and is stored now. -/
structure Created (db db' : Map Bytes Bytes) (code url : String) : Prop where
  free : encode code ∉ db
  stored : ∃ v, db' = db.insert (encode code) v ∧ (decVal v).map Row.u = some url

theorem Created.keeps {db db' : Map Bytes Bytes} {code url : String}
    (created : Created db db' code url) : KeepsRows db db' := by
  obtain ⟨v, rfl, -⟩ := created.stored
  exact .insert created.free v

theorem Created.urlOf {db db' : Map Bytes Bytes} {code url : String}
    (created : Created db db' code url) : urlOf db' code = some url := by
  obtain ⟨v, rfl, decoded⟩ := created.stored
  rw [Rocks.urlOf, Map.lookup_insert_eq, if_pos rfl, Option.bind_some, decoded]

theorem Created.mem {db db' : Map Bytes Bytes} {code url : String}
    (created : Created db db' code url) : encode code ∈ db' := by
  obtain ⟨v, rfl, -⟩ := created.stored
  rw [AList.mem_insert]
  exact Or.inl rfl

/-- What a create does: it finds the code taken, or fails, or creates the row. -/
theorem putNxOver_cases (fates : Fates) (k : Nat) (db : Map Bytes Bytes) (code : String)
    {value : Bytes} {url : String} (decoded : (decVal value).map Row.u = some url) :
    (fates.get k = true ∧ encode code ∈ db ∧ putNxOver fates k db code value = (some false, db)) ∨
      (¬ (fates.get k = true ∧ encode code ∈ db) ∧
        (putNxOver fates k db code value = (none, db) ∨
          ∃ db', putNxOver fates k db code value = (some true, db') ∧ Created db db' code url)) := by
  rw [putNxOver]
  by_cases got : fates.get k = true
  · rw [if_pos got]
    by_cases present : encode code ∈ db
    · rw [if_pos present]
      exact Or.inl ⟨got, present, rfl⟩
    · rw [if_neg present]
      refine Or.inr ⟨fun both => present both.2, ?_⟩
      split
      · exact Or.inr ⟨_, rfl, present, value, rfl, decoded⟩
      · exact Or.inl rfl
  · rw [if_neg got]
    exact Or.inr ⟨fun both => got both.1, Or.inl rfl⟩

theorem freshCodeOver_created {inst : Inst} {fates : Fates} {value : Bytes} {db db' : Map Bytes Bytes}
    {k k' : Nat} {rng rng' : List Suffix} {code url : String}
    (decoded : (decVal value).map Row.u = some url)
    (drawn : freshCodeOver inst fates value db k rng = some (code, db', k', rng')) :
    Created db db' code url := by
  induction rng generalizing k with
  | nil => cases drawn
  | cons buf rng ih =>
      rw [freshCodeOver] at drawn
      rcases putNxOver_cases fates k db (genCode inst buf) decoded with
        ⟨-, -, taken⟩ | ⟨-, failed | ⟨db'', made, created⟩⟩
      · rw [taken] at drawn
        exact ih drawn
      · rw [failed] at drawn
        exact ih drawn
      · rw [made] at drawn
        cases drawn
        exact created

/-- What the second round does with a row: it keeps a code that it finds taken,
or creates a row under this code or another. -/
theorem again_cases {inst : Inst} {env : RocksEnv} {fates : Fates} {ttl : Int64}
    {db : Map Bytes Bytes} {k : Nat} {rng : List Suffix} {cu : String × String}
    {done : String × Map Bytes Bytes × Nat × List Suffix}
    (step : again inst env fates ttl db k rng cu = some done) :
    (fates.get k = true ∧ encode cu.1 ∈ db ∧ done.1 = cu.1 ∧ done.2.1 = db) ∨
      (¬ (fates.get k = true ∧ encode cu.1 ∈ db) ∧ Created db done.2.1 done.1 cu.2) := by
  rw [again] at step
  rcases putNxOver_cases fates k db cu.1 (decVal_createdValue (env.clock 0) ttl cu.2) with
    ⟨got, present, taken⟩ | ⟨untaken, failed | ⟨db', made, created⟩⟩
  · rw [taken] at step
    cases step
    exact Or.inl ⟨got, present, rfl, rfl⟩
  · rw [failed] at step
    exact Or.inr ⟨untaken, freshCodeOver_created (decVal_createdValue _ ttl cu.2) step⟩
  · rw [made] at step
    cases step
    exact Or.inr ⟨untaken, created⟩

/-- The codes of the second round, given those that were returned before. -/
structure Returns (returned : List String) (db' : Map Bytes Bytes) (urls codes : List String) :
    Prop where
  distinct : codes.Nodup
  apart : ∀ code ∈ codes, code ∉ returned
  stores : List.Forall₂ (fun url code => urlOf db' code = some url) urls codes

theorem returns_cons_iff {returned : List String} {db' : Map Bytes Bytes} {url code : String}
    {urls codes : List String} :
    Returns returned db' (url :: urls) (code :: codes) ↔
      code ∉ returned ∧ urlOf db' code = some url ∧ Returns (code :: returned) db' urls codes := by
  constructor
  · rintro ⟨distinct, apart, stores⟩
    obtain ⟨alone, later⟩ := List.nodup_cons.mp distinct
    obtain ⟨held, rest⟩ := List.forall₂_cons.mp stores
    refine ⟨apart code List.mem_cons_self, held, later, fun other among => ?_, rest⟩
    rw [List.mem_cons, not_or]
    exact ⟨fun same => alone (same ▸ among), apart other (List.mem_cons_of_mem code among)⟩
  · rintro ⟨new, held, later, apart, rest⟩
    refine ⟨List.nodup_cons.mpr ⟨fun among => ?_, later⟩, fun other among => ?_,
      List.forall₂_cons.mpr ⟨held, rest⟩⟩
    · exact apart code among List.mem_cons_self
    · rcases List.mem_cons.mp among with rfl | among
      · exact new
      · exact fun before => apart other among (List.mem_cons_of_mem code before)

/-- A row of the second round gets a new code with its url exactly if the code
was not found taken, or fits. -/
theorem again_fits_iff {inst : Inst} {env : RocksEnv} {fates : Fates} {ttl : Int64}
    {returned : List String} {db db' : Map Bytes Bytes} {k : Nat} {rng : List Suffix}
    {cu : String × String} {done : String × Map Bytes Bytes × Nat × List Suffix}
    (present : ∀ code ∈ returned, encode code ∈ db)
    (step : again inst env fates ttl db k rng cu = some done) (later : KeepsRows done.2.1 db') :
    (done.1 ∉ returned ∧ urlOf db' done.1 = some cu.2) ↔
      (fates.get k = true → encode cu.1 ∈ db → cu.1 ∉ returned ∧ urlOf db cu.1 = some cu.2) := by
  rcases again_cases step with ⟨got, taken, code, unmoved⟩ | ⟨untaken, created⟩
  · rw [unmoved] at later
    rw [code, later.urlOf taken]
    exact ⟨fun fits _ _ => fits, fun fits => fits got taken⟩
  · have new : done.1 ∉ returned := fun before => created.free (present done.1 before)
    have stored : urlOf db' done.1 = some cu.2 := by
      rw [later.urlOf created.mem, created.urlOf]
    exact iff_of_true ⟨new, stored⟩ fun got taken => absurd ⟨got, taken⟩ untaken

theorem again_keeps {inst : Inst} {env : RocksEnv} {fates : Fates} {ttl : Int64}
    {db : Map Bytes Bytes} {k : Nat} {rng : List Suffix} {cu : String × String}
    {done : String × Map Bytes Bytes × Nat × List Suffix}
    (step : again inst env fates ttl db k rng cu = some done) :
    KeepsRows db done.2.1 ∧ encode done.1 ∈ done.2.1 := by
  rcases again_cases step with ⟨-, taken, code, unmoved⟩ | ⟨-, created⟩
  · rw [unmoved, code]
    exact ⟨.refl db, taken⟩
  · exact ⟨created.keeps, created.mem⟩

theorem KeepsRows.mem {db db' : Map Bytes Bytes} (keeps : KeepsRows db db') {key : Bytes}
    (present : key ∈ db) : key ∈ db' := by
  obtain ⟨v, held⟩ := Option.ne_none_iff_exists'.mp (Map.mem_iff_lookup.mp present)
  rw [Map.mem_iff_lookup, keeps key v held]
  exact Option.some_ne_none v

/-- The second round never overwrites, and returns what it should exactly when
the taken codes fit. -/
theorem secondRound_spec {inst : Inst} {env : RocksEnv} {fates : Fates} {ttl : Int64}
    {returned : List String} {db db' : Map Bytes Bytes} {k : Nat} {rng : List Suffix}
    {rows : List (String × String)} {codes : List String}
    (present : ∀ code ∈ returned, encode code ∈ db)
    (ended : secondRound inst env fates ttl db k rng rows = some (codes, db')) :
    KeepsRows db db' ∧
      (Returns returned db' (rows.map Prod.snd) codes ↔
        RoundFits inst env fates ttl returned db k rng rows) := by
  induction rows generalizing returned db k rng codes with
  | nil =>
      cases ended
      have nothing : Returns returned db' [] [] := ⟨List.nodup_nil, by simp, List.Forall₂.nil⟩
      exact ⟨.refl db', iff_of_true nothing trivial⟩
  | cons cu rows ih =>
      obtain ⟨done, step, later⟩ := Option.bind_eq_some_iff.mp ended
      obtain ⟨⟨codes', db''⟩, rest, same⟩ := Option.map_eq_some_iff.mp later
      cases same
      obtain ⟨keeps, stored⟩ := again_keeps step
      have held : ∀ code ∈ done.1 :: returned, encode code ∈ done.2.1 := by
        intro code among
        rcases List.mem_cons.mp among with rfl | among
        · exact stored
        · exact keeps.mem (present code among)
      obtain ⟨later_keeps, later_fits⟩ := ih held rest
      refine ⟨keeps.trans later_keeps, ?_⟩
      rw [List.map_cons, returns_cons_iff, later_fits, RoundFits, step, ← and_assoc,
        again_fits_iff present step later_keeps]
      simp only [Option.mem_def, Option.some.injEq, forall_eq']

/-- A bulk creation keeps all rows and stores every url under a code of its own
exactly when the drawn codes fit. -/
theorem shortenManyOver_harmless_iff {inst : Inst} {env : RocksEnv} {fates : Fates}
    {rng : List Suffix} {db db' : Map Bytes Bytes} {urls codes : List String} {ttl : Int64}
    (ended : shortenManyOver inst env fates rng db urls ttl = some (codes, db')) :
    Harmless db db' urls codes ↔ Fits inst env fates rng db urls ttl := by
  rw [shortenManyOver] at ended
  split at ended
  · cases ended
  · rename_i enough
    have asked := map_snd_batchRows inst enough
    rw [Fits]
    dsimp only at ended ⊢
    split at ended
    · rename_i written
      rw [if_pos written]
      cases ended
      have batch := harmless_putAll_iff (env.clock 0) ttl db (batchRows inst rng urls)
      rwa [asked] at batch
    · rename_i failed
      rw [if_neg failed]
      have nothing : ∀ code ∈ ([] : List String), encode code ∈ db := by simp
      obtain ⟨keeps, fits⟩ := secondRound_spec nothing ended
      rw [asked] at fits
      rw [← fits]
      constructor
      · rintro ⟨-, distinct, stores⟩
        exact ⟨distinct, by simp, stores⟩
      · rintro ⟨distinct, -, stores⟩
        exact ⟨keeps, distinct, stores⟩

/-- A database with one link, under the code that all zero bytes draw. -/
def occupied : Map Bytes Bytes :=
  (∅ : Map Bytes Bytes).insert (encode "00000000") (encVal 0 3 "u")

/-- A database whose batch fails, while single creates succeed. -/
def batchFails : Fates where
  batch := false
  get _ := true
  put _ := true

/-- Three random buffers: the first draws the code that is taken. -/
def threeDraws : List Suffix :=
  [.replicate 7 0, .replicate 7 10, .replicate 7 36]

/-- The first url is the one that the taken code has already. -/
theorem shortenManyOver_harmless_iff_failed :
    ∃ codes db', shortenManyOver 0 ⟨fun _ => 5⟩ batchFails threeDraws occupied ["u", "w", "x"] 0 =
        some (codes, db') ∧ codes = ["00000000", "0AAAAAAA", "0aaaaaaa"] ∧
      (Harmless occupied db' ["u", "w", "x"] codes ↔
        Fits 0 ⟨fun _ => 5⟩ batchFails threeDraws occupied ["u", "w", "x"] 0) := by
  have returns : (shortenManyOver 0 ⟨fun _ => 5⟩ batchFails threeDraws occupied
      ["u", "w", "x"] 0).map Prod.fst = some ["00000000", "0AAAAAAA", "0aaaaaaa"] := by
    decide +kernel
  obtain ⟨⟨codes, db'⟩, ended, drawn⟩ := Option.map_eq_some_iff.mp returns
  exact ⟨codes, db', ended, drawn, shortenManyOver_harmless_iff ended⟩

/-- The batch replaces the link that has the drawn code. -/
theorem batch_overwrites :
    ¬ ∀ (inst : Inst) (env : RocksEnv) (fates : Fates) (rng : List Suffix)
      (db db' : Map Bytes Bytes) (urls codes : List String) (ttl : Int64),
      shortenManyOver inst env fates rng db urls ttl = some (codes, db') →
        Harmless db db' urls codes := by
  intro every
  have harmless := every 0 ⟨fun _ => 5⟩ ⟨true, fun _ => true, fun _ => true⟩ [.replicate 7 0]
    occupied _ ["w"] _ 0 rfl
  have kept := harmless.keeps (encode "00000000") (encVal 0 3 "u") (by decide +kernel)
  exact absurd kept (by decide +kernel)

end Shrt.Rocks
