import Mathlib.Data.List.Basic
import Shrt.Kv.Layouts
import Shrt.Lib.Runs

/-!
# Cached reads are server reads

An entry of the cache is past its expiry or shows the row that the server
holds.  Every command of the only client keeps it so: a row that goes away by
itself is past its expiry, a code is created only where no row is, and a call
that changes or deletes a row drops the entry.
-/

namespace Shrt.Kv

open Shrt.Codec Shrt.Lib Shrt.Lib.Utf8
open Shrt.Store.Inner (expiry)

/-! ## Times -/

theorem past_mono {e now later : Int64} (le : now ≤ later) (gone : past e now = true) :
    past e later = true := by
  simp only [past, Bool.and_eq_true, decide_eq_true_eq, bne_iff_ne, ne_eq] at gone ⊢
  exact ⟨gone.1, Int64.le_trans gone.2 le⟩

/-- A positive time to live gives an expiry, no later than it asks for. -/
theorem expiry_spec {now ttl : Int64} (nonneg : 0 ≤ now) (live : ttl > 0) :
    expiry now ttl ≠ 0 ∧ (expiry now ttl).toInt ≤ now.toInt + ttl.toInt := by
  have nowBound := now.toInt_lt
  have ttlBound := ttl.toInt_lt
  have nowNonneg : 0 ≤ now.toInt := Int64.le_iff_toInt_le.mp nonneg
  have ttlPos : 0 < ttl.toInt := Int64.lt_iff_toInt_lt.mp live
  have sum : (now + ttl).toInt = (now.toInt + ttl.toInt).bmod (2 ^ 64) := Int64.toInt_add now ttl
  rw [expiry, if_pos live]
  rw [Int.bmod_def] at sum
  constructor
  · intro zero
    rw [zero, Int64.toInt_zero] at sum
    omega
  · omega

/-- What is left until an expiry, counted from a later time, reaches it. -/
theorem remaining_spec {e now later : Int64} (nonneg : 0 ≤ now) (le : now ≤ later)
    (future : e > 0) : e.toInt ≤ later.toInt + (e - now).toInt := by
  have eBound := e.toInt_lt
  have nowBound := now.toInt_lt
  have nowNonneg : 0 ≤ now.toInt := Int64.le_iff_toInt_le.mp nonneg
  have ePos : 0 < e.toInt := Int64.lt_iff_toInt_lt.mp future
  have nowLe : now.toInt ≤ later.toInt := Int64.le_iff_toInt_le.mp le
  have difference := Int64.toInt_sub e now
  rw [Int.bmod_def] at difference
  omega

/-- A value is as it was, or it went away and was old. -/
def Lapses {α : Type} (old : α → Prop) (v v' : Option α) : Prop :=
  v' = v ∨ (v' = none ∧ ∃ a, v = some a ∧ old a)

theorem Lapses.trans {α : Type} {old : α → Prop} {v v' v'' : Option α} (first : Lapses old v v')
    (second : Lapses old v' v'') : Lapses old v v'' := by
  rcases first with same | ⟨gone, was⟩
  · rwa [same] at second
  · rcases second with same' | ⟨gone', -⟩
    · exact Or.inr ⟨same'.trans gone, was⟩
    · exact Or.inr ⟨gone', was⟩

/-! ## What the server holds -/

/-- A row with a deadline expires no later; the fields of hits hold no rows. -/
structure Redis.Lawful (r : Redis) : Prop where
  deadlines : ∀ c st d, r.strings.lookup (lkey c) = some st → st.deadline = some d →
    ∃ row, decVal st.value = some row ∧ row.e ≠ 0 ∧ row.e.toInt ≤ d
  counters : ∀ b f v, r.hget b f = some v → encode "h:" <+: f → pipe ∉ v

namespace Redis.Lawful

variable {r : Redis}

theorem empty : Redis.empty.Lawful where
  deadlines _ _ _ found := by cases found
  counters _ _ _ found := by cases found

/-- Only strings changed, and none of them was added. -/
theorem of_strings {r' : Redis} (lawful : r.Lawful) (hashes : r'.hashes = r.hashes)
    (strings : ∀ k st, r'.strings.lookup k = some st → r.strings.lookup k = some st) :
    r'.Lawful where
  deadlines c st d found deadline := lawful.deadlines c st d (strings _ _ found) deadline
  counters b f v found hits := by
    rw [Redis.hget, Redis.bucket, hashes] at found
    exact lawful.counters b f v found hits

theorem evict (lawful : r.Lawful) (now : Int64) (chosen : Bytes → Bool) :
    (r.evict now chosen).Lawful := by
  refine lawful.of_strings rfl fun k st found => ?_
  rcases Redis.lookup_evict r now chosen k with same | ⟨gone, -⟩
  · rwa [← same]
  · rw [gone] at found
    cases found

theorem del (lawful : r.Lawful) (k : Bytes) : (r.del k).2.Lawful := by
  refine lawful.of_strings rfl fun k' st found => ?_
  rw [Redis.del, Map.lookup_erase_eq] at found
  split at found
  · cases found
  · exact found

theorem setString (lawful : r.Lawful) {k : Bytes} {st : Stored}
    (meets : ∀ c d, lkey c = k → st.deadline = some d →
      ∃ row, decVal st.value = some row ∧ row.e ≠ 0 ∧ row.e.toInt ≤ d) :
    (r.setString k st).Lawful where
  deadlines c st' d found deadline := by
    rw [Redis.setString, Map.lookup_insert_eq] at found
    split at found
    · rename_i same
      cases found
      exact meets c d same deadline
    · exact lawful.deadlines c st' d found deadline
  counters b f v found hits := lawful.counters b f v found hits

theorem set (lawful : r.Lawful) (now : Int64) (k : Bytes) {v : Bytes} {px : Int64} (nx : Bool)
    (meets : px > 0 →
      ∃ row, decVal v = some row ∧ row.e ≠ 0 ∧ row.e.toInt ≤ now.toInt + px.toInt) :
    (r.set now k v px nx).2.Lawful := by
  rw [Redis.set]
  split
  · exact lawful
  · refine lawful.setString fun c d _ deadline => ?_
    dsimp only at deadline
    split at deadline
    · rename_i live
      cases deadline
      exact meets live
    · cases deadline

theorem incrby (lawful : r.Lawful) (code : String) (d : Int64) :
    (r.incrby (hkey code) d).Lawful :=
  lawful.setString fun c _ same _ => absurd same (lkey_ne_hkey c code)

theorem hset (lawful : r.Lawful) (b : Bytes) {f v : Bytes}
    (meets : encode "h:" <+: f → pipe ∉ v) : (r.hset b f v).Lawful where
  deadlines c st d found deadline := lawful.deadlines c st d found deadline
  counters b' f' v' found hits := by
    rw [Redis.hget_hset] at found
    split at found
    · rename_i same
      cases found
      exact meets (same.2 ▸ hits)
    · exact lawful.counters b' f' v' found hits

theorem hdel (lawful : r.Lawful) (b f : Bytes) : (r.hdel b f).2.Lawful where
  deadlines c st d found deadline := lawful.deadlines c st d found deadline
  counters b' f' v' found hits := by
    rw [Redis.hget_hdel] at found
    split at found
    · cases found
    · exact lawful.counters b' f' v' found hits

theorem hsetnx (lawful : r.Lawful) (b v : Bytes) {code : String} (plain : Plain code) :
    (r.hsetnx b (encode code) v).2.Lawful := by
  rw [Redis.hsetnx]
  split
  · exact lawful
  · exact lawful.hset b fun hits => absurd hits (not_hits_of_plain plain)

/-- A counter stays free of bars. -/
theorem pipe_not_mem_counted {v : Option Bytes} (solid : ∀ b, v = some b → pipe ∉ b) (d : Int64) :
    pipe ∉ Redis.counted v d := by
  cases v with
  | none => exact pipe_not_mem_itoa d
  | some b =>
      rw [Redis.counted]
      cases parseField b with
      | none => exact solid b rfl
      | some n => exact pipe_not_mem_itoa (n + d)

theorem hincrby (lawful : r.Lawful) (b : Bytes) (code : String) (d : Int64) :
    (r.hincrby b (hfield code) d).Lawful :=
  lawful.hset b fun hits =>
    pipe_not_mem_counted (fun v found => lawful.counters b _ v found hits) d

/-- The fields of hits decode to no row. -/
theorem decVal_hits (lawful : r.Lawful) {b f : Bytes} (hits : encode "h:" <+: f) :
    (r.hget b f).bind decVal = none := by
  cases found : r.hget b f with
  | none => rfl
  | some v => exact decVal_eq_none (lawful.counters b f v found hits)

end Redis.Lawful

/-! ## Rows -/

/-- The clock of a call: never before the epoch, never back, and done by `now`. -/
structure KvEnv.Timed (env : KvEnv) (now : Int64) : Prop where
  nonneg : ∀ t, 0 ≤ env.clock t
  monotone : ∀ {t t'}, t ≤ t' → env.clock t ≤ env.clock t'
  bounded : ∀ t, env.clock t ≤ now

namespace KvStore

/-- The row that the server holds for a code, expired or not. -/
def row (s : KvStore) (code : String) : Option Row :=
  (s.kvGet code).bind decVal

theorem row_of_readRow {s : KvStore} {env : KvEnv} {read check : Nat} {code : String} {row : Row}
    (got : s.readRow env read check code = some row) : (s.atStep env read).row code = some row := by
  simp only [readRow, Option.bind_eq_some_iff] at got
  obtain ⟨v, stored, row', decoded, current⟩ := got
  split at current
  · cases current
  · cases current
    exact Option.bind_eq_some_iff.mpr ⟨v, stored, decoded⟩

/-- A row is as it was, or it went away and is past its expiry. -/
def Fades (now : Int64) (s s' : KvStore) (c : String) : Prop :=
  Lapses (fun row => past row.e now = true) (s.row c) (s'.row c)

namespace Fades

variable {now : Int64} {s : KvStore}

theorem atStep (lawful : s.kv.Lawful) (env : KvEnv) {t : Nat} (le : env.clock t ≤ now)
    (c : String) : Fades now s (s.atStep env t) c := by
  cases layout : s.layout with
  | hash =>
      left
      simp only [row, kvGet, KvStore.atStep, layout]
      rfl
  | key =>
      simp only [Fades, Lapses, row, kvGet, KvStore.atStep, layout, Redis.get]
      rcases Redis.lookup_evict s.kv (env.clock t) (env.evicts t) (lkey c) with
        same | ⟨gone, st, found, due⟩
      · exact Or.inl (by rw [same])
      · right
        rw [gone, Option.mem_def.mp found]
        cases deadline : st.deadline with
        | none =>
            rw [Stored.due, deadline] at due
            cases due
        | some d =>
            rw [Stored.due, deadline] at due
            obtain ⟨row, decoded, nonzero, early⟩ :=
              lawful.deadlines c st d (Option.mem_def.mp found) deadline
            have passed : d ≤ (env.clock t).toInt := by simpa using due
            have expired : row.e ≤ env.clock t := Int64.le_iff_toInt_le.mpr (early.trans passed)
            refine ⟨rfl, row, decoded, ?_⟩
            simp [past, nonzero, Int64.le_trans expired le]

end Fades

theorem row_setNx_other (s : KvStore) (now : Int64) {code c : String} (value : Bytes) (ttl : Int64)
    (other : c ≠ code) : (s.setNx now code value ttl).2.row c = s.row c := by
  rw [row, kvGet_setNx, if_neg fun same => other same.1]
  rfl

/-- A code is created only where no row is. -/
theorem row_of_setNx {s : KvStore} {now : Int64} {code : String} {value : Bytes} {ttl : Int64}
    (free : (s.setNx now code value ttl).1 = true) : s.row code = none := by
  rw [fst_setNx, Option.isNone_iff_eq_none] at free
  rw [row, free]
  rfl

theorem row_setRow_other (s : KvStore) (now : Int64) {code c : String} (value : Bytes) (px : Int64)
    (other : c ≠ code) : (s.setRow now code value px).row c = s.row c := by
  rw [row, kvGet_setRow, if_neg other]
  rfl

theorem row_delRow_other (s : KvStore) {code c : String} (other : c ≠ code) :
    (s.delRow code).2.row c = s.row c := by
  rw [row, kvGet_delRow, if_neg other]
  rfl

/-- A delete that finds nothing changes no row. -/
theorem row_delRow_missing {s : KvStore} {code : String} (missing : (s.delRow code).1 = false)
    (c : String) : (s.delRow code).2.row c = s.row c := by
  rw [fst_delRow, Option.isSome_eq_false_iff, Option.isNone_iff_eq_none] at missing
  rw [row, row, kvGet_delRow]
  split
  · rename_i same
    rw [same, missing]
  · rfl

theorem row_delHits {s : KvStore} (lawful : s.kv.Lawful) (code c : String) :
    (s.delHits code).row c = s.row c := by
  cases layout : s.layout with
  | hash =>
      simp only [row, kvGet, delHits, layout]
      rw [Redis.hget_hdel]
      split
      · rename_i same
        rw [same.2, lawful.decVal_hits (hits_prefix_hfield code)]
        rfl
      · rfl
  | key =>
      simp only [row, kvGet, delHits, layout, Redis.del, Redis.get]
      rw [Map.lookup_erase_eq, if_neg (lkey_ne_hkey c code)]

theorem row_addHits {s : KvStore} (lawful : s.kv.Lawful) (code : String) (d : Int64) (c : String) :
    (s.addHits code d).row c = s.row c := by
  cases layout : s.layout with
  | hash =>
      simp only [row, kvGet, addHits, layout, Redis.hincrby]
      rw [Redis.hget_hset]
      split
      · rename_i same
        have solid := Redis.Lawful.pipe_not_mem_counted
          (fun v found => lawful.counters (bkey code s.buckets) (hfield code) v found
            (hits_prefix_hfield code)) d
        rw [same.2, lawful.decVal_hits (hits_prefix_hfield code)]
        exact decVal_eq_none solid
      · rfl
  | key =>
      simp only [row, kvGet, addHits, layout, Redis.incrby, Redis.get]
      rw [Redis.setString, Map.lookup_insert_eq, if_neg (lkey_ne_hkey c code)]

/-! ## The sweep -/

/-- A field is as it was, or it was swept: a row past its expiry. -/
def Swept (now : Int64) (r r' : Redis) (b f : Bytes) : Prop :=
  Lapses (fun v => ∃ row, decVal v = some row ∧ past row.e now = true) (r.hget b f) (r'.hget b f)

theorem hget_hdels (fs : List Bytes) (r : Redis) (b b' f : Bytes) :
    (fs.foldl (fun kv f => (kv.hdel b f).2) r).hget b' f =
      if b' = b ∧ f ∈ fs then none else r.hget b' f := by
  induction fs generalizing r with
  | nil => simp
  | cons g fs ih =>
      rw [List.foldl_cons, ih, Redis.hget_hdel]
      by_cases bucket : b' = b
      · by_cases later : f ∈ fs
        · simp [bucket, later]
        · by_cases here : f = g
          · simp [bucket, here]
          · simp [bucket, later, here]
      · simp [bucket]

theorem swept_sweepBucket (now : Int64) (r : Redis) (b b' f : Bytes) :
    Swept now r (sweepBucket now r b) b' f := by
  rw [Swept, Lapses, sweepBucket, hget_hdels]
  split
  · rename_i listed
    obtain ⟨rfl, member⟩ := listed
    obtain ⟨⟨f', v⟩, chosen, rfl⟩ := List.mem_map.mp member
    rw [List.mem_filter, Map.mem_pairs_iff, Bool.and_eq_true, Option.any_eq_true] at chosen
    obtain ⟨found, -, row, decoded, gone⟩ := chosen
    right
    exact ⟨rfl, v, found, row, decoded, gone⟩
  · exact Or.inl rfl

theorem swept_sweep (now : Int64) (bs : List Bytes) (r : Redis) (b f : Bytes) :
    Swept now r (bs.foldl (sweepBucket now) r) b f := by
  induction bs generalizing r with
  | nil => exact Or.inl rfl
  | cons b' bs ih => exact Lapses.trans (swept_sweepBucket now r b' b f) (ih _)

theorem strings_hdels (fs : List Bytes) (r : Redis) (b : Bytes) :
    (fs.foldl (fun kv f => (kv.hdel b f).2) r).strings = r.strings := by
  induction fs generalizing r with
  | nil => rfl
  | cons f fs ih => exact ih _

theorem strings_sweep (now : Int64) (bs : List Bytes) (r : Redis) :
    (bs.foldl (sweepBucket now) r).strings = r.strings := by
  induction bs generalizing r with
  | nil => rfl
  | cons b bs ih => exact (ih _).trans (strings_hdels _ r b)

theorem lawful_sweep {r : Redis} (lawful : r.Lawful) (now : Int64) (bs : List Bytes) :
    (bs.foldl (sweepBucket now) r).Lawful where
  deadlines c st d found deadline := by
    rw [strings_sweep] at found
    exact lawful.deadlines c st d found deadline
  counters b f v found hits := by
    rcases swept_sweep now bs r b f with same | ⟨gone, -⟩
    · rw [same] at found
      exact lawful.counters b f v found hits
    · rw [gone] at found
      cases found

theorem fades_sweepExpired {s : KvStore} (lawful : s.kv.Lawful) (env : KvEnv) {now : Int64}
    (first : env.clock 0 ≤ now) (second : env.clock 1 ≤ now) (c : String) :
    Fades now s (s.sweepExpired env) c := by
  refine Lapses.trans (Fades.atStep lawful env first c) ?_
  cases layout : s.layout with
  | key =>
      left
      simp only [row, kvGet, sweepExpired, KvStore.atStep, layout, Redis.get, strings_sweep]
  | hash =>
      simp only [Lapses, row, kvGet, sweepExpired, KvStore.atStep, layout]
      rcases swept_sweep (env.clock 1) _ (s.kv.evict (env.clock 0) (env.evicts 0))
        (bkey c s.buckets) (encode c) with
        same | ⟨gone, v, found, row, decoded, old⟩
      · exact Or.inl (by rw [same])
      · rw [gone, found]
        exact Or.inr ⟨rfl, row, decoded, past_mono second old⟩

/-! ## Coherence -/

/-- The entry of a code is past its expiry or shows the row of the server. -/
def Fits (now : Int64) (s : KvStore) (c : String) : Prop :=
  ∀ ent, s.cache.find c = some ent →
    past ent.e now = true ∨ ∃ row, s.row c = some row ∧ row.e = ent.e ∧ row.u = ent.u

/-- The server is lawful and the cache coherent with it. -/
structure Sound (now : Int64) (s : KvStore) : Prop where
  lawful : s.kv.Lawful
  fits : ∀ c, Fits now s c

theorem sound_fresh (now : Int64) (inst : Inst) (layout : Layout) (buckets : Buckets)
    (cacheEntries : Nat) (cacheTtlMs : Int64) :
    Sound now (.fresh inst layout buckets cacheEntries cacheTtlMs) where
  lawful := .empty
  fits c ent found := by
    rw [Lru.find] at found
    cases found

namespace Fits

variable {now : Int64} {s s' : KvStore} {c : String}

/-- The row lapsed and no entry was added. -/
theorem of_fades (fits : Fits now s c) (fades : Fades now s s' c)
    (kept : ∀ ent, s'.cache.find c = some ent → s.cache.find c = some ent) : Fits now s' c := by
  intro ent found
  rcases fits ent (kept ent found) with gone | ⟨row, shown, expiry, url⟩
  · exact Or.inl gone
  · rcases fades with same | ⟨-, row', shown', gone⟩
    · exact Or.inr ⟨row, same.trans shown, expiry, url⟩
    · rw [shown] at shown'
      cases shown'
      exact Or.inl (expiry ▸ gone)

/-- Where there was no row, every entry is past its expiry. -/
theorem of_absent (fits : Fits now s c) (absent : s.row c = none)
    (kept : ∀ ent, s'.cache.find c = some ent → s.cache.find c = some ent) : Fits now s' c := by
  intro ent found
  rcases fits ent (kept ent found) with gone | ⟨row, shown, -⟩
  · exact Or.inl gone
  · rw [absent] at shown
    cases shown

end Fits

namespace Sound

variable {now : Int64} {s : KvStore} {env : KvEnv}

/-- A step that lets rows lapse and adds no entry. -/
theorem of_fades {s' : KvStore} (sound : Sound now s) (lawful : s'.kv.Lawful)
    (fades : ∀ c, Fades now s s' c)
    (kept : ∀ c ent, s'.cache.find c = some ent → s.cache.find c = some ent) : Sound now s' :=
  ⟨lawful, fun c => (sound.fits c).of_fades (fades c) (kept c)⟩

theorem atStep (sound : Sound now s) {t : Nat} (le : env.clock t ≤ now) :
    Sound now (s.atStep env t) :=
  sound.of_fades (sound.lawful.evict _ _) (Fades.atStep sound.lawful env le) fun _ _ found => found

theorem setNx (sound : Sound now s) {time created ttl : Int64} {code url : String}
    (plain : Plain code) (nonneg : 0 ≤ created) (le : created ≤ time) :
    Sound now (s.setNx time code (encVal (expiry created ttl) created url) ttl).2 where
  lawful := by
    have meets : ttl > 0 → ∃ row, decVal (encVal (expiry created ttl) created url) = some row ∧
        row.e ≠ 0 ∧ row.e.toInt ≤ time.toInt + ttl.toInt := by
      intro live
      obtain ⟨nonzero, early⟩ := expiry_spec nonneg live
      have later : created.toInt ≤ time.toInt := Int64.le_iff_toInt_le.mp le
      exact ⟨_, decVal_encVal _ _ _, nonzero, early.trans (by omega)⟩
    simp only [KvStore.setNx]
    cases s.layout with
    | hash => exact sound.lawful.hsetnx _ _ plain
    | key => exact sound.lawful.set _ _ _ meets
  fits c := by
    by_cases same : c = code
    · subst same
      cases done : (s.setNx time c (encVal (expiry created ttl) created url) ttl).1 with
      | true => exact (sound.fits c).of_absent (row_of_setNx done) fun _ found => found
      | false =>
          rw [setNx_taken done]
          exact sound.fits c
    · exact (sound.fits c).of_fades (Or.inl (row_setNx_other s _ _ _ same)) fun _ found => found

/-- Creating links keeps the cache coherent. -/
theorem keptByCreates (timed : env.Timed now) (ttl : Int64) : KeptByCreates env ttl (Sound now) where
  evicted _ t sound := sound.atStep (timed.bounded t)
  created _ begun _ _ _ plain le sound :=
    sound.setNx plain (timed.nonneg begun) (timed.monotone le)

/-- Dropping the entry of the code makes room for any change of its row. -/
theorem of_changed {s' : KvStore} {code : String} (sound : Sound now s) (lawful : s'.kv.Lawful)
    (fades : ∀ c, c ≠ code → Fades now s s' c) (same : s'.cache = s.cache) :
    Sound now { s' with cache := s'.cache.remove code } where
  lawful := lawful
  fits c ent found := by
    rw [Lru.find_remove] at found
    split at found
    · cases found
    · rename_i other
      have kept : Fits now s' c :=
        (sound.fits c).of_fades (fades c other) fun ent' found' => same ▸ found'
      exact kept ent found

/-- A row that is read is one of a code. -/
theorem not_hits_of_row {code : String} {row : Row} (sound : Sound now s)
    (layout : s.layout = .hash) (shown : s.row code = some row) :
    ¬ encode "h:" <+: encode code := by
  intro hits
  simp only [KvStore.row, kvGet, layout] at shown
  rw [sound.lawful.decVal_hits hits] at shown
  cases shown

theorem setRow_lawful (timed : env.Timed now) {code url : String} {row : Row} {e : Int64}
    (sound : Sound now s) (shown : s.row code = some row) :
    ((s.atStep env 3).setRow (env.clock 3) code (encVal e row.c url)
      (if e > 0 then e - env.clock 2 else 0)).kv.Lawful := by
  have evicted := (sound.atStep (timed.bounded 3)).lawful
  have layout_eq : (s.atStep env 3).layout = s.layout := rfl
  simp only [setRow, layout_eq]
  cases layout : s.layout with
  | hash => exact evicted.hset _ fun hits => absurd hits (sound.not_hits_of_row layout shown)
  | key =>
      refine evicted.set _ _ _ fun live => ?_
      refine ⟨_, decVal_encVal _ _ _, ?_⟩
      by_cases future : e > 0
      · rw [if_pos future]
        have nonzero : e ≠ 0 := fun zero => absurd (zero ▸ future) (by decide)
        exact ⟨nonzero, remaining_spec (timed.nonneg 2) (timed.monotone (by decide)) future⟩
      · rw [if_neg future] at live
        exact absurd live (by decide)

theorem update (timed : env.Timed now) (sound : Sound now s) (code url : String) (ttl : Int64)
    (hasTtl : Bool) : Sound now (s.update env code url ttl hasTtl).2 := by
  have read := sound.atStep (timed.bounded 0)
  rw [KvStore.update]
  cases shown : ((s.atStep env 0).kvGet code).bind decVal with
  | none => exact read
  | some row =>
      refine read.of_changed (setRow_lawful timed read shown) (fun c other => ?_) rfl
      refine Lapses.trans (Fades.atStep read.lawful env (timed.bounded 3) c) ?_
      exact Or.inl (row_setRow_other _ _ _ _ other)

theorem delRow_lawful (lawful : s.kv.Lawful) (code : String) : (s.delRow code).2.kv.Lawful := by
  simp only [delRow]
  cases s.layout with
  | hash => exact lawful.hdel _ _
  | key => exact lawful.del _

theorem delHits_lawful (lawful : s.kv.Lawful) (code : String) : (s.delHits code).kv.Lawful := by
  simp only [delHits]
  cases s.layout with
  | hash => exact lawful.hdel _ _
  | key => exact lawful.del _

theorem addHits_lawful (lawful : s.kv.Lawful) (code : String) (d : Int64) :
    (s.addHits code d).kv.Lawful := by
  simp only [addHits]
  cases s.layout with
  | hash => exact lawful.hincrby _ _ _
  | key => exact lawful.incrby _ _

theorem remove (timed : env.Timed now) (sound : Sound now s) (code : String) :
    Sound now (s.remove env code).2 := by
  have first := sound.atStep (timed.bounded 0)
  have deleted := delRow_lawful first.lawful code
  have second := deleted.evict (env.clock 1) (env.evicts 1)
  rw [KvStore.remove]
  cases done : ((s.atStep env 0).delRow code).1 with
  | false =>
      simp only [Bool.false_eq_true, if_false]
      exact first.of_fades deleted (fun c => Or.inl (row_delRow_missing done c))
        fun _ _ found => found
  | true =>
      simp only [if_true]
      refine first.of_changed (delHits_lawful second code) (fun c other => ?_) rfl
      refine Lapses.trans (Or.inl (row_delRow_other _ other)) ?_
      refine Lapses.trans (Fades.atStep deleted env (timed.bounded 1) c) ?_
      exact Or.inl (row_delHits second code c)

theorem bump (sound : Sound now s) (env : KvEnv) (code : String) : Sound now (s.bump env code) := by
  rw [KvStore.bump]
  split
  · exact ⟨sound.lawful, sound.fits⟩
  · exact sound

/-- The row that the server shows may be cached. -/
theorem put (sound : Sound now s) {code : String} {row : Row} (shown : s.row code = some row)
    (time : Int64) : Sound now { s with cache := s.cache.put time code row.u row.e } where
  lawful := sound.lawful
  fits c ent found := by
    rcases Lru.find_put _ _ _ _ _ found with ⟨rfl, rfl⟩ | ⟨-, kept⟩
    · exact Or.inr ⟨row, shown, rfl, rfl⟩
    · exact sound.fits c ent kept

/-- A resolve caches only what it read. -/
theorem resolve (timed : env.Timed now) (sound : Sound now s) (code : String) :
    Sound now (s.resolve env code).2 := by
  have looked : Sound now { s with cache := (s.cached env code).2 } :=
    sound.of_fades sound.lawful (fun _ => Or.inl rfl) fun _ _ found => Lru.find_get found
  have read := looked.atStep (timed.bounded 2)
  rw [KvStore.resolve]
  cases hit : (s.cached env code).1 with
  | some shown => exact looked.bump env code
  | none =>
      simp only
      cases got : readRow { s with cache := (s.cached env code).2 } env 2 3 code with
      | none => exact read
      | some row => exact (read.put (row_of_readRow got) (env.clock 4)).bump env code

theorem addHits (sound : Sound now s) (code : String) (d : Int64) :
    Sound now (s.addHits code d) :=
  sound.of_fades (addHits_lawful sound.lawful code d)
    (fun c => Or.inl (row_addHits sound.lawful code d c)) fun _ _ found => found

theorem flushHits (timed : env.Timed now) (sound : Sound now s) :
    Sound now (s.flushHits env) := by
  have start : Sound now { s.atStep env 0 with dirty := ∅ } :=
    let read := sound.atStep (timed.bounded 0)
    ⟨read.lawful, read.fits⟩
  exact Runs.invariant (fun s cn sound => sound.addHits cn.1 cn.2) start _

theorem sweepExpired (timed : env.Timed now) (sound : Sound now s) :
    Sound now (s.sweepExpired env) :=
  sound.of_fades (lawful_sweep (sound.atStep (timed.bounded 0)).lawful _ _)
    (fades_sweepExpired sound.lawful env (timed.bounded 0) (timed.bounded 1))
    fun _ _ found => found

/-- Every call keeps the cache coherent. -/
theorem step {call : KvEnv × KvCall} (timed : call.1.Timed now) (sound : Sound now s) :
    Sound now (s.step call) := by
  obtain ⟨env, call⟩ := call
  cases call with
  | shorten url aliasCode ttl => exact (keptByCreates timed ttl).step_shorten url aliasCode sound
  | shortenMany urls ttl => exact (keptByCreates timed ttl).step_shortenMany urls sound
  | update code url ttl hasTtl => exact update timed sound code url ttl hasTtl
  | remove code => exact remove timed sound code
  | resolve code => exact resolve timed sound code
  | flushHits => exact flushHits timed sound
  | sweepExpired => exact sweepExpired timed sound

theorem run {history : List (KvEnv × KvCall)} (timed : ∀ call ∈ history, call.1.Timed now)
    (sound : Sound now s) : Sound now (s.run history) := by
  induction history generalizing s with
  | nil => exact sound
  | cons call history ih =>
      exact ih (fun later member => timed later (List.mem_cons_of_mem _ member))
        (sound.step (timed call List.mem_cons_self))

/-- An entry that is served is the row of the server. -/
theorem served (sound : Sound now s) {env : KvEnv} {code u : String} {e : Int64}
    (hit : (s.cached env code).1 = some (u, e)) (bounded : env.clock 1 = now) :
    (s.readRow env 1 1 code).map Row.u = some u := by
  obtain ⟨cachedAt, found, current⟩ := Lru.get_some hit
  rw [bounded] at current
  rcases sound.fits code _ found with gone | ⟨row, shown, same, url⟩
  · rw [current] at gone
    cases gone
  · dsimp only at same url
    rw [← same] at current
    have kept : (s.atStep env 1).row code = some row := by
      rcases Fades.atStep sound.lawful env (Int64.le_of_eq bounded) code with kept | ⟨-, row', old, gone⟩
      · exact kept.trans shown
      · rw [shown] at old
        cases old
        rw [current] at gone
        cases gone
    obtain ⟨v, stored, decoded⟩ := Option.bind_eq_some_iff.mp kept
    simp [readRow, stored, decoded, bounded, current, url]

end Sound

/-! ## Every resolve -/

/-- The clock never goes back, neither within a call nor from one to the next. -/
structure Clocked (envs : List KvEnv) : Prop where
  nonneg : ∀ env ∈ envs, ∀ t, 0 ≤ env.clock t
  monotone : ∀ env ∈ envs, ∀ t t', t ≤ t' → env.clock t ≤ env.clock t'
  ordered : envs.Pairwise fun first second => ∀ t t', first.clock t ≤ second.clock t'

/-- The steps at which a resolve is answered, read and check: from the cache at
its second look at the clock, else from the server. -/
def answered (s : KvStore) (env : KvEnv) (code : String) : Nat × Nat :=
  if (s.cached env code).1.isSome then (1, 1) else (2, 3)

/-- Whatever was called before, a resolve answers what the row of the server
says at that moment. -/
theorem resolve_reads (inst : Inst) (layout : Layout) (buckets : Buckets) (cacheEntries : Nat)
    (cacheTtlMs : Int64) (history : List (KvEnv × KvCall)) (env : KvEnv) (code : String)
    (clocked : Clocked (history.map Prod.fst ++ [env])) :
    let s := (KvStore.fresh inst layout buckets cacheEntries cacheTtlMs).run history
    let moment := s.answered env code
    (s.resolve env code).1 = (s.readRow env moment.1 moment.2 code).map Row.u := by
  intro s moment
  have before : ∀ call ∈ history, call.1.Timed (env.clock 1) := by
    intro call member
    have listed : call.1 ∈ history.map Prod.fst := List.mem_map_of_mem member
    have split := List.pairwise_append.mp clocked.ordered
    exact {
      nonneg := clocked.nonneg _ (List.mem_append_left _ listed)
      monotone := fun le => clocked.monotone _ (List.mem_append_left _ listed) _ _ le
      bounded := fun t => split.2.2 _ listed env List.mem_cons_self t 1 }
  have sound : Sound (env.clock 1) s := (sound_fresh _ _ _ _ _ _).run before
  cases hit : (s.cached env code).1 with
  | some shown =>
      have moment_eq : moment = (1, 1) := by simp [moment, answered, hit]
      rw [moment_eq, sound.served hit rfl, resolve, hit]
  | none =>
      have moment_eq : moment = (2, 3) := by simp [moment, answered, hit]
      rw [moment_eq, resolve, hit]
      cases got : readRow { s with cache := (s.cached env code).2 } env 2 3 code with
      | none => exact (congrArg (Option.map Row.u) got).symm
      | some row => exact (congrArg (Option.map Row.u) got).symm

/-- An alias is created, resolved, evicted at its deadline, created again and
resolved again. -/
def recreated : List (KvEnv × KvCall) :=
  [(.at 1000 [], .shorten "https://a.example" (some promo) 50),
   (.at 1010 [], .resolve "promo"),
   ({ KvEnv.at 1100 [] with evicts := fun _ _ => true },
    .shorten "https://b.example" (some promo) 0),
   (.at 1110 [], .resolve "promo")]

theorem clocked_recreated : Clocked (recreated.map Prod.fst ++ [KvEnv.at 1120 []]) where
  nonneg := by
    simp [recreated, KvEnv.at]
  monotone := by
    simp [recreated, KvEnv.at]
  ordered := by
    simp [recreated, KvEnv.at]

/-- The second resolve is a hit, and shows the new row. -/
theorem resolve_reads_recreated :
    let s := (KvStore.fresh 0 .key ⟨8, by decide⟩ 100 0).run recreated
    s.answered (.at 1120 []) "promo" = (1, 1) ∧
      (s.readRow (.at 1120 []) 1 1 "promo").map Row.u = some "https://b.example" ∧
      (s.resolve (.at 1120 []) "promo").1 = (s.readRow (.at 1120 []) 1 1 "promo").map Row.u := by
  have reads := resolve_reads 0 .key ⟨8, by decide⟩ 100 0 recreated (.at 1120 []) "promo"
    clocked_recreated
  have hit : ((KvStore.fresh 0 .key ⟨8, by decide⟩ 100 0).run recreated).answered (.at 1120 [])
      "promo" = (1, 1) := by
    decide +kernel
  dsimp only at reads ⊢
  rw [hit] at reads
  exact ⟨hit, by decide +kernel, reads⟩

end KvStore

end Shrt.Kv
