import Mathlib.Data.List.Basic
import Shrt.Kv.Cached
import Shrt.Lib.Deltas

/-!
# Hits of the key-value store

The hits of a code are counted in two places: in the server, and in this
process until they are sent.  A resolve adds one, a flush moves them, and a
remove deletes only those in the server.  Neither a create nor the end of a row
changes them.
-/

namespace Shrt.Kv

open Shrt.Codec Shrt.Lib Shrt.Lib.Utf8
open Shrt.Store (Link)
open Shrt.Store.Inner (expiry)

/-- A counter as a number; what is no number counts as none. -/
def hitCount (v : Option Bytes) : Int64 :=
  (v.bind parseField).getD 0

theorem hitCount_counted {v : Option Bytes} (numeric : ∀ b, v = some b → parseField b ≠ none)
    (d : Int64) : hitCount (some (Redis.counted v d)) = hitCount v + d := by
  cases v with
  | none =>
      rw [hitCount, Redis.counted, Option.bind_some, parseField_itoa]
      exact (Int64.zero_add d).symm
  | some b =>
      cases parsed : parseField b with
      | none => exact absurd parsed (numeric b rfl)
      | some n => simp [hitCount, Redis.counted, parsed, parseField_itoa]

theorem counted_numeric {v : Option Bytes} (numeric : ∀ b, v = some b → parseField b ≠ none)
    (d : Int64) : parseField (Redis.counted v d) ≠ none := by
  cases v with
  | none => simp [Redis.counted, parseField_itoa]
  | some b =>
      cases parsed : parseField b with
      | none => exact absurd parsed (numeric b rfl)
      | some n => simp [Redis.counted, parsed, parseField_itoa]

def Row.link (row : Row) (code : String) (hits : Int64) : Link where
  code := code
  url := row.u
  hits := hits
  createdAt := row.c
  expiresAt := if row.e = 0 then none else some row.e

/-- The codes that the router lets through. -/
def KvCall.Checked : KvCall → Prop
  | .update code _ _ _ => codeOk code = true
  | .remove code => codeOk code = true
  | .resolve code => codeOk code = true
  | _ => True

namespace KvStore

def hitsOf (s : KvStore) (code : String) : Int64 :=
  hitCount (s.counter code) + (s.dirty.lookup code).getD 0

/-- `stats`: the row is read at step 0, the counter at step 1; the hits that
were not sent come on top.  The expiry is shown, not checked. -/
def stats (env : KvEnv) (s : KvStore) (code : String) : Option Link × KvStore :=
  let first := s.atStep env 0
  let second := first.atStep env 1
  (((first.kvGet code).bind decVal).map fun row => row.link code (second.hitsOf code), second)

/-- Every counter is a number without a deadline. -/
structure Numbered (s : KvStore) : Prop where
  lasting : s.kv.AtKeys hkey Lasting
  numeric : ∀ c v, s.counter c = some v → parseField v ≠ none

/-- The counters are numbers, and those of a code add up to `n`. -/
structure Tallies (c : String) (n : Int64) (s : KvStore) : Prop where
  numbered : s.Numbered
  hits : s.hitsOf c = n

theorem numbered_fresh (inst : Inst) (layout : Layout) (buckets : Buckets) (cacheEntries : Nat)
    (cacheTtlMs : Int64) : (fresh inst layout buckets cacheEntries cacheTtlMs).Numbered where
  lasting := .empty
  numeric c v found := by
    cases layout with
    | hash => cases found
    | key => cases found

/-! ## Commands -/

theorem hget_sweep_hits (now : Int64) (bs : List Bytes) (r : Redis) {f : Bytes} (b : Bytes)
    (hits : encode "h:" <+: f) : (bs.foldl (sweepBucket now) r).hget b f = r.hget b f := by
  induction bs generalizing r with
  | nil => rfl
  | cons b' bs ih =>
      rw [List.foldl_cons, ih, sweepBucket, hget_hdels, if_neg]
      rintro ⟨-, listed⟩
      obtain ⟨⟨f', v⟩, chosen, rfl⟩ := List.mem_map.mp listed
      rw [List.mem_filter, Bool.and_eq_true, Bool.not_eq_true', Bool.eq_false_iff] at chosen
      exact chosen.2.1 (List.isPrefixOf_iff_prefix.mpr hits)

section Lasting

variable {s : KvStore}

theorem lasting_setRow (lasting : s.kv.AtKeys hkey Lasting) (now : Int64) (code : String)
    (value : Bytes) (px : Int64) : (s.setRow now code value px).kv.AtKeys hkey Lasting := by
  simp only [setRow]
  cases s.layout with
  | hash => exact lasting
  | key => exact lasting.set fun c same => absurd same.symm (lkey_ne_hkey code c)

theorem lasting_delRow (lasting : s.kv.AtKeys hkey Lasting) (code : String) :
    (s.delRow code).2.kv.AtKeys hkey Lasting := by
  simp only [delRow]
  cases s.layout with
  | hash => exact lasting
  | key => exact lasting.del _

theorem lasting_delHits (lasting : s.kv.AtKeys hkey Lasting) (code : String) :
    (s.delHits code).kv.AtKeys hkey Lasting := by
  simp only [delHits]
  cases s.layout with
  | hash => exact lasting
  | key => exact lasting.del _

/-- An increment keeps the deadline, and there was none. -/
theorem lasting_addHits (lasting : s.kv.AtKeys hkey Lasting) (code : String) (d : Int64) :
    (s.addHits code d).kv.AtKeys hkey Lasting := by
  simp only [addHits]
  cases s.layout with
  | hash => exact lasting
  | key =>
      refine lasting.setString fun c _ => ?_
      show (s.kv.strings.lookup (hkey code)).bind Stored.deadline = none
      cases found : s.kv.strings.lookup (hkey code) with
      | none => rfl
      | some st => exact lasting code st found

end Lasting

namespace Tallies

variable {c : String} {n : Int64} {s s' : KvStore} {env : KvEnv}

/-- No counter changed, here or in the server. -/
theorem of_counters (tallies : Tallies c n s) (lasting : s'.kv.AtKeys hkey Lasting)
    (counters : ∀ c, s'.counter c = s.counter c) (dirty : s'.dirty = s.dirty) :
    Tallies c n s' where
  numbered := ⟨lasting, fun c v found => tallies.numbered.numeric c v (counters c ▸ found)⟩
  hits := by
    rw [hitsOf, counters, dirty]
    exact tallies.hits

theorem atStep (tallies : Tallies c n s) (env : KvEnv) (t : Nat) : Tallies c n (s.atStep env t) :=
  tallies.of_counters (tallies.numbered.lasting.evict _ _)
    (counter_atStep tallies.numbered.lasting env t) rfl

theorem setRow (tallies : Tallies c n s) {code : String} (plain : Plain code) (now : Int64)
    (value : Bytes) (px : Int64) : Tallies c n (s.setRow now code value px) :=
  tallies.of_counters (lasting_setRow tallies.numbered.lasting now code value px)
    (counter_setRow s now plain value px) rfl

theorem setNx (tallies : Tallies c n s) {code : String} (plain : Plain code) (now : Int64)
    (value : Bytes) (ttl : Int64) : Tallies c n (s.setNx now code value ttl).2 := by
  cases fate : (s.setNx now code value ttl).1 with
  | true =>
      rw [setNx_free fate]
      exact tallies.setRow plain now value ttl
  | false =>
      rw [setNx_taken fate]
      exact tallies

theorem keptByCreates (c : String) (n : Int64) (env : KvEnv) (ttl : Int64) :
    KeptByCreates env ttl (Tallies c n) where
  evicted _ t tallies := tallies.atStep env t
  created _ _ _ _ _ plain _ tallies := tallies.setNx plain _ _ _

theorem delRow (tallies : Tallies c n s) {code : String} (plain : Plain code) :
    Tallies c n (s.delRow code).2 :=
  tallies.of_counters (lasting_delRow tallies.numbered.lasting code) (counter_delRow s plain) rfl

/-- Deleting the hits in the server leaves those that were not sent. -/
theorem delHits (tallies : Tallies c n s) (code : String) :
    Tallies c (if c = code then (s.dirty.lookup c).getD 0 else n) (s.delHits code) where
  numbered := by
    refine ⟨lasting_delHits tallies.numbered.lasting code, fun c' v found => ?_⟩
    rw [counter_delHits] at found
    split at found
    · cases found
    · exact tallies.numbered.numeric c' v found
  hits := by
    rw [hitsOf, counter_delHits]
    split
    · exact Int64.zero_add _
    · exact tallies.hits

theorem addHits (tallies : Tallies c n s) (code : String) (d : Int64) :
    Tallies c ((if code = c then d else 0) + n) (s.addHits code d) where
  numbered := by
    refine ⟨lasting_addHits tallies.numbered.lasting code d, fun c' v found => ?_⟩
    rw [counter_addHits] at found
    split at found
    · cases found
      exact counted_numeric (tallies.numbered.numeric c') d
    · exact tallies.numbered.numeric c' v found
  hits := by
    have dirty : (s.addHits code d).dirty = s.dirty := rfl
    rw [hitsOf, counter_addHits, dirty, ← tallies.hits, hitsOf]
    by_cases same : c = code
    · rw [if_pos same, if_pos same.symm, hitCount_counted (tallies.numbered.numeric c)]
      grind
    · rw [if_neg same, if_neg (Ne.symm same), Int64.zero_add]

theorem foldl_addHits (tallies : Tallies c n s) (deltas : List (String × Int64)) :
    Tallies c (deltaSum c deltas + n) (deltas.foldl (fun s cn => s.addHits cn.1 cn.2) s) := by
  induction deltas generalizing s n with
  | nil =>
      rw [deltaSum_nil, Int64.zero_add]
      exact tallies
  | cons cn deltas ih =>
      have rest := ih (tallies.addHits cn.1 cn.2)
      rw [deltaSum_cons]
      have sums : deltaSum c deltas + ((if cn.1 = c then cn.2 else 0) + n) =
          (if cn.1 = c then cn.2 else 0) + deltaSum c deltas + n := by
        grind
      rw [← sums]
      exact rest

/-! ## Calls -/

/-- A flush moves the hits. -/
theorem flushHits (tallies : Tallies c n s) (env : KvEnv) : Tallies c n (s.flushHits env) := by
  have read := tallies.atStep env 0
  have drained : Tallies c (hitCount ((s.atStep env 0).counter c)) { s.atStep env 0 with dirty := ∅ } := by
    refine ⟨⟨read.numbered.lasting, read.numbered.numeric⟩, ?_⟩
    exact Int64.add_zero _
  have sent := drained.foldl_addHits (env.dirtyOrder.iter s.dirty)
  have total : deltaSum c (env.dirtyOrder.iter s.dirty) + hitCount ((s.atStep env 0).counter c) = n := by
    rw [deltaSum_iter, ← read.hits, hitsOf]
    exact Int64.add_comm _ _
  rw [total] at sent
  exact sent

/-- Nothing is counted. -/
theorem silent (tallies : Tallies c n s) : Tallies c (n + Int64.ofNat false.toNat) s := by
  have zero : Int64.ofNat false.toNat = 0 := rfl
  rwa [zero, Int64.add_zero]

theorem bump (tallies : Tallies c n s) (env : KvEnv) (code : String) :
    Tallies c (n + Int64.ofNat (code = c && env.trackHits).toNat) (s.bump env code) := by
  rw [KvStore.bump]
  cases env.trackHits with
  | false =>
      rw [Bool.and_false]
      exact tallies.silent
  | true =>
      refine ⟨⟨tallies.numbered.lasting, tallies.numbered.numeric⟩, ?_⟩
      have counter : ∀ dirty, KvStore.counter { s with dirty := dirty } c = s.counter c := fun _ => rfl
      rw [if_pos rfl, hitsOf, counter, Map.lookup_insert_eq, ← tallies.hits, hitsOf, Bool.and_true]
      by_cases same : code = c
      · subst same
        rw [if_pos rfl, Option.getD_some, decide_eq_true rfl, Int64.add_assoc]
        rfl
      · rw [if_neg (Ne.symm same), decide_eq_false same]
        exact (Int64.add_zero _).symm

/-- Only the cache changed. -/
theorem of_cache (tallies : Tallies c n s) (cache : Lru) : Tallies c n { s with cache := cache } :=
  tallies.of_counters tallies.numbered.lasting (fun _ => rfl) rfl

/-- A resolve that answers is counted. -/
theorem resolve (tallies : Tallies c n s) (env : KvEnv) (code : String) :
    Tallies c
      (n + Int64.ofNat (code = c && env.trackHits && (s.resolve env code).1.isSome).toNat)
      (s.resolve env code).2 := by
  have looked := tallies.of_cache (s.cached env code).2
  rw [KvStore.resolve]
  cases (s.cached env code).1 with
  | some hit =>
      rw [Option.isSome_some, Bool.and_true]
      exact looked.bump env code
  | none =>
      simp only
      cases readRow { s with cache := (s.cached env code).2 } env 2 3 code with
      | none =>
          rw [Option.isSome_none, Bool.and_false]
          exact (looked.atStep env 2).silent
      | some row =>
          rw [Option.isSome_some, Bool.and_true]
          exact ((looked.atStep env 2).of_cache _).bump env code

theorem update (tallies : Tallies c n s) {code : String} (plain : Plain code) (env : KvEnv)
    (url : String) (ttl : Int64) (hasTtl : Bool) :
    Tallies c n (s.update env code url ttl hasTtl).2 := by
  have read := tallies.atStep env 0
  rw [KvStore.update]
  cases ((s.atStep env 0).kvGet code).bind decVal with
  | none => exact read
  | some row => exact ((read.atStep env 3).setRow plain _ _ _).of_cache _

/-- A remove that finds the code leaves the hits that were not sent. -/
theorem remove (tallies : Tallies c n s) {code : String} (plain : Plain code) (env : KvEnv) :
    Tallies c (if c = code ∧ (s.remove env code).1 = .ok then (s.dirty.lookup c).getD 0 else n)
      (s.remove env code).2 := by
  have deleted := (tallies.atStep env 0).delRow plain
  rw [KvStore.remove]
  split
  · have cleared := (deleted.atStep env 1).delHits code
    simp only [and_true]
    exact cleared.of_cache _
  · simp only [reduceCtorEq, and_false, if_false]
    exact deleted

/-- The sweep deletes no field of hits. -/
theorem sweepExpired (tallies : Tallies c n s) (env : KvEnv) :
    Tallies c n (s.sweepExpired env) := by
  have read := tallies.atStep env 0
  refine read.of_counters (read.numbered.lasting.of_strings fun k st found => ?_) (fun c => ?_) rfl
  · rw [KvStore.sweepExpired, strings_sweep] at found
    exact found
  · cases layout : s.layout with
    | hash =>
        simp only [counter, KvStore.sweepExpired, KvStore.atStep, layout]
        exact hget_sweep_hits _ _ _ _ (hits_prefix_hfield c)
    | key =>
        simp only [counter, KvStore.sweepExpired, KvStore.atStep, layout, Redis.get, strings_sweep]

end Tallies

/-! ## Histories -/

/-- A resolve of the code that is answered and counted. -/
def serves (c : String) (s : KvStore) (call : KvEnv × KvCall) : Bool :=
  match call.2 with
  | .resolve code => code = c && call.1.trackHits && (s.resolve call.1 code).1.isSome
  | _ => false

namespace Tallies

variable {c : String} {n : Int64} {s : KvStore} {call : KvEnv × KvCall}

/-- Only resolves that are answered change the hits of a code, as long as it is
not removed. -/
theorem step (tallies : Tallies c n s) (checked : call.2.Checked) (kept : call.2 ≠ .remove c) :
    Tallies c (n + Int64.ofNat (s.serves c call).toNat) (s.step call) := by
  obtain ⟨env, call⟩ := call
  cases call with
  | shorten url aliasCode ttl =>
      exact ((keptByCreates c n env ttl).step_shorten url aliasCode tallies).silent
  | shortenMany urls ttl => exact ((keptByCreates c n env ttl).step_shortenMany urls tallies).silent
  | update code url ttl hasTtl => exact (tallies.update (.of_codeOk checked) env url ttl hasTtl).silent
  | remove code =>
      have other : c ≠ code := fun same => kept (same ▸ rfl)
      have removed := tallies.remove (.of_codeOk checked) env
      rw [if_neg fun same => other same.1] at removed
      exact removed.silent
  | resolve code => exact tallies.resolve env code
  | flushHits => exact (tallies.flushHits env).silent
  | sweepExpired => exact (tallies.sweepExpired env).silent

/-- What a history adds to the hits of a code that it does not remove. -/
theorem run (tallies : Tallies c n s) {history : List (KvEnv × KvCall)}
    (fine : ∀ call ∈ history, call.2.Checked ∧ call.2 ≠ .remove c) :
    Tallies c (n + Int64.ofNat (Runs.count KvStore.step (serves c) s history)) (s.run history) := by
  have along : Runs.Along KvStore.step (fun _ call => call.2.Checked ∧ call.2 ≠ .remove c) s history :=
    .of_forall (fun call member _ => fine call member) s
  have keep : ∀ k (s : KvStore) (call : KvEnv × KvCall), Tallies c (n + Int64.ofNat k) s →
      call.2.Checked ∧ call.2 ≠ .remove c →
      Tallies c (n + Int64.ofNat (k + (s.serves c call).toNat)) (s.step call) := by
    intro k s call tallies fine
    rw [Int64.ofNat_add, ← Int64.add_assoc]
    exact tallies.step fine.1 fine.2
  have counted := along.counts keep tallies.silent
  rw [Bool.toNat_false, Nat.zero_add] at counted
  exact counted

end Tallies

theorem Numbered.tallies {s : KvStore} (numbered : s.Numbered) (c : String) :
    Tallies c (s.hitsOf c) s :=
  ⟨numbered, rfl⟩

theorem Numbered.step {s : KvStore} {call : KvEnv × KvCall} (numbered : s.Numbered)
    (checked : call.2.Checked) : (s.step call).Numbered := by
  obtain ⟨env, call⟩ := call
  cases call with
  | remove code => exact ((numbered.tallies code).remove (.of_codeOk checked) env).numbered
  | _ => exact ((numbered.tallies "").step checked (by simp)).numbered

theorem Numbered.run {s : KvStore} (numbered : s.Numbered) {history : List (KvEnv × KvCall)}
    (checked : ∀ call ∈ history, call.2.Checked) : (s.run history).Numbered := by
  induction history generalizing s with
  | nil => exact numbered
  | cons call history ih =>
      exact ih (numbered.step (checked call List.mem_cons_self))
        fun later member => checked later (List.mem_cons_of_mem _ member)

/-- The hits that `stats` reports after an alias was created: those that were
left of an earlier link, and the resolves that were answered since. -/
theorem stats_since_shorten {s s' : KvStore} (numbered : s.Numbered) {env : KvEnv} {url a : String}
    {ttl : Int64} (valid : codeOk a = true) (made : s.shorten env url (some a) ttl = some (some a, s'))
    {after : List (KvEnv × KvCall)} (fine : ∀ call ∈ after, call.2.Checked ∧ call.2 ≠ .remove a)
    {later : KvEnv} {link : Link} (shown : (stats later (s'.run after) a).1 = some link) :
    link.hits = s.hitsOf a + Int64.ofNat (Runs.count step (serves a) s' after) := by
  have created : Tallies a (s.hitsOf a) s' :=
    (Tallies.keptByCreates a (s.hitsOf a) env ttl).shorten
      (fun a' given => by cases given; exact .of_codeOk valid) (numbered.tallies a) made
  have final := ((created.run fine).atStep later 0).atStep later 1
  obtain ⟨row, -, rfl⟩ := Option.map_eq_some_iff.mp shown
  exact final.hits

end KvStore

end Shrt.Kv
