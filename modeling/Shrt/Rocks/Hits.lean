import Mathlib.Data.List.Basic
import Shrt.Rocks.Store

/-!
# Hits of the embedded database

As in the key-value store the hits of a code are those in the database and
those that were not sent yet; neither a create nor the end of a row changes
them.  So a new link starts at zero exactly if no hits are left of an earlier
one under the same code.
-/

namespace Shrt.Rocks

open Shrt.Codec Shrt.Lib Shrt.Lib.LittleEndian Shrt.Lib.Utf8 Shrt.Kv
open Shrt.Store (Link MutResult)

namespace RocksStore

theorem counterValue_hitsMerge (v : Option Bytes) (d : Int64) :
    counterValue (some (hitsMerge v [toLeBytes d.toUInt64])) = counterValue v + d.toUInt64 := by
  simp [counterValue, hitsMerge, fromLeBytes?_toLeBytes]

/-- A merge adds to the counter of its code. -/
theorem counterValue_merge (hits : Map Bytes Bytes) (code c : String) (d : Int64) :
    (counterValue ((merge hits code d).lookup (encode c))).toInt64 =
      (if code = c then d else 0) + (counterValue (hits.lookup (encode c))).toInt64 := by
  rw [merge, Map.lookup_insert_eq]
  by_cases same : code = c
  · subst same
    rw [if_pos rfl, if_pos rfl, counterValue_hitsMerge, UInt64.toInt64_add, Int64.toInt64_toUInt64]
    exact Int64.add_comm _ _
  · rw [if_neg fun keys => same (encode_injective keys).symm, if_neg same, Int64.zero_add]

theorem counterValue_merges (deltas : List (String × Int64)) (hits : Map Bytes Bytes) (c : String) :
    (counterValue ((deltas.foldl (fun hits cn => merge hits cn.1 cn.2) hits).lookup
        (encode c))).toInt64 =
      deltaSum c deltas + (counterValue (hits.lookup (encode c))).toInt64 := by
  induction deltas generalizing hits with
  | nil => exact (Int64.zero_add _).symm
  | cons cn deltas ih =>
      rw [List.foldl_cons, ih, counterValue_merge, deltaSum_cons]
      grind

/-! ## Calls -/

/-- A flush moves the hits. -/
theorem hitsOf_flushHits (order : IterOrder String Int64) (s : RocksStore) (c : String) :
    (s.flushHits order).hitsOf c = s.hitsOf c := by
  rw [hitsOf, flushHits, counterValue_merges, deltaSum_iter, hitsOf]
  exact (Int64.add_zero _).trans (Int64.add_comm _ _)

/-- Only rows or entries of the cache changed. -/
structure SameHits (s s' : RocksStore) : Prop where
  hits : s'.hits = s.hits
  dirty : s'.dirty = s.dirty

namespace SameHits

variable {s s' s'' : RocksStore}

theorem refl (s : RocksStore) : SameHits s s := ⟨rfl, rfl⟩

theorem trans (first : SameHits s s') (second : SameHits s' s'') : SameHits s s'' :=
  ⟨second.hits.trans first.hits, second.dirty.trans first.dirty⟩

theorem hitsOf (same : SameHits s s') (c : String) : s'.hitsOf c = s.hitsOf c := by
  rw [RocksStore.hitsOf, RocksStore.hitsOf, same.hits, same.dirty]

theorem row (now : Int64) (s : RocksStore) (code : String) :
    SameHits s (RocksStore.row now s code).2 := by
  rw [RocksStore.row]
  split
  · exact .refl s
  · split
    · exact ⟨rfl, rfl⟩
    · exact .refl s

theorem putNx (s : RocksStore) (code : String) (value : Bytes) : SameHits s (s.putNx code value).2 := by
  rw [RocksStore.putNx]
  split
  · exact .refl s
  · exact ⟨rfl, rfl⟩

theorem freshCode {inst : Inst} {value : Bytes} {rng : List Suffix} {code : String}
    (done : RocksStore.freshCode inst value s rng = some (code, s')) : SameHits s s' := by
  induction rng generalizing s with
  | nil => cases done
  | cons buf rng ih =>
      have tried := putNx s (genCode inst buf) value
      rw [RocksStore.freshCode] at done
      split at done
      · cases done
        exact tried
      · exact tried.trans (ih done)

theorem shorten {inst : Inst} {env : RocksEnv} {rng : List Suffix} {url : String}
    {aliasCode made : Option String} {ttl : Int64}
    (done : s.shorten inst env rng url aliasCode ttl = some (made, s')) : SameHits s s' := by
  cases aliasCode with
  | some a =>
      simp only [RocksStore.shorten, Option.some.injEq, Prod.mk.injEq] at done
      rw [← done.2]
      exact putNx s a _
  | none =>
      simp only [RocksStore.shorten, Option.map_eq_some_iff] at done
      obtain ⟨⟨code, s''⟩, found, same⟩ := done
      cases same
      exact freshCode found

theorem update (env : RocksEnv) (s : RocksStore) (code url : String) (ttl : Int64) (hasTtl : Bool) :
    SameHits s (s.update env code url ttl hasTtl).2 := by
  have read := row (env.clock 0) s code
  rw [RocksStore.update]
  split
  · rename_i s' found
    rw [found] at read
    exact read
  · rename_i row s' found
    rw [found] at read
    exact ⟨read.hits, read.dirty⟩

theorem stats (env : RocksEnv) (s : RocksStore) (code : String) :
    SameHits s (RocksStore.stats env s code).2 := by
  have read := row (env.clock 0) s code
  rw [RocksStore.stats]
  split
  · rename_i s' found
    rw [found] at read
    exact read
  · rename_i row s' found
    rw [found] at read
    exact read

end SameHits

theorem hitsOf_bump (s : RocksStore) (code c : String) :
    (s.bump code).hitsOf c = s.hitsOf c + Int64.ofNat (decide (code = c)).toNat := by
  rw [hitsOf, bump, Map.lookup_insert_eq, hitsOf]
  by_cases same : code = c
  · subst same
    rw [if_pos rfl, Option.getD_some, decide_eq_true rfl, Int64.add_assoc]
    rfl
  · rw [if_neg (Ne.symm same), decide_eq_false same]
    exact (Int64.add_zero _).symm

/-- A resolve that answers is counted. -/
theorem hitsOf_resolve (env : RocksEnv) (s : RocksStore) (code c : String) :
    (s.resolve env code).2.hitsOf c =
      s.hitsOf c + Int64.ofNat (code = c && (s.resolve env code).1.isSome).toNat := by
  rw [resolve]
  cases (s.cached env code).1 with
  | some hit =>
      rw [Option.isSome_some, Bool.and_true]
      exact hitsOf_bump _ code c
  | none =>
      have read := SameHits.row (env.clock 2) { s with cache := (s.cached env code).2 } code
      simp only
      split
      · rename_i s' found
        rw [found] at read
        rw [Option.isSome_none, Bool.and_false]
        exact (read.hitsOf c).trans (Int64.add_zero _).symm
      · rename_i row s' found
        rw [found] at read
        rw [Option.isSome_some, Bool.and_true, hitsOf_bump]
        exact congrArg (· + _) (read.hitsOf c)

/-- A remove of another code leaves the hits. -/
theorem hitsOf_remove_other (env : RocksEnv) (s : RocksStore) {code c : String} (other : c ≠ code) :
    (s.remove env code).2.hitsOf c = s.hitsOf c := by
  have read := SameHits.row (env.clock 0) s code
  rw [remove]
  split
  · rename_i s' found
    rw [found] at read
    exact read.hitsOf c
  · rename_i row s' found
    rw [found] at read
    rw [← read.hitsOf c, hitsOf, delete, Map.lookup_erase_eq,
      if_neg fun keys => other (encode_injective keys)]
    rfl

/-- A resolve of the code that is answered. -/
def serves (c : String) (s : RocksStore) (call : RocksEnv × RocksCall) : Bool :=
  match call.2 with
  | .resolve code => code = c && (s.resolve call.1 code).1.isSome
  | _ => false

/-- Only resolves that are answered change the hits of a code, as long as it is
not removed. -/
theorem hitsOf_step (inst : Inst) (s : RocksStore) {call : RocksEnv × RocksCall} {c : String}
    (kept : call.2 ≠ .remove c) :
    (s.step inst call).hitsOf c = s.hitsOf c + Int64.ofNat (s.serves c call).toNat := by
  obtain ⟨env, call⟩ := call
  have silent : ∀ {s' : RocksStore}, SameHits s s' →
      s'.hitsOf c = s.hitsOf c + Int64.ofNat false.toNat := fun same =>
    (same.hitsOf c).trans (Int64.add_zero _).symm
  cases call with
  | shorten rng url aliasCode ttl =>
      simp only [step]
      cases done : s.shorten inst env rng url (aliasCode.map Subtype.val) ttl with
      | none => exact silent (.refl s)
      | some result => exact silent (.shorten done)
  | shortenMany rng urls ttl =>
      simp only [step, shortenMany]
      split
      · exact silent (.refl s)
      · exact silent ⟨rfl, rfl⟩
  | update code url ttl hasTtl => exact silent (.update env s code url ttl hasTtl)
  | remove code =>
      have other : c ≠ code := fun same => kept (same ▸ rfl)
      exact (hitsOf_remove_other env s other).trans (Int64.add_zero _).symm
  | resolve code => exact hitsOf_resolve env s code c
  | flushHits order => exact (hitsOf_flushHits order s c).trans (Int64.add_zero _).symm
  | stats code => exact silent (.stats env s code)

/-- What a history adds to the hits of a code that it does not remove. -/
theorem hitsOf_run (inst : Inst) (s : RocksStore) {history : List (RocksEnv × RocksCall)}
    {c : String} (kept : ∀ call ∈ history, call.2 ≠ .remove c) :
    (s.run inst history).hitsOf c =
      s.hitsOf c + Int64.ofNat (Runs.count (step inst) (serves c) s history) := by
  have along : Runs.Along (step inst) (fun _ call => call.2 ≠ .remove c) s history :=
    .of_forall (fun call member _ => kept call member) s
  have keep : ∀ k (s' : RocksStore) (call : RocksEnv × RocksCall),
      s'.hitsOf c = s.hitsOf c + Int64.ofNat k → call.2 ≠ .remove c →
      (s'.step inst call).hitsOf c = s.hitsOf c + Int64.ofNat (k + (s'.serves c call).toNat) := by
    intro k s' call before kept
    rw [hitsOf_step inst s' kept, before, Int64.ofNat_add, Int64.add_assoc]
  have counted := along.counts keep (n := 0) (Int64.add_zero _).symm
  rw [Nat.zero_add] at counted
  exact counted

/-- The hits that `stats` reports after an alias was created: those that were
left of an earlier link, and the resolves that were answered since. -/
theorem stats_since_shorten (inst : Inst) {s s' : RocksStore} {env : RocksEnv} {rng : List Suffix}
    {url a : String} {ttl : Int64} (made : s.shorten inst env rng url (some a) ttl = some (some a, s'))
    {after : List (RocksEnv × RocksCall)} (kept : ∀ call ∈ after, call.2 ≠ .remove a)
    {later : RocksEnv} {link : Link} (shown : (stats later (s'.run inst after) a).1 = some link) :
    link.hits = s.hitsOf a + Int64.ofNat (Runs.count (step inst) (serves a) s' after) := by
  have created := (SameHits.shorten made).hitsOf a
  have final := hitsOf_run inst s' kept
  have read := SameHits.row (later.clock 0) (s'.run inst after) a
  rw [stats] at shown
  split at shown
  · cases shown
  · rename_i row s'' found
    rw [found] at read
    cases shown
    rw [← created, ← final]
    exact read.hitsOf a

end RocksStore

/-! ## New links -/

theorem eq_right_iff_zero {n k : Int64} : n + k = k ↔ n = 0 := by
  constructor
  · intro same
    grind
  · rintro rfl
    exact Int64.zero_add k

/-- In either store, after any history and for every alias that is created:
while it is not removed, `stats` reports just the resolves that were answered
since if and only if no hits were left under the code. -/
theorem new_link_counts_from_zero (inst : Inst) (cacheEntries : Nat) (cacheTtlMs : Int64)
    (url : String) (a : { a : String // codeOk a = true }) (ttl : Int64) (link : Link) :
    (∀ (layout : Layout) (buckets : Buckets) (before after : List (KvEnv × KvCall))
      (env later : KvEnv),
      let s := (KvStore.fresh inst layout buckets cacheEntries cacheTtlMs).run before
      let s' := s.step (env, .shorten url (some a) ttl)
      (∀ call ∈ before, call.2.Checked) →
      (s.shorten env url (some a.val) ttl).map Prod.fst = some (some a.val) →
      (∀ call ∈ after, call.2.Checked ∧ call.2 ≠ .remove a.val) →
      (KvStore.stats later (s'.run after) a.val).1 = some link →
      (link.hits = Int64.ofNat (Runs.count KvStore.step (KvStore.serves a.val) s' after) ↔
        s.hitsOf a.val = 0)) ∧
    (∀ (before after : List (RocksEnv × RocksCall)) (env later : RocksEnv) (rng : List Suffix),
      let s := (RocksStore.fresh cacheEntries cacheTtlMs).run inst before
      let s' := s.step inst (env, .shorten rng url (some a) ttl)
      (s.shorten inst env rng url (some a.val) ttl).map Prod.fst = some (some a.val) →
      (∀ call ∈ after, call.2 ≠ .remove a.val) →
      (RocksStore.stats later (s'.run inst after) a.val).1 = some link →
      (link.hits = Int64.ofNat (Runs.count (RocksStore.step inst) (RocksStore.serves a.val) s' after) ↔
        s.hitsOf a.val = 0)) := by
  constructor
  · intro layout buckets before after env later s s' checked made fine shown
    obtain ⟨⟨result, s''⟩, done, same⟩ := Option.map_eq_some_iff.mp made
    cases same
    have next : s' = s'' := by
      show ((s.shorten env url (some a.val) ttl).map Prod.snd).getD s = s''
      rw [done]
      rfl
    rw [KvStore.stats_since_shorten ((KvStore.numbered_fresh _ _ _ _ _).run checked) a.property
      (next ▸ done) fine shown]
    exact eq_right_iff_zero
  · intro before after env later rng s s' made kept shown
    obtain ⟨⟨result, s''⟩, done, same⟩ := Option.map_eq_some_iff.mp made
    cases same
    have next : s' = s'' := by
      show ((s.shorten inst env rng url (some a.val) ttl).map Prod.snd).getD s = s''
      rw [done]
      rfl
    rw [RocksStore.stats_since_shorten inst (next ▸ done) kept shown]
    exact eq_right_iff_zero

/-- An alias is created, resolved and removed, with or without a flush before the
remove. -/
def removedKv (flushed : Bool) : List (KvEnv × KvCall) :=
  [(.at 1000 [], .shorten "https://a.example" (some promo) 0),
   (.at 1001 [], .resolve "promo")] ++
    (if flushed then [(.at 1002 [], .flushHits)] else []) ++ [(.at 1003 [], .remove "promo")]

def removedRocks (flushed : Bool) : List (RocksEnv × RocksCall) :=
  [(⟨fun _ => 1000⟩, .shorten [] "https://a.example" (some promo) 0),
   (⟨fun _ => 1001⟩, .resolve "promo")] ++
    (if flushed then [(⟨fun _ => 1002⟩, .flushHits (.stored _ _))] else []) ++
    [(⟨fun _ => 1003⟩, .remove "promo")]

/-- With the flush nothing is left, and the new link reports its own hit. -/
theorem new_link_counts_from_zero_flushed :
    (let s := (KvStore.fresh 0 .hash ⟨8, by decide⟩ 100 0).run (removedKv true)
     let s' := s.step (.at 1004 [], .shorten "https://b.example" (some ⟨"promo", by decide⟩) 0)
     let after : List (KvEnv × KvCall) := [(.at 1005 [], .resolve "promo")]
     (KvStore.stats (.at 1006 []) (s'.run after) "promo").1 =
        some ⟨"promo", "https://b.example", 1, 1004, none⟩ ∧
      (1 = Int64.ofNat (Runs.count KvStore.step (KvStore.serves "promo") s' after) ↔
        s.hitsOf "promo" = 0)) ∧
    (let s := (RocksStore.fresh 100 0).run 0 (removedRocks true)
     let s' := s.step 0
       (⟨fun _ => 1004⟩, .shorten [] "https://b.example" (some ⟨"promo", by decide⟩) 0)
     let after : List (RocksEnv × RocksCall) := [(⟨fun _ => 1005⟩, .resolve "promo")]
     (RocksStore.stats ⟨fun _ => 1006⟩ (s'.run 0 after) "promo").1 =
        some ⟨"promo", "https://b.example", 1, 1004, none⟩ ∧
      (1 = Int64.ofNat (Runs.count (RocksStore.step 0) (RocksStore.serves "promo") s' after) ↔
        s.hitsOf "promo" = 0)) := by
  constructor
  · refine ⟨by decide +kernel, ?_⟩
    refine (new_link_counts_from_zero 0 100 0 "https://b.example" ⟨"promo", by decide⟩ 0
      ⟨"promo", "https://b.example", 1, 1004, none⟩).1 .hash ⟨8, by decide⟩ (removedKv true)
      [(.at 1005 [], .resolve "promo")] (.at 1004 []) (.at 1006 []) ?_ (by decide +kernel) ?_
      (by decide +kernel)
    · simp [removedKv, KvCall.Checked]
      decide
    · simp [KvCall.Checked]
      decide
  · refine ⟨by decide +kernel, ?_⟩
    exact (new_link_counts_from_zero 0 100 0 "https://b.example" ⟨"promo", by decide⟩ 0
      ⟨"promo", "https://b.example", 1, 1004, none⟩).2 (removedRocks true)
      [(⟨fun _ => 1005⟩, .resolve "promo")] ⟨fun _ => 1004⟩ ⟨fun _ => 1006⟩ [] (by decide +kernel)
      (by simp) (by decide +kernel)

/-- Without it, the new link starts with the hit of the old one. -/
theorem old_hits_after_recreate :
    (∀ layout,
      let s := (KvStore.fresh 0 layout ⟨8, by decide⟩ 100 0).run (removedKv false)
      (s.shorten (.at 1004 []) "https://b.example" (some "promo") 0).map (fun done =>
        (done.1, (KvStore.stats (.at 1005 []) done.2 "promo").1.map Link.hits)) =
          some (some "promo", some 1)) ∧
    (let s := (RocksStore.fresh 100 0).run 0 (removedRocks false)
     (s.shorten 0 ⟨fun _ => 1004⟩ [] "https://b.example" (some "promo") 0).map (fun done =>
        (done.1, (RocksStore.stats ⟨fun _ => 1005⟩ done.2 "promo").1.map Link.hits)) =
          some (some "promo", some 1)) := by
  refine ⟨fun layout => ?_, by decide +kernel⟩
  cases layout with
  | key => decide +kernel
  | hash => decide +kernel

end Shrt.Rocks
