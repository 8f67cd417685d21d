import Mathlib.Data.List.Basic
import Shrt.Kv.Store

/-!
# One store in two layouts

A code has a place for its row and a place for its counter, and in either
layout these places are its own.  What a command does to the row and to the
counter of every code is then said once, without the layout.
-/

namespace Shrt.Kv

open Shrt.Codec Shrt.Lib Shrt.Lib.Utf8
open Shrt.Store.Inner (expiry)

/-! ## Places -/

theorem lkey_injective : Function.Injective lkey := by
  intro c c' same
  exact encode_injective (List.append_cancel_left same)

theorem hkey_injective : Function.Injective hkey := by
  intro c c' same
  exact encode_injective (List.append_cancel_left same)

theorem hfield_injective : Function.Injective hfield :=
  hkey_injective

/-- The key of a counter is not one of a row. -/
theorem not_link_hkey (code : String) : ¬ encode "l:" <+: hkey code := by
  rintro ⟨rest, same⟩
  rw [hkey, show encode "l:" = [108, 58] by decide, show encode "h:" = [104, 58] by decide] at same
  cases same

theorem lkey_ne_hkey (c code : String) : lkey c ≠ hkey code := by
  intro same
  exact not_link_hkey code (same ▸ List.prefix_append _ _)

theorem hits_prefix_hfield (code : String) : encode "h:" <+: hfield code :=
  List.prefix_append _ _

/-- A code is no field of hits. -/
theorem not_hits_of_plain {code : String} (plain : Plain code) : ¬ encode "h:" <+: encode code := by
  intro hits
  exact plain.not_mem (b := 58) (by decide) (hits.subset (by decide))

theorem encode_ne_hfield {c : String} (plain : Plain c) (code : String) :
    encode c ≠ hfield code := by
  intro same
  exact not_hits_of_plain plain (same ▸ hits_prefix_hfield code)

/-! ## Strings by key -/

/-- Every string under one of these keys satisfies the predicate. -/
def Redis.AtKeys (key : String → Bytes) (P : Stored → Prop) (r : Redis) : Prop :=
  ∀ c st, r.strings.lookup (key c) = some st → P st

namespace Redis.AtKeys

variable {key : String → Bytes} {P : Stored → Prop} {r r' : Redis}

theorem empty : Redis.empty.AtKeys key P :=
  fun _ _ found => nomatch found

/-- No string was added or changed. -/
theorem of_strings (holds : r.AtKeys key P)
    (strings : ∀ k st, r'.strings.lookup k = some st → r.strings.lookup k = some st) :
    r'.AtKeys key P :=
  fun c st found => holds c st (strings _ _ found)

theorem evict (holds : r.AtKeys key P) (now : Int64) (chosen : Bytes → Bool) :
    (r.evict now chosen).AtKeys key P := by
  refine holds.of_strings fun k st found => ?_
  rcases Redis.lookup_evict r now chosen k with same | ⟨gone, -⟩
  · rwa [← same]
  · rw [gone] at found
    cases found

theorem del (holds : r.AtKeys key P) (k : Bytes) : (r.del k).2.AtKeys key P := by
  refine holds.of_strings fun k' st found => ?_
  rw [Redis.del, Map.lookup_erase_eq] at found
  split at found
  · cases found
  · exact found

theorem setString (holds : r.AtKeys key P) {k : Bytes} {st : Stored}
    (meets : ∀ c, key c = k → P st) : (r.setString k st).AtKeys key P := by
  intro c st' found
  rw [Redis.setString, Map.lookup_insert_eq] at found
  split at found
  · rename_i same
    cases found
    exact meets c same
  · exact holds c st' found

theorem set (holds : r.AtKeys key P) {now : Int64} {k v : Bytes} {px : Int64} {nx : Bool}
    (meets : ∀ c, key c = k → P ⟨v, if px > 0 then some (now.toInt + px.toInt) else none⟩) :
    (r.set now k v px nx).2.AtKeys key P := by
  rw [Redis.set]
  split
  · exact holds
  · exact holds.setString meets

end Redis.AtKeys

/-! ## Rows and counters -/

namespace KvStore

def counter (s : KvStore) (code : String) : Option Bytes :=
  match s.layout with
  | .hash => s.kv.hget (bkey code s.buckets) (hfield code)
  | .key => s.kv.get (hkey code)

/-- The place of a code is its own. -/
theorem place_iff {c code : String} {b : Buckets} :
    (bkey c b = bkey code b ∧ encode c = encode code) ↔ c = code := by
  constructor
  · intro same
    exact encode_injective same.2
  · rintro rfl
    exact ⟨rfl, rfl⟩

theorem counterPlace_iff {c code : String} {b : Buckets} :
    (bkey c b = bkey code b ∧ hfield c = hfield code) ↔ c = code := by
  constructor
  · intro same
    exact hfield_injective same.2
  · rintro rfl
    exact ⟨rfl, rfl⟩

theorem fst_setNx (s : KvStore) (now : Int64) (code : String) (value : Bytes) (ttl : Int64) :
    (s.setNx now code value ttl).1 = (s.kvGet code).isNone := by
  cases layout : s.layout with
  | hash =>
      simp only [kvGet, setNx, layout, Redis.hsetnx, Redis.hget]
      split
      · rename_i present
        rw [← AList.lookup_isSome] at present
        simp [Option.isNone_eq_false_iff.mpr present]
      · rename_i absent
        rw [Map.not_mem_iff_lookup.mp absent]
        rfl
  | key =>
      simp only [kvGet, setNx, layout, Redis.set, Redis.get, Bool.true_and, decide_eq_true_eq,
        Option.isNone_map]
      split
      · rename_i present
        rw [← AList.lookup_isSome] at present
        simp [Option.isNone_eq_false_iff.mpr present]
      · rename_i absent
        rw [Map.not_mem_iff_lookup.mp absent]
        rfl

/-- A create that finds the code taken changes nothing. -/
theorem setNx_taken {s : KvStore} {now : Int64} {code : String} {value : Bytes} {ttl : Int64}
    (taken : (s.setNx now code value ttl).1 = false) : (s.setNx now code value ttl).2 = s := by
  obtain ⟨kv, cache, dirty, inst, layout, buckets⟩ := s
  cases layout with
  | hash =>
      simp only [setNx, Redis.hsetnx] at taken ⊢
      split at taken
      · rename_i present
        rw [if_pos present]
      · cases taken
  | key =>
      simp only [setNx, Redis.set] at taken ⊢
      split at taken
      · rename_i present
        rw [if_pos present]
      · cases taken

/-- A create that finds the code free is an overwrite. -/
theorem setNx_free {s : KvStore} {now : Int64} {code : String} {value : Bytes} {ttl : Int64}
    (free : (s.setNx now code value ttl).1 = true) :
    (s.setNx now code value ttl).2 = s.setRow now code value ttl := by
  obtain ⟨kv, cache, dirty, inst, layout, buckets⟩ := s
  cases layout with
  | hash =>
      simp only [setNx, setRow, Redis.hsetnx] at free ⊢
      split at free
      · cases free
      · rename_i absent
        rw [if_neg absent]
  | key =>
      simp only [setNx, setRow, Redis.set] at free ⊢
      split at free
      · cases free
      · rename_i absent
        rw [if_neg absent]
        rfl

theorem kvGet_setRow (s : KvStore) (now : Int64) (code : String) (value : Bytes) (px : Int64)
    (c : String) : (s.setRow now code value px).kvGet c = if c = code then some value else s.kvGet c := by
  cases layout : s.layout with
  | hash =>
      simp only [kvGet, setRow, layout, Redis.hget_hset, place_iff]
  | key =>
      simp only [kvGet, setRow, layout, Redis.set, Redis.get, Bool.false_and, Bool.false_eq_true,
        if_false, Redis.setString, Map.lookup_insert_eq, lkey_injective.eq_iff]
      split
      · rfl
      · rfl

theorem counter_setRow (s : KvStore) (now : Int64) {code : String} (plain : Plain code)
    (value : Bytes) (px : Int64) (c : String) :
    (s.setRow now code value px).counter c = s.counter c := by
  cases layout : s.layout with
  | hash =>
      simp only [counter, setRow, layout, Redis.hget_hset]
      rw [if_neg]
      exact fun same => encode_ne_hfield plain c same.2.symm
  | key =>
      simp only [counter, setRow, layout, Redis.set, Redis.get, Bool.false_and, Bool.false_eq_true,
        if_false, Redis.setString, Map.lookup_insert_eq]
      rw [if_neg (Ne.symm (lkey_ne_hkey code c))]

theorem fst_delRow (s : KvStore) (code : String) : (s.delRow code).1 = (s.kvGet code).isSome := by
  cases layout : s.layout with
  | hash =>
      simp only [kvGet, delRow, layout, Redis.hdel, Redis.hget, ← AList.lookup_isSome,
        Bool.decide_eq_true]
  | key =>
      simp only [kvGet, delRow, layout, Redis.del, Redis.get, ← AList.lookup_isSome,
        Bool.decide_eq_true, Option.isSome_map]

theorem kvGet_delRow (s : KvStore) (code c : String) :
    (s.delRow code).2.kvGet c = if c = code then none else s.kvGet c := by
  cases layout : s.layout with
  | hash =>
      simp only [kvGet, delRow, layout, Redis.hget_hdel, place_iff]
  | key =>
      simp only [kvGet, delRow, layout, Redis.del, Redis.get, Map.lookup_erase_eq,
        lkey_injective.eq_iff]
      split
      · rfl
      · rfl

theorem counter_delRow (s : KvStore) {code : String} (plain : Plain code) (c : String) :
    (s.delRow code).2.counter c = s.counter c := by
  cases layout : s.layout with
  | hash =>
      simp only [counter, delRow, layout, Redis.hget_hdel]
      rw [if_neg]
      exact fun same => encode_ne_hfield plain c same.2.symm
  | key =>
      simp only [counter, delRow, layout, Redis.del, Redis.get, Map.lookup_erase_eq]
      rw [if_neg (Ne.symm (lkey_ne_hkey code c))]

theorem kvGet_delHits (s : KvStore) (code : String) {c : String} (plain : Plain c) :
    (s.delHits code).kvGet c = s.kvGet c := by
  cases layout : s.layout with
  | hash =>
      simp only [kvGet, delHits, layout, Redis.hget_hdel]
      rw [if_neg]
      exact fun same => encode_ne_hfield plain code same.2
  | key =>
      simp only [kvGet, delHits, layout, Redis.del, Redis.get, Map.lookup_erase_eq]
      rw [if_neg (lkey_ne_hkey c code)]

theorem counter_delHits (s : KvStore) (code c : String) :
    (s.delHits code).counter c = if c = code then none else s.counter c := by
  cases layout : s.layout with
  | hash =>
      simp only [counter, delHits, layout, Redis.hget_hdel, counterPlace_iff]
  | key =>
      simp only [counter, delHits, layout, Redis.del, Redis.get, Map.lookup_erase_eq,
        hkey_injective.eq_iff]
      split
      · rfl
      · rfl

theorem kvGet_addHits (s : KvStore) (code : String) (d : Int64) {c : String} (plain : Plain c) :
    (s.addHits code d).kvGet c = s.kvGet c := by
  cases layout : s.layout with
  | hash =>
      simp only [kvGet, addHits, layout, Redis.hincrby, Redis.hget_hset]
      rw [if_neg]
      exact fun same => encode_ne_hfield plain code same.2
  | key =>
      simp only [kvGet, addHits, layout, Redis.incrby, Redis.get, Redis.setString,
        Map.lookup_insert_eq]
      rw [if_neg (lkey_ne_hkey c code)]

theorem counter_addHits (s : KvStore) (code : String) (d : Int64) (c : String) :
    (s.addHits code d).counter c =
      if c = code then some (Redis.counted (s.counter c) d) else s.counter c := by
  cases layout : s.layout with
  | hash =>
      simp only [counter, addHits, layout, Redis.hincrby, Redis.hget_hset, counterPlace_iff]
      split
      · rename_i same
        rw [same]
      · rfl
  | key =>
      simp only [counter, addHits, layout, Redis.incrby, Redis.get, Redis.setString,
        Map.lookup_insert_eq, hkey_injective.eq_iff]
      split
      · rename_i same
        rw [same]
        rfl
      · rfl

theorem kvGet_setNx (s : KvStore) (now : Int64) (code : String) (value : Bytes) (ttl : Int64)
    (c : String) : (s.setNx now code value ttl).2.kvGet c =
      if c = code ∧ s.kvGet code = none then some value else s.kvGet c := by
  have fate := fst_setNx s now code value ttl
  cases found : s.kvGet code with
  | none =>
      rw [found] at fate
      rw [setNx_free fate, kvGet_setRow]
      simp
  | some v =>
      rw [found] at fate
      rw [setNx_taken fate]
      simp

/-! ## Evictions -/

theorem kvGet_atStep (s : KvStore) (env : KvEnv) (t : Nat) (c : String) :
    (s.atStep env t).kvGet c = s.kvGet c ∨ (s.atStep env t).kvGet c = none := by
  cases layout : s.layout with
  | hash =>
      left
      simp only [kvGet, atStep, layout]
      rfl
  | key =>
      simp only [kvGet, atStep, layout, Redis.get]
      rcases Redis.lookup_evict s.kv (env.clock t) (env.evicts t) (lkey c) with same | ⟨gone, -⟩
      · exact Or.inl (by rw [same])
      · exact Or.inr (by rw [gone]; rfl)

/-- No counter has a deadline. -/
def Lasting (st : Stored) : Prop :=
  st.deadline = none

/-- A string without a deadline is not evicted. -/
theorem lookup_evict_lasting {r : Redis} {now : Int64} {chosen : Bytes → Bool} {k : Bytes}
    (lasting : ∀ st, r.strings.lookup k = some st → Lasting st) :
    (r.evict now chosen).strings.lookup k = r.strings.lookup k := by
  rcases Redis.lookup_evict r now chosen k with same | ⟨-, st, found, due⟩
  · exact same
  · rw [Stored.due, lasting st (Option.mem_def.mp found)] at due
    cases due

theorem counter_atStep {s : KvStore} (lasting : s.kv.AtKeys hkey Lasting) (env : KvEnv) (t : Nat)
    (c : String) : (s.atStep env t).counter c = s.counter c := by
  cases layout : s.layout with
  | hash =>
      simp only [counter, atStep, layout]
      rfl
  | key =>
      simp only [counter, atStep, layout, Redis.get, lookup_evict_lasting (lasting c)]

/-! ## Creates -/

/-- What the steps of creating links keep: a key may be evicted, and a row is
written where none is. -/
structure KeptByCreates (env : KvEnv) (ttl : Int64) (Inv : KvStore → Prop) : Prop where
  evicted : ∀ s t, Inv s → Inv (s.atStep env t)
  created : ∀ s begun t code url, Plain code → begun ≤ t → Inv s →
    Inv (s.setNx (env.clock t) code
      (encVal (expiry (env.clock begun) ttl) (env.clock begun) url) ttl).2

namespace KeptByCreates

variable {env : KvEnv} {ttl : Int64} {Inv : KvStore → Prop} {s s' : KvStore}

theorem freshCode (kept : KeptByCreates env ttl Inv) {begun t t' : Nat} {url code : String}
    {rng rng' : List Suffix} (le : begun ≤ t) (start : Inv s)
    (done : KvStore.freshCode env (encVal (expiry (env.clock begun) ttl) (env.clock begun) url) ttl
      s t rng = some (code, s', t', rng')) : Inv s' := by
  induction rng generalizing s t with
  | nil => cases done
  | cons buf rng ih =>
      have tried := kept.created _ begun t (genCode s.inst buf) url (plain_genCode _ _) le
        (kept.evicted s t start)
      rw [KvStore.freshCode] at done
      split at done
      · cases done
        exact tried
      · exact ih (le.trans (Nat.le_succ t)) tried done

theorem shortenFrom (kept : KeptByCreates env ttl Inv) {t t' : Nat} {rng rng' : List Suffix}
    {url : String} {aliasCode made : Option String} (plain : ∀ a, aliasCode = some a → Plain a)
    (start : Inv s)
    (done : s.shortenFrom env t rng url aliasCode ttl = some (made, s', t', rng')) : Inv s' := by
  cases aliasCode with
  | some a =>
      simp only [KvStore.shortenFrom, Option.some.injEq, Prod.mk.injEq] at done
      rw [← done.2.1]
      exact kept.created _ t (t + 1) a url (plain a rfl) (Nat.le_succ t)
        (kept.evicted s (t + 1) start)
  | none =>
      simp only [KvStore.shortenFrom, Option.map_eq_some_iff] at done
      obtain ⟨⟨code, s'', t'', rng''⟩, found, same⟩ := done
      cases same
      exact kept.freshCode (Nat.le_succ t) start found

theorem pipeNx (kept : KeptByCreates env ttl Inv) {t : Nat} {pairs : List (String × String)}
    (plain : ∀ p ∈ pairs, Plain p.2) (start : Inv s) :
    Inv (KvStore.pipeNx env (env.clock 0) ttl s t pairs).2.1 := by
  induction pairs generalizing s t with
  | nil => exact start
  | cons p pairs ih =>
      refine ih (fun q member => plain q (List.mem_cons_of_mem _ member)) ?_
      exact kept.created _ 0 t p.2 p.1 (plain p List.mem_cons_self) (Nat.zero_le t)
        (kept.evicted s t start)

theorem retryTaken (kept : KeptByCreates env ttl Inv) {t : Nat} {rng : List Suffix}
    {tried : List (String × String × Bool)} {codes : List String} (start : Inv s)
    (done : KvStore.retryTaken env ttl s t rng tried = some (codes, s')) : Inv s' := by
  induction tried generalizing s t rng codes with
  | nil =>
      cases done
      exact start
  | cons one tried ih =>
      obtain ⟨url, code, free⟩ := one
      cases free with
      | true =>
          simp only [KvStore.retryTaken, Option.map_eq_some_iff] at done
          obtain ⟨⟨codes', s''⟩, later, same⟩ := done
          cases same
          exact ih start later
      | false =>
          simp only [KvStore.retryTaken, Option.bind_eq_some_iff, Option.map_eq_some_iff] at done
          obtain ⟨⟨made, s₁, t₁, rng₁⟩, again, ⟨codes', s''⟩, later, same⟩ := done
          cases same
          exact ih (kept.shortenFrom (by simp) start again) later

theorem shorten (kept : KeptByCreates env ttl Inv) {url : String} {aliasCode made : Option String}
    (plain : ∀ a, aliasCode = some a → Plain a) (start : Inv s)
    (done : s.shorten env url aliasCode ttl = some (made, s')) : Inv s' := by
  rw [KvStore.shorten, Option.map_eq_some_iff] at done
  obtain ⟨⟨made', s'', t', rng'⟩, found, same⟩ := done
  cases same
  exact kept.shortenFrom plain start found

theorem shortenMany (kept : KeptByCreates env ttl Inv) {urls codes : List String} (start : Inv s)
    (done : s.shortenMany env urls ttl = some (codes, s')) : Inv s' := by
  rw [KvStore.shortenMany] at done
  split at done
  · cases done
  · refine kept.retryTaken (kept.pipeNx (fun p member => ?_) start) done
    obtain ⟨buf, -, same⟩ := List.mem_map.mp (List.of_mem_zip member).2
    rw [← same]
    exact plain_genCode _ buf

/-- The two calls of a history that create links. -/
theorem step_shorten (kept : KeptByCreates env ttl Inv) (url : String)
    (aliasCode : Option { a : String // codeOk a = true }) (start : Inv s) :
    Inv (s.step (env, .shorten url aliasCode ttl)) := by
  simp only [KvStore.step]
  cases done : s.shorten env url (aliasCode.map Subtype.val) ttl with
  | none => exact start
  | some result =>
      refine kept.shorten (fun a given => ?_) start done
      obtain ⟨valid, -, rfl⟩ := Option.map_eq_some_iff.mp given
      exact .of_codeOk valid.property

theorem step_shortenMany (kept : KeptByCreates env ttl Inv) (urls : List String) (start : Inv s) :
    Inv (s.step (env, .shortenMany urls ttl)) := by
  simp only [KvStore.step]
  cases done : s.shortenMany env urls ttl with
  | none => exact start
  | some result => exact kept.shortenMany start done

end KeptByCreates

end KvStore

end Shrt.Kv
