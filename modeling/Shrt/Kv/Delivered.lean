import Mathlib.Data.List.Basic
import Mathlib.Data.Set.Card
import Shrt.Kv.Listing

/-!
# Listing what is delivered twice

A scan returns everything that is there at least once, and while the server
resizes its tables it may return some of it again.  The listing shows what it is
given.  So it counts the links right exactly when the answers hold the rows it
would show once each, and, where the server is relied on for expiry, none of
them is past its own.
-/

namespace Shrt.Kv

open Shrt.Codec Shrt.Lib Shrt.Lib.Utf8
open Shrt.Store (Link)
open Shrt.Store.Inner (expiry)

/-- A list that runs through a set has its size when it repeats nothing and holds
nothing else. -/
theorem length_eq_ncard_iff {α : Type} [DecidableEq α] {l : List α} {S : Set α}
    (covers : ∀ a ∈ S, a ∈ l) : l.length = S.ncard ↔ l.Nodup ∧ ∀ a ∈ l, a ∈ S := by
  have inside : S ⊆ (l.toFinset : Set α) := fun a member => by simpa using covers a member
  have small : S.ncard ≤ l.toFinset.card := by
    rw [← Set.ncard_coe_finset]
    exact Set.ncard_le_ncard inside l.toFinset.finite_toSet
  constructor
  · intro counted
    have short := l.toFinset_card_le
    have undoubled : l.dedup.length = l.length := by
      rw [← List.card_toFinset]
      omega
    have same := Set.eq_of_subset_of_ncard_le inside (by rw [Set.ncard_coe_finset]; omega)
      l.toFinset.finite_toSet
    refine ⟨List.dedup_eq_self.mp (l.dedup_sublist.eq_of_length undoubled), fun a member => ?_⟩
    rw [same]
    simpa using member
  · rintro ⟨nodup, all⟩
    have same : S = (l.toFinset : Set α) :=
      Set.Subset.antisymm inside fun a member => all a (by simpa using member)
    rw [same, Set.ncard_coe_finset, List.toFinset_card_of_nodup nodup]

namespace KvStore

/-! ## Every store that the program fills -/

namespace Shelved

variable {s : KvStore}

theorem keptByCreates (env : KvEnv) (ttl : Int64) : KeptByCreates env ttl Shelved where
  evicted _ t shelved := shelved.atStep env t
  created s begun t code url plain _ shelved := by
    cases fate : (s.setNx (env.clock t) code
        (encVal (expiry (env.clock begun) ttl) (env.clock begun) url) ttl).1 with
    | true =>
        rw [setNx_free fate]
        exact shelved.setRow _ plain _ _
    | false =>
        rw [setNx_taken fate]
        exact shelved

theorem bump (shelved : s.Shelved) (env : KvEnv) {code : String} (plain : Plain code) :
    (s.bump env code).Shelved := by
  rw [KvStore.bump]
  split
  · refine shelved.recounted fun c member => ?_
    rcases (AList.mem_insert _).mp member with rfl | there
    · exact plain
    · exact shelved.dirty c there
  · exact shelved

theorem resolve (shelved : s.Shelved) (env : KvEnv) {code : String} (plain : Plain code) :
    (s.resolve env code).2.Shelved := by
  have looked := shelved.recached (s.cached env code).2
  rw [KvStore.resolve]
  split
  · exact looked.bump env plain
  · have read := looked.atStep env 2
    split
    · exact read
    · exact (read.recached _).bump env plain

theorem update (shelved : s.Shelved) (env : KvEnv) {code : String} (plain : Plain code)
    (url : String) (ttl : Int64) (hasTtl : Bool) :
    (s.update env code url ttl hasTtl).2.Shelved := by
  have read := shelved.atStep env 0
  rw [KvStore.update]
  cases ((s.atStep env 0).kvGet code).bind decVal with
  | none => exact read
  | some row => exact ((read.atStep env 3).setRow (env.clock 3) plain _ _).recached _

theorem remove (shelved : s.Shelved) (env : KvEnv) (code : String) :
    (s.remove env code).2.Shelved := by
  have deleted := (shelved.atStep env 0).of_less ((s.atStep env 0).less_delRow code)
  rw [KvStore.remove]
  split
  · exact ((deleted.atStep env 1).of_less (less_delHits _ code)).recached _
  · exact deleted

theorem sendHits (shelved : s.Shelved) {deltas : List (String × Int64)}
    (plain : ∀ cn ∈ deltas, Plain cn.1) :
    (deltas.foldl (fun s cn => s.addHits cn.1 cn.2) s).Shelved := by
  induction deltas generalizing s with
  | nil => exact shelved
  | cons cn deltas ih =>
      exact ih (shelved.addHits (plain cn List.mem_cons_self) cn.2)
        fun later member => plain later (List.mem_cons_of_mem _ member)

theorem flushHits (shelved : s.Shelved) (env : KvEnv) : (s.flushHits env).Shelved := by
  have start : Shelved { s.atStep env 0 with dirty := ∅ } :=
    (shelved.atStep env 0).recounted fun _ member => nomatch member
  refine start.sendHits fun cn member => ?_
  refine shelved.dirty cn.1 (Map.mem_iff_lookup.mpr ?_)
  rw [(env.dirtyOrder.mem_iter_iff).mp member]
  exact Option.some_ne_none _

theorem sweepExpired (shelved : s.Shelved) (env : KvEnv) : (s.sweepExpired env).Shelved := by
  refine (shelved.atStep env 0).of_less
    { layout := rfl
      buckets := rfl
      dirty := fun _ member => member
      strings := fun k st found => ?_
      fields := fun b f v found => ?_ }
  · rwa [KvStore.sweepExpired, strings_sweep] at found
  · rcases swept_sweep (env.clock 1) ((s.atStep env 0).kv.hashes.keys.filter
        (encode "l:").isPrefixOf) (s.atStep env 0).kv b f with same | ⟨gone, -⟩
    · exact same ▸ found
    · cases gone.symm.trans found

theorem step (shelved : s.Shelved) {call : KvEnv × KvCall} (checked : call.2.Checked) :
    (s.step call).Shelved := by
  obtain ⟨env, call⟩ := call
  cases call with
  | shorten url aliasCode ttl => exact (keptByCreates env ttl).step_shorten url aliasCode shelved
  | shortenMany urls ttl => exact (keptByCreates env ttl).step_shortenMany urls shelved
  | update code url ttl hasTtl => exact shelved.update env (.of_codeOk checked) url ttl hasTtl
  | remove code => exact shelved.remove env code
  | resolve code => exact shelved.resolve env (.of_codeOk checked)
  | flushHits => exact shelved.flushHits env
  | sweepExpired => exact shelved.sweepExpired env

end Shelved

/-- Whatever a process does with an empty server, everything is in its place. -/
theorem shelved_run (inst : Inst) (layout : Layout) (buckets : Buckets) (cacheEntries : Nat)
    (cacheTtlMs : Int64) {history : List (KvEnv × KvCall)}
    (checked : ∀ call ∈ history, call.2.Checked) :
    ((KvStore.fresh inst layout buckets cacheEntries cacheTtlMs).run history).Shelved := by
  have start := (filed_fresh inst layout buckets cacheEntries cacheTtlMs).shelved
  generalize KvStore.fresh inst layout buckets cacheEntries cacheTtlMs = s at start
  induction history generalizing s with
  | nil => exact start
  | cons call history ih =>
      exact ih (fun later member => checked later (List.mem_cons_of_mem _ member)) _
        (start.step (checked call List.mem_cons_self))

/-! ## What is counted -/

def Matching (s : KvStore) (q code : String) : Prop :=
  Plain code ∧ ∃ row, s.row code = some row ∧ skipped q code row.u = false

/-- The answers hold every row that is to be shown once, and in the key layout the
server holds no such row past its expiry. -/
structure Faithful (s : KvStore) (run : ScanRun) (now : Int64) (q : String) : Prop where
  once : ∀ c, s.Matching q c → s.expired now c = false → s.delivered run c = 1
  current : s.layout = .key → ∀ c, s.Matching q c → s.expired now c = false

theorem code_of_showsAt {s : KvStore} {now : Int64} {q c : String} {link : Link}
    (shown : s.showsAt now q c = some link) : link.code = c := by
  rw [showsAt] at shown
  split at shown
  · cases shown
  · exact code_of_shows shown

theorem isSome_showsAt_iff {s : KvStore} {now : Int64} {q c : String} (plain : Plain c) :
    (s.showsAt now q c).isSome = true ↔
      s.Matching q c ∧ (s.layout = .hash → s.expired now c = false) := by
  have shown : (s.shows q c).isSome = true ↔ s.Matching q c := by
    rw [Option.isSome_iff_exists]
    constructor
    · rintro ⟨link, shown⟩
      obtain ⟨row, found, kept, -⟩ := shows_eq_some_iff.mp shown
      exact ⟨plain, row, found, kept⟩
    · rintro ⟨-, row, found, kept⟩
      exact ⟨_, shows_eq_some_iff.mpr ⟨row, found, kept, rfl⟩⟩
  rw [showsAt, ← shown]
  cases s.layout with
  | hash =>
      cases s.expired now c with
      | true => simp
      | false => simp
  | key => simp

/-- The codes of the links that are shown. -/
theorem map_code_showsAt (s : KvStore) (now : Int64) (q : String) (codes : List String) :
    (codes.filterMap (s.showsAt now q)).map Link.code =
      codes.filter fun c => (s.showsAt now q c).isSome := by
  induction codes with
  | nil => rfl
  | cons c codes ih =>
      cases shown : s.showsAt now q c with
      | none => rw [List.filterMap_cons_none shown, List.filter_cons_of_neg (by simp [shown]), ih]
      | some link =>
          rw [List.filterMap_cons_some shown, List.filter_cons_of_pos (by simp [shown]),
            List.map_cons, ih, code_of_showsAt shown]

theorem mem_filter_showsAt {s : KvStore} {run : ScanRun} {codes : List String}
    (delivers : s.Delivers run codes) (now : Int64) (q c : String) :
    (c ∈ codes.filter fun c => (s.showsAt now q c).isSome) ↔
      s.Matching q c ∧ (s.layout = .hash → s.expired now c = false) := by
  rw [List.mem_filter]
  constructor
  · rintro ⟨listed, shown⟩
    exact (isSome_showsAt_iff ((delivers.mem_iff c).mp listed).1).mp shown
  · rintro ⟨matching, current⟩
    have ⟨plain, row, found, _⟩ := matching
    refine ⟨(delivers.mem_iff c).mpr ⟨plain, fun absent => ?_⟩,
      (isSome_showsAt_iff plain).mpr ⟨matching, current⟩⟩
    rw [KvStore.row, absent] at found
    cases found

/-- The codes that are shown are those of the matching links, each once, exactly
when the answers are faithful. -/
theorem faithful_iff {s : KvStore} {run : ScanRun} {codes : List String}
    (delivers : s.Delivers run codes) (now : Int64) (q : String) :
    ((codes.filter fun c => (s.showsAt now q c).isSome).Nodup ∧
        ∀ c ∈ codes.filter fun c => (s.showsAt now q c).isSome,
          s.Matching q c ∧ s.expired now c = false) ↔
      s.Faithful run now q := by
  have mem := mem_filter_showsAt delivers now q
  have counts : ∀ c, c ∈ codes.filter (fun c => (s.showsAt now q c).isSome) →
      (codes.filter fun c => (s.showsAt now q c).isSome).count c = s.delivered run c := by
    intro c listed
    rw [List.count_filter (List.of_mem_filter listed), delivers.count c ((mem c).mp listed).1.1]
  constructor
  · rintro ⟨nodup, current⟩
    constructor
    · intro c matching alive
      have listed := (mem c).mpr ⟨matching, fun _ => alive⟩
      rw [← counts c listed]
      exact List.count_eq_one_of_mem nodup listed
    · intro layout c matching
      exact (current c ((mem c).mpr ⟨matching, by simp [layout]⟩)).2
  · intro faithful
    have current : ∀ c ∈ codes.filter fun c => (s.showsAt now q c).isSome,
        s.Matching q c ∧ s.expired now c = false := by
      intro c listed
      obtain ⟨matching, alive⟩ := (mem c).mp listed
      refine ⟨matching, ?_⟩
      cases layout : s.layout with
      | hash => exact alive layout
      | key => exact faithful.current layout c matching
    refine ⟨List.nodup_iff_count_le_one.mpr fun c => ?_, current⟩
    by_cases listed : c ∈ codes.filter fun c => (s.showsAt now q c).isSome
    · obtain ⟨matching, alive⟩ := current c listed
      rw [counts c listed, faithful.once c matching alive]
    · rw [List.count_eq_zero_of_not_mem listed]
      exact Nat.zero_le 1

/-- A page repeats no code that the listing has once. -/
theorem nodup_window {items : List Link} (nodup : (items.map Link.code).Nodup)
    (limit offset : Nat) (sort : String) :
    ((window limit offset (arrange sort items)).1.map Link.code).Nodup := by
  have arranged : ((arrange sort items).map Link.code).Nodup := by
    rw [arrange]
    split
    · exact (((List.mergeSort_perm items _).map Link.code).nodup_iff).mpr nodup
    · exact nodup
  exact arranged.sublist (((List.take_sublist _ _).trans (List.drop_sublist _ _)).map Link.code)

theorem total_window (items : List Link) (limit offset : Nat) (sort : String) :
    (window limit offset (arrange sort items)).2 = items.length := by
  rw [window, arrange]
  split
  · exact List.length_mergeSort items
  · rfl

/-- No code is listed twice and the total is the number of the links that match and
have not expired, exactly when the answers are faithful. -/
theorem no_duplicates_iff {s : KvStore} {env : KvEnv} {run : ScanRun} (shelved : s.Shelved)
    (rest : s.AtRest env) (allowed : s.Allowed run) (limit offset : Nat) (sort q : String) :
    (((s.listFrom env run limit offset sort q).1.1.map Link.code).Nodup ∧
        (s.listFrom env run limit offset sort q).1.2 =
          { c | s.Matching q c ∧ s.expired (env.clock 0) c = false }.ncard) ↔
      s.Faithful run (env.clock 0) q := by
  obtain ⟨delivers, found⟩ := listedFrom_spec shelved rest allowed q
  have covers : ∀ c ∈ { c | s.Matching q c ∧ s.expired (env.clock 0) c = false },
      c ∈ (s.deliveredCodes run).filter fun c => (s.showsAt (env.clock 0) q c).isSome :=
    fun c shown => (mem_filter_showsAt delivers _ q c).mpr ⟨shown.1, fun _ => shown.2⟩
  have total : (s.listFrom env run limit offset sort q).1.2 =
      ((s.deliveredCodes run).filter fun c => (s.showsAt (env.clock 0) q c).isSome).length := by
    rw [listFrom, found, total_window, ← map_code_showsAt, List.length_map]
  rw [total, length_eq_ncard_iff covers, ← faithful_iff delivers]
  constructor
  · exact fun counted => counted.2
  · intro counted
    refine ⟨?_, counted⟩
    rw [listFrom, found]
    refine nodup_window ?_ limit offset sort
    rw [map_code_showsAt]
    exact counted.1

/-- A call at one time, with nothing evicted. -/
theorem atRest_at (s : KvStore) (now : Int64) (rng : List Suffix) : s.AtRest (.at now rng) where
  kept t := by
    simp only [atStep, KvEnv.at, Redis.evict, Bool.false_and, List.filter_false, List.map_nil]
    rfl
  steady _ _ _ := rfl

/-- Two links in one bucket. -/
def twoRows : KvStore :=
  (KvStore.fresh 0 .hash ⟨1, by decide⟩ 100 0).run
    [(.at 1000 [], .shorten "https://a.example" (some ⟨"first", by decide⟩) 0),
      (.at 2000 [], .shorten "https://b.example" (some ⟨"second", by decide⟩) 0)]

def reversed : Scan :=
  ⟨id, fun _ => List.reverse⟩

theorem once_reversed : reversed.Once where
  keys ks := .refl ks
  fields _ fs := List.reverse_perm fs

theorem shelved_twoRows : twoRows.Shelved :=
  shelved_run _ _ _ _ _ fun call among => by
    rcases List.mem_pair.mp among with rfl | rfl
    · trivial
    · trivial

theorem no_duplicates_twoRows :
    (((twoRows.listFrom (.at 3000 []) (reversed.run twoRows.kv) 10 0 "" "").1.1.map
            Link.code).Nodup ∧
        (twoRows.listFrom (.at 3000 []) (reversed.run twoRows.kv) 10 0 "" "").1.2 =
          { c | twoRows.Matching "" c ∧ twoRows.expired 3000 c = false }.ncard) ↔
      twoRows.Faithful (reversed.run twoRows.kv) 3000 "" :=
  no_duplicates_iff shelved_twoRows (twoRows.atRest_at 3000 []) (Scan.Once.allowed once_reversed twoRows)
    10 0 "" ""

/-- One link in the key layout. -/
def oneLink : KvStore :=
  (KvStore.fresh 0 .key eightBuckets 100 0).run
    [(.at 1000 [], .shorten "https://a.example" (some ⟨"solo", by decide⟩) 0)]

def keyTimes (n : Nat) : ScanRun where
  keys := List.replicate n (lkey "solo")
  fields := []

theorem shelved_oneLink : oneLink.Shelved :=
  shelved_run _ _ _ _ _ fun call among => by
    rw [List.mem_singleton.mp among]
    trivial

theorem allowed_keyTimes {n : Nat} (some_time : n ≠ 0) : oneLink.Allowed (keyTimes n) where
  keys k := by
    have there : oneLink.kv.linkKeys = [lkey "solo"] := by decide +kernel
    rw [there, keyTimes, List.mem_replicate, List.mem_singleton]
    exact ⟨fun among => among.2, fun same => ⟨some_time, same⟩⟩
  buckets hashed := nomatch hashed
  fields hashed := nomatch hashed

/-- A scan that returns the key twice makes one link two. -/
theorem link_listed_twice :
    ¬ ∀ (s : KvStore) (env : KvEnv) (run : ScanRun), s.Shelved → s.AtRest env → s.Allowed run →
      ∀ (limit offset : Nat) (sort q : String),
        ((s.listFrom env run limit offset sort q).1.1.map Link.code).Nodup ∧
          (s.listFrom env run limit offset sort q).1.2 =
            { c | s.Matching q c ∧ s.expired (env.clock 0) c = false }.ncard := by
  intro claim
  have once := (claim oneLink (.at 1001 []) (keyTimes 2) shelved_oneLink
    (oneLink.atRest_at 1001 []) (allowed_keyTimes two_ne_zero) 10 0 "" "").1
  have twice : (oneLink.listFrom (.at 1001 []) (keyTimes 2) 10 0 "" "").1.1.map Link.code =
      ["solo", "solo"] := by decide +kernel
  rw [twice] at once
  exact absurd once (by decide)

end KvStore

end Shrt.Kv
