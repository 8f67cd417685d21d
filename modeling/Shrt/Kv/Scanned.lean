import Mathlib.Data.List.Basic
import Shrt.Kv.Delivered
import Shrt.Kv.Resp
import Shrt.Lib.CursorLoop

/-!
# Scans, page by page

The server cuts what a scan returns into pages of its own choosing, empty ones among them,
and may return some of it again.  The listing and the sweep follow the cursor from page to page: the
sweep gives up at the first command that fails, the listing shows what it has got.
-/

namespace Shrt.Kv

open Shrt.Codec Shrt.Lib Shrt.Lib.Utf8
open Shrt.Lib.CursorLoop (Turn Delivers loop loop_of_delivers forall_mem_of_loop)
open Shrt.Store (Link)

/-! ## The loops -/

/-- The replies to the scans of one call: to the `k`-th command of the scan of the keys, and
to that of the scan of the `i`-th key.  `none` is a command that fails. -/
structure Scans where
  scan : Nat → Bytes → Option Resp
  hscan : Nat → Bytes → Nat → Bytes → Option Resp

/-- The cursor that a scan begins and ends with. -/
def FIRST : Bytes :=
  encode "0"

def bulk? : Resp → Option Bytes
  | .bulk b => b
  | _ => none

def cursorOf : Resp → Option Bytes
  | .bulk b => b
  | .simple s => some (encode s)
  | _ => none

/-- A reply to a scan, whose page is read by `items`. -/
def scanTurn {α : Type} (items : Resp → List α) (reply : Option Resp) : Turn Bytes α :=
  match reply with
  | none => .failed
  | some (.arr [cursor, page]) =>
      match cursorOf cursor with
      | some next => .page next (items page)
      | none => .left
  | some _ => .left

def keysOf : Resp → List Bytes
  | .arr keys => keys.filterMap bulk?
  | _ => []

/-- `as_chunks::<2>`, of which two bulk strings are a field and its value. -/
def pairsIn : List Resp → List (Bytes × Bytes)
  | f :: v :: rest => ((bulk? f).bind fun f => (bulk? v).map fun v => (f, v)).toList ++ pairsIn rest
  | _ => []

def pairsOf : Resp → List (Bytes × Bytes)
  | .arr items => pairsIn items
  | _ => []

namespace Scans

variable (srv : Scans)

def askKeys (k : Nat) (cursor : Bytes) : Turn Bytes Bytes :=
  scanTurn keysOf (srv.scan k cursor)

def askFields (i : Nat) (b : Bytes) (k : Nat) (cursor : Bytes) : Turn Bytes (Bytes × Bytes) :=
  scanTurn pairsOf (srv.hscan i b k cursor)

/-- `scan_each`: the keys that it hands on, and whether it succeeds. -/
def scanEach (fuel : Nat) : Option (List Bytes × Bool) :=
  loop FIRST srv.askKeys fuel 0 FIRST

def hscanEach (i : Nat) (b : Bytes) (fuel : Nat) : Option (List (Bytes × Bytes) × Bool) :=
  loop FIRST (srv.askFields i b) fuel 0 FIRST

def bucketFields (fuel : Nat) : Nat → List Bytes → Option (List (Bytes × List (Bytes × Bytes)))
  | _, [] => some []
  | i, b :: bs =>
      (srv.hscanEach i b fuel).bind fun found =>
        (bucketFields fuel (i + 1) bs).map fun later => (b, found.1) :: later

/-- What one listing is told. -/
def told (fuel : Nat) (layout : Layout) : Option ScanRun :=
  (srv.scanEach fuel).bind fun found =>
    match layout with
    | .hash => (srv.bucketFields fuel 0 found.1).map fun fields => ⟨found.1, fields⟩
    | .key => some ⟨found.1, []⟩

end Scans

def deadField (now : Int64) (f v : Bytes) : Bool :=
  !(encode "h:").isPrefixOf f && (decVal v).any fun row => past row.e now

def deadAmong (now : Int64) (fields : List (Bytes × Bytes)) : List Bytes :=
  (fields.filter fun fv => deadField now fv.1 fv.2).map Prod.fst

/-- The deletions of the sweep in one bucket after the other; the inner `none` is a scan that
fails. -/
def Scans.gatherDels (srv : Scans) (fuel : Nat) (now : Int64) :
    Nat → List Bytes → Option (Option (List (Bytes × Bytes)))
  | _, [] => some (some [])
  | i, b :: bs =>
      (srv.hscanEach i b fuel).bind fun found =>
        if found.2 then
          (srv.gatherDels fuel now (i + 1) bs).map fun later =>
            later.map fun dels => (deadAmong now found.1).map (fun f => (b, f)) ++ dels
        else some none

def Redis.hdels (r : Redis) (dels : List (Bytes × Bytes)) : Redis :=
  dels.foldl (fun r bf => (r.hdel bf.1 bf.2).2) r

namespace KvStore

def listOver (srv : Scans) (fuel : Nat) (env : KvEnv) (s : KvStore) (limit offset : Nat)
    (sort q : String) : Option ((List Link × Nat) × KvStore) :=
  (srv.told fuel s.layout).map fun run => s.listFrom env run limit offset sort q

def sweepExpiredOver (srv : Scans) (fuel : Nat) (env : KvEnv) (s : KvStore) : Option KvStore :=
  let s := s.atStep env 0
  (srv.scanEach fuel).bind fun found =>
    if found.2 then
      (srv.gatherDels fuel (env.clock 1) 0 found.1).map fun dels =>
        { s with kv := s.kv.hdels (dels.getD []) }
    else some s

end KvStore

/-- The server's promise, about a database that stands still: the pages come to an end and
hold everything that is there, at least once. -/
structure Scans.Answers (srv : Scans) (r : Redis) : Prop where
  keys : ∃ pages, Delivers FIRST srv.askKeys 0 FIRST pages true ∧
    ∀ k, k ∈ pages.flatten ↔ k ∈ r.linkKeys
  fields : ∀ i b, (∃ f v, r.hget b f = some v) →
    ∃ pages, Delivers FIRST (srv.askFields i b) 0 FIRST pages true ∧
      ∀ fv, fv ∈ pages.flatten ↔ fv ∈ (r.bucket b).pairs

/-- Nothing stands on a page that is not there.  Commands may fail, a page may leave out what
it likes, and the pages need not come to an end. -/
def Scans.Truthful (srv : Scans) (r : Redis) : Prop :=
  ∀ i b k cursor next page, srv.askFields i b k cursor = .page next page →
    ∀ fv ∈ page, fv ∈ (r.bucket b).pairs

/-! ### A server that comes to it late -/

/-- Another cursor than the first. -/
def LATER : Bytes :=
  encode "1"

/-- A server that sends an empty page first, and then everything. -/
def Scans.late (r : Redis) : Scans where
  scan _ cursor :=
    if cursor = FIRST then some (.arr [.bulk (some LATER), .arr []])
    else some (.arr [.simple "0", .arr (r.linkKeys.map fun k => .bulk (some k))])
  hscan _ b _ cursor :=
    if cursor = FIRST then some (.arr [.bulk (some LATER), .arr []])
    else some (.arr [.bulk (some FIRST), .arr ((r.bucket b).pairs.flatMap fun fv =>
      [.bulk (some fv.1), .bulk (some fv.2)])])

theorem later_ne_first : LATER ≠ FIRST := by
  decide

theorem keysOf_keys (ks : List Bytes) : keysOf (.arr (ks.map fun k => .bulk (some k))) = ks := by
  induction ks with
  | nil => rfl
  | cons k ks ih =>
      rw [keysOf] at ih
      rw [List.map_cons, keysOf, List.filterMap_cons, bulk?]
      dsimp only
      rw [ih]

theorem pairsOf_fields (fvs : List (Bytes × Bytes)) :
    pairsOf (.arr (fvs.flatMap fun fv => [.bulk (some fv.1), .bulk (some fv.2)])) = fvs := by
  induction fvs with
  | nil => rfl
  | cons fv fvs ih =>
      rw [pairsOf] at ih
      rw [List.flatMap_cons, pairsOf, List.cons_append, List.singleton_append, pairsIn, ih]
      rfl

theorem askKeys_late (r : Redis) (k : Nat) (cursor : Bytes) :
    (Scans.late r).askKeys k cursor =
      if cursor = FIRST then .page LATER [] else .page FIRST r.linkKeys := by
  rw [Scans.askKeys, Scans.late]
  dsimp only
  split
  · rfl
  · exact congrArg (Turn.page FIRST) (keysOf_keys _)

theorem askFields_late (r : Redis) (i : Nat) (b : Bytes) (k : Nat) (cursor : Bytes) :
    (Scans.late r).askFields i b k cursor =
      if cursor = FIRST then .page LATER [] else .page FIRST (r.bucket b).pairs := by
  rw [Scans.askFields, Scans.late]
  dsimp only
  split
  · rfl
  · exact congrArg (Turn.page FIRST) (pairsOf_fields _)

theorem answers_late (r : Redis) : (Scans.late r).Answers r where
  keys := by
    refine ⟨[[], r.linkKeys], .more ?_ later_ne_first (.last ?_), fun k => by simp⟩
    · rw [askKeys_late, if_pos rfl]
    · rw [askKeys_late, if_neg later_ne_first]
  fields i b _ := by
    refine ⟨[[], (r.bucket b).pairs], .more ?_ later_ne_first (.last ?_), fun fv => by simp⟩
    · rw [askFields_late, if_pos rfl]
    · rw [askFields_late, if_neg later_ne_first]

theorem truthful_late (r : Redis) : (Scans.late r).Truthful r := by
  intro i b k cursor next page asked fv among
  rw [askFields_late] at asked
  split at asked
  · cases asked
    cases among
  · cases asked
    exact among

/-! ## The listing -/

namespace Scans.Answers

variable {srv : Scans} {r : Redis}

/-- From some number of turns on the scans of the buckets are over. -/
theorem bucketFields (answers : srv.Answers r) (bs : List Bytes)
    (filled : ∀ b ∈ bs, ∃ f v, r.hget b f = some v) (i : Nat) :
    ∃ n fields, (∀ fuel ≥ n, srv.bucketFields fuel i bs = some fields) ∧
      fields.map Prod.fst = bs ∧
      ∀ answer ∈ fields, ∀ fv, fv ∈ answer.2 ↔ fv ∈ (r.bucket answer.1).pairs := by
  induction bs generalizing i with
  | nil => exact ⟨0, [], fun _ _ => rfl, rfl, by simp⟩
  | cons b bs ih =>
      obtain ⟨here, elsewhere⟩ := List.forall_mem_cons.mp filled
      obtain ⟨pages, delivers, there⟩ := answers.fields i b here
      obtain ⟨n, fields, later, named, all⟩ := ih elsewhere (i + 1)
      refine ⟨max n (pages.length + 1), (b, pages.flatten) :: fields, fun fuel enough => ?_,
        congrArg (b :: ·) named, List.forall_mem_cons.mpr ⟨there, all⟩⟩
      have first : srv.hscanEach i b fuel = some (pages.flatten, true) :=
        loop_of_delivers delivers (by omega)
      rw [Scans.bucketFields, first, Option.bind_some, later fuel (by omega)]
      rfl

/-- From some number of turns on a listing is told what the server may answer. -/
theorem told {s : KvStore} (shelved : s.Shelved) (answers : srv.Answers s.kv) :
    ∃ n run, s.Allowed run ∧ ∀ fuel ≥ n, srv.told fuel s.layout = some run := by
  obtain ⟨pages, delivers, there⟩ := answers.keys
  have keys : ∀ fuel, pages.length < fuel → srv.scanEach fuel = some (pages.flatten, true) :=
    fun fuel enough => loop_of_delivers delivers enough
  cases layout : s.layout with
  | hash =>
      have filled : ∀ b ∈ pages.flatten, ∃ f v, s.kv.hget b f = some v := fun b among =>
        (KvStore.mem_linkKeys_hash shelved layout b).mp ((there b).mp among)
      obtain ⟨n, fields, later, named, all⟩ := answers.bucketFields pages.flatten filled 0
      refine ⟨max n (pages.length + 1), ⟨pages.flatten, fields⟩,
        ⟨there, fun _ => named, fun _ => all⟩, fun fuel enough => ?_⟩
      rw [Scans.told, keys fuel (by omega), Option.bind_some]
      dsimp only
      rw [later fuel (by omega)]
      rfl
  | key =>
      refine ⟨pages.length + 1, ⟨pages.flatten, []⟩, ⟨there, fun hash => ?_, fun hash => ?_⟩,
        fun fuel enough => ?_⟩
      · rw [layout] at hash
        cases hash
      · rw [layout] at hash
        cases hash
      · rw [Scans.told, keys fuel (by omega), Option.bind_some]

end Scans.Answers

namespace KvStore

/-- However the server cuts its answers into pages: the loops of a listing end, and it shows
every row that is there, as often as the pages deliver it and with its counter. -/
theorem list_pages {s : KvStore} (shelved : s.Shelved) {env : KvEnv} (rest : s.AtRest env)
    {srv : Scans} (answers : srv.Answers s.kv) :
    ∃ n, ∃ codes : List String, (∀ c, c ∈ codes ↔ Plain c ∧ s.kvGet c ≠ none) ∧
      ∀ fuel ≥ n, ∀ limit offset sort q,
        s.listOver srv fuel env limit offset sort q =
          some (window limit offset (arrange sort
            (codes.filterMap (s.showsAt (env.clock 0) q))), s) := by
  obtain ⟨n, run, allowed, told⟩ := answers.told shelved
  have delivers := (listedFrom_spec shelved rest allowed "").1
  refine ⟨n, s.deliveredCodes run, delivers.mem_iff, fun fuel enough limit offset sort q => ?_⟩
  rw [listOver, told fuel enough, Option.map_some, listFrom,
    (listedFrom_spec shelved rest allowed q).2]

theorem list_pages_oneLink :
    ∃ n, ∃ codes : List String, (∀ c, c ∈ codes ↔ Plain c ∧ oneLink.kvGet c ≠ none) ∧
      ∀ fuel ≥ n, ∀ limit offset sort q,
        oneLink.listOver (.late oneLink.kv) fuel (.at 1001 []) limit offset sort q =
          some (window limit offset (arrange sort
            (codes.filterMap (oneLink.showsAt 1001 q))), oneLink) :=
  list_pages shelved_oneLink (oneLink.atRest_at 1001 []) (answers_late oneLink.kv)

/-! ## The sweep -/

theorem mem_deadAmong_iff {now : Int64} {fields : List (Bytes × Bytes)} {f : Bytes} :
    f ∈ deadAmong now fields ↔ ∃ v, (f, v) ∈ fields ∧ deadField now f v = true := by
  rw [deadAmong, List.mem_map]
  constructor
  · rintro ⟨⟨f', v⟩, chosen, rfl⟩
    exact ⟨v, List.mem_filter.mp chosen⟩
  · rintro ⟨v, among, dead⟩
    exact ⟨(f, v), List.mem_filter.mpr ⟨among, dead⟩, rfl⟩

theorem mem_deadAmong_bucket {r : Redis} {now : Int64} {fields : List (Bytes × Bytes)}
    {b f : Bytes} (there : ∀ fv, fv ∈ fields ↔ fv ∈ (r.bucket b).pairs) :
    f ∈ deadAmong now fields ↔ (r.hget b f).any (deadField now f) = true := by
  rw [mem_deadAmong_iff, Option.any_eq_true]
  simp only [there, Map.mem_pairs_iff]
  rfl

theorem hget_hdels_batch (dels : List (Bytes × Bytes)) (r : Redis) (b f : Bytes) :
    (r.hdels dels).hget b f = if (b, f) ∈ dels then none else r.hget b f := by
  induction dels generalizing r with
  | nil => simp [Redis.hdels]
  | cons bf dels ih =>
      have later : (r.hdels (bf :: dels)).hget b f =
          ((r.hdel bf.1 bf.2).2.hdels dels).hget b f := rfl
      rw [later, ih, Redis.hget_hdel]
      by_cases listed : (b, f) ∈ dels
      · rw [if_pos listed, if_pos (List.mem_cons_of_mem _ listed)]
      · rw [if_neg listed]
        simp only [List.mem_cons, listed, or_false, Prod.ext_iff]

theorem strings_hdels_batch (dels : List (Bytes × Bytes)) (r : Redis) :
    (r.hdels dels).strings = r.strings := by
  induction dels generalizing r with
  | nil => rfl
  | cons bf dels ih => exact (ih _).trans rfl

/-- What the sweep of whole buckets leaves. -/
theorem hget_sweep (now : Int64) (bs : List Bytes) (r : Redis) (b f : Bytes) :
    (bs.foldl (sweepBucket now) r).hget b f =
      if b ∈ bs ∧ (r.hget b f).any (deadField now f) = true then none else r.hget b f := by
  induction bs generalizing r with
  | nil => simp
  | cons b' bs ih =>
      have first : (sweepBucket now r b').hget b f =
          if b = b' ∧ (r.hget b f).any (deadField now f) = true then none else r.hget b f := by
        rw [sweepBucket, hget_hdels]
        by_cases same : b = b'
        · subst same
          have dead : f ∈ deadAmong now (r.bucket b).pairs ↔
              (r.hget b f).any (deadField now f) = true :=
            mem_deadAmong_bucket fun _ => Iff.rfl
          simp only [true_and]
          exact if_congr dead rfl rfl
        · simp only [same, false_and, if_false]
      rw [List.foldl_cons, ih, first]
      by_cases same : b = b'
      · subst same
        by_cases dead : (r.hget b f).any (deadField now f) = true
        · simp [dead]
        · simp [dead]
      · simp [same]

/-- From some number of turns on the sweep knows what to delete. -/
theorem gatherDels_of_answers {srv : Scans} {r : Redis} (answers : srv.Answers r) (now : Int64)
    (bs : List Bytes) (filled : ∀ b ∈ bs, ∃ f v, r.hget b f = some v) (i : Nat) :
    ∃ n dels, (∀ fuel ≥ n, srv.gatherDels fuel now i bs = some (some dels)) ∧
      ∀ b f, (b, f) ∈ dels ↔ b ∈ bs ∧ (r.hget b f).any (deadField now f) = true := by
  induction bs generalizing i with
  | nil => exact ⟨0, [], fun _ _ => rfl, by simp⟩
  | cons b' bs ih =>
      obtain ⟨first, elsewhere⟩ := List.forall_mem_cons.mp filled
      obtain ⟨pages, delivers, there⟩ := answers.fields i b' first
      obtain ⟨n, dels, later, listed⟩ := ih elsewhere (i + 1)
      refine ⟨max n (pages.length + 1),
        (deadAmong now pages.flatten).map (fun f => (b', f)) ++ dels, fun fuel enough => ?_,
        fun b f => ?_⟩
      · have found : srv.hscanEach i b' fuel = some (pages.flatten, true) :=
          loop_of_delivers delivers (by omega)
        rw [Scans.gatherDels, found, Option.bind_some, if_pos rfl, later fuel (by omega)]
        rfl
      · rw [List.mem_append, listed, List.mem_cons]
        have here : (b, f) ∈ (deadAmong now pages.flatten).map (fun f => (b', f)) ↔
            b = b' ∧ (r.hget b f).any (deadField now f) = true := by
          constructor
          · intro among
            obtain ⟨f', dead, same⟩ := List.mem_map.mp among
            cases same
            exact ⟨rfl, (mem_deadAmong_bucket there).mp dead⟩
          · rintro ⟨rfl, dead⟩
            exact List.mem_map.mpr ⟨f, (mem_deadAmong_bucket there).mpr dead, rfl⟩
        rw [here]
        tauto

/-- A bucket with a field in it matches `l:*` among the hashes and among all keys. -/
theorem mem_linkKeys_iff_of_hget {r : Redis} {b f v : Bytes} (found : r.hget b f = some v) :
    b ∈ r.linkKeys ↔ b ∈ r.hashes.keys.filter (encode "l:").isPrefixOf := by
  have among : b ∈ r.hashes.keys := by
    rw [← AList.mem_keys, Map.mem_iff_lookup]
    intro absent
    rw [Redis.hget, Redis.bucket, absent] at found
    cases found
  have filled : (!(r.bucket b).pairs.isEmpty) = true := by
    have member : (f, v) ∈ (r.bucket b).pairs := Map.mem_pairs_iff.mpr found
    cases shape : (r.bucket b).pairs with
    | nil =>
        rw [shape] at member
        cases member
    | cons fv rest => rfl
  rw [Redis.linkKeys, List.mem_filter, List.mem_filter, List.mem_append, List.mem_filter]
  simp only [among, filled, and_self, or_true, true_and]

/-- From some number of turns on the sweep is over, with the batch of these deletions. -/
theorem sweepExpiredOver_of_answers {s : KvStore} (shelved : s.Shelved)
    (layout : s.layout = .hash) {env : KvEnv} {srv : Scans}
    (answers : srv.Answers (s.atStep env 0).kv) :
    ∃ n dels, (∀ fuel ≥ n, s.sweepExpiredOver srv fuel env =
        some { s.atStep env 0 with kv := (s.atStep env 0).kv.hdels dels }) ∧
      ∀ b f, (b, f) ∈ dels ↔ b ∈ (s.atStep env 0).kv.linkKeys ∧
        ((s.atStep env 0).kv.hget b f).any (deadField (env.clock 1) f) = true := by
  obtain ⟨pages, delivers, there⟩ := answers.keys
  have filled : ∀ b ∈ pages.flatten, ∃ f v, (s.atStep env 0).kv.hget b f = some v :=
    fun b among => (mem_linkKeys_hash (shelved.atStep env 0) layout b).mp ((there b).mp among)
  obtain ⟨n, dels, gathered, listed⟩ :=
    gatherDels_of_answers answers (env.clock 1) pages.flatten filled 0
  refine ⟨max n (pages.length + 1), dels, fun fuel enough => ?_, fun b f => ?_⟩
  · have keys : srv.scanEach fuel = some (pages.flatten, true) :=
      loop_of_delivers delivers (by omega)
    rw [sweepExpiredOver]
    dsimp only
    rw [keys, Option.bind_some, if_pos rfl, gathered fuel (by omega)]
    rfl
  · rw [listed, there]

/-- However the server cuts its answers into pages: the loops of the sweep end, and the batch
that it sends leaves what the sweep of whole buckets leaves. -/
theorem sweep_pages {s : KvStore} (shelved : s.Shelved) (layout : s.layout = .hash)
    {env : KvEnv} {srv : Scans} (answers : srv.Answers (s.atStep env 0).kv) :
    ∃ n, ∀ fuel ≥ n, ∃ s', s.sweepExpiredOver srv fuel env = some s' ∧
      (∀ b f, s'.kv.hget b f = (s.sweepExpired env).kv.hget b f) ∧
      s'.kv.strings = (s.sweepExpired env).kv.strings := by
  obtain ⟨n, dels, swept, listed⟩ := sweepExpiredOver_of_answers shelved layout answers
  refine ⟨n, fun fuel enough => ⟨_, swept fuel enough, fun b f => ?_, ?_⟩⟩
  · rw [sweepExpired]
    dsimp only
    rw [hget_hdels_batch, hget_sweep]
    refine if_congr ?_ rfl rfl
    rw [listed]
    refine and_congr_left fun dead => ?_
    obtain ⟨v, found, -⟩ := (Option.any_eq_true ..).mp dead
    exact mem_linkKeys_iff_of_hget found
  · rw [sweepExpired]
    dsimp only
    rw [strings_hdels_batch, strings_sweep]

/-- A link in a bucket, with an expiry. -/
def oneRow : KvStore :=
  (KvStore.fresh 0 .hash eightBuckets 100 0).run
    [(.at 1000 [], .shorten "https://a.example" (some ⟨"brief", by decide⟩) 1)]

theorem shelved_oneRow : oneRow.Shelved :=
  shelved_run _ _ _ _ _ fun call among => by
    rw [List.mem_singleton.mp among]
    trivial

theorem sweep_pages_oneRow :
    ∃ n, ∀ fuel ≥ n, ∃ s',
      oneRow.sweepExpiredOver (.late (oneRow.atStep (.at 90000 []) 0).kv) fuel (.at 90000 []) =
        some s' ∧
      (∀ b f, s'.kv.hget b f = (oneRow.sweepExpired (.at 90000 [])).kv.hget b f) ∧
      s'.kv.strings = (oneRow.sweepExpired (.at 90000 [])).kv.strings :=
  sweep_pages shelved_oneRow (by decide +kernel) (answers_late _)

/-! ## A sweep that is cut short -/

theorem dead_of_mem_gatherDels {srv : Scans} {r : Redis} (truthful : srv.Truthful r) {fuel : Nat}
    {now : Int64} {bs : List Bytes} {i : Nat} {dels : List (Bytes × Bytes)}
    (gathered : srv.gatherDels fuel now i bs = some (some dels)) :
    ∀ bf ∈ dels, (r.hget bf.1 bf.2).any (deadField now bf.2) = true := by
  induction bs generalizing i dels with
  | nil =>
      cases gathered
      exact List.forall_mem_nil _
  | cons b bs ih =>
      obtain ⟨⟨found, ok⟩, went, gathered⟩ := Option.bind_eq_some_iff.mp gathered
      cases ok with
      | false => cases gathered
      | true =>
          rw [if_pos rfl] at gathered
          obtain ⟨later, rest, same⟩ := Option.map_eq_some_iff.mp gathered
          obtain ⟨after, rfl, rfl⟩ := Option.map_eq_some_iff.mp same
          have there : ∀ fv ∈ found, fv ∈ (r.bucket b).pairs :=
            forall_mem_of_loop (truthful i b) went
          refine List.forall_mem_append.mpr ⟨fun bf among => ?_, ih rest⟩
          obtain ⟨f, chosen, rfl⟩ := List.mem_map.mp among
          obtain ⟨v, listed, dead⟩ := mem_deadAmong_iff.mp chosen
          exact (Option.any_eq_true ..).mpr ⟨v, Map.mem_pairs_iff.mp (there (f, v) listed), dead⟩

/-- Whatever fails on the way: a sweep deletes only rows that are past their expiry. -/
theorem sweep_spares {s s' : KvStore} {env : KvEnv} {srv : Scans} {fuel : Nat}
    (truthful : srv.Truthful (s.atStep env 0).kv)
    (swept : s.sweepExpiredOver srv fuel env = some s') :
    s'.kv.strings = (s.atStep env 0).kv.strings ∧
      ∀ b f, s'.kv.hget b f = (s.atStep env 0).kv.hget b f ∨
        s'.kv.hget b f = none ∧
          ((s.atStep env 0).kv.hget b f).any (deadField (env.clock 1) f) = true := by
  obtain ⟨⟨keys, ok⟩, -, swept⟩ := Option.bind_eq_some_iff.mp swept
  cases ok with
  | false =>
      cases swept
      exact ⟨rfl, fun _ _ => Or.inl rfl⟩
  | true =>
      rw [if_pos rfl] at swept
      obtain ⟨dels, gathered, rfl⟩ := Option.map_eq_some_iff.mp swept
      refine ⟨strings_hdels_batch _ _, fun b f => ?_⟩
      dsimp only
      rw [hget_hdels_batch]
      by_cases listed : (b, f) ∈ dels.getD []
      · rw [if_pos listed]
        cases dels with
        | none => cases listed
        | some dels =>
            exact Or.inr ⟨rfl, dead_of_mem_gatherDels truthful gathered (b, f) listed⟩
      · rw [if_neg listed]
        exact Or.inl rfl

theorem sweep_spares_oneRow :
    ∃ fuel s', oneRow.sweepExpiredOver (.late (oneRow.atStep (.at 90000 []) 0).kv) fuel
        (.at 90000 []) = some s' ∧
      s'.kv.strings = (oneRow.atStep (.at 90000 []) 0).kv.strings ∧
        ∀ b f, s'.kv.hget b f = (oneRow.atStep (.at 90000 []) 0).kv.hget b f ∨
          s'.kv.hget b f = none ∧
            ((oneRow.atStep (.at 90000 []) 0).kv.hget b f).any (deadField 90000 f) = true := by
  obtain ⟨n, dels, swept, -⟩ := sweepExpiredOver_of_answers shelved_oneRow
    (by decide +kernel) (answers_late _)
  exact ⟨n, _, swept n le_rfl, sweep_spares (truthful_late _) (swept n le_rfl)⟩

end KvStore

end Shrt.Kv
