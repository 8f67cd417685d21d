import Mathlib.Data.List.Basic
import Mathlib.Data.List.Count
import Mathlib.Data.List.Nodup
import Mathlib.Data.List.Sort
import Mathlib.Data.Set.List
import Shrt.Kv.Hits

/-!
# Listing the links of the server

`list` asks the server for its keys and reads every one of them: in the key
layout a key holds a row, and its counter is read beside it; in the hash layout
a key is a bucket, whose fields are rows and counters of many codes.  As long
as no row expires and everything stands in its place, both list every code
with its row and its counter once, in the order of the scan.
-/

namespace Shrt.Kv

open Shrt.Codec Shrt.Lib Shrt.Lib.Utf8
open Shrt.Store (Link contains)

/-- How the server answers a scan: what it returns, in its order, of the keys
and of the fields of a bucket that are there. -/
structure Scan where
  keys : List Bytes → List Bytes
  fields : Bytes → List (Bytes × Bytes) → List (Bytes × Bytes)

/-- Every element is returned once. -/
structure Scan.Once (scan : Scan) : Prop where
  keys : ∀ ks, (scan.keys ks).Perm ks
  fields : ∀ b fs, (scan.fields b fs).Perm fs

/-- What the server answers to the scans of one listing: the keys, and the fields of
the buckets among them. -/
structure ScanRun where
  keys : List Bytes
  fields : List (Bytes × List (Bytes × Bytes))

def Redis.linkKeys (r : Redis) : List Bytes :=
  (r.strings.keys ++ r.hashes.keys.filter fun b => !(r.bucket b).pairs.isEmpty).filter
    (encode "l:").isPrefixOf

def Scan.run (scan : Scan) (r : Redis) : ScanRun where
  keys := scan.keys r.linkKeys
  fields := (scan.keys r.linkKeys).map fun b => (b, scan.fields b (r.bucket b).pairs)

def skipped (q code url : String) : Bool :=
  q ≠ "" && !contains code q && !contains url q

def stripHits (f : String) : Option String :=
  if "h:".toList.isPrefixOf f.toList then some (String.ofList (f.toList.drop 2)) else none

/-- What the listing of the buckets has gathered. -/
structure Gathered where
  items : List Link
  hits : Map String Int64

def gather (q : String) (acc : Gathered) (now : Int64) (field : Bytes × Bytes) : Gathered :=
  match decode? field.1 with
  | none => acc
  | some f =>
      match stripHits f with
      | some code => { acc with hits := acc.hits.insert code (hitCount (some field.2)) }
      | none =>
          match decVal field.2 with
          | none => acc
          | some row =>
              if past row.e now then acc
              else if skipped q f row.u then acc
              else { acc with items := acc.items ++ [row.link f 0] }

/-- The page of a listing, and how many links there are. -/
def window (limit offset : Nat) (items : List Link) : List Link × Nat :=
  ((items.drop (min offset items.length)).take limit, items.length)

/-- `items.sort_by_key(|x| Reverse(x.hits))`, when asked for. -/
def arrange (sort : String) (items : List Link) : List Link :=
  if sort = "hits" then items.mergeSort fun a b => b.hits ≤ a.hits else items

namespace KvStore

/-- The pipelined reads of the key layout from the step `t` on: the row and the
counter of every key. -/
def listKeys (env : KvEnv) (q : String) : KvStore → Nat → List Bytes → List Link × KvStore
  | s, _, [] => ([], s)
  | s, t, k :: keys =>
      let first := s.atStep env t
      let second := first.atStep env (t + 1)
      let later := listKeys env q second (t + 2) keys
      let code := decodeLossy (k.drop 2)
      let hits := hitCount (second.kv.get (hkey ((decode? (k.drop 2)).getD "")))
      match (first.kv.get k).bind decVal with
      | none => later
      | some row =>
          if skipped q code row.u then later else (row.link code hits :: later.1, later.2)

/-- The fields of the buckets from the step 1 on; the counters are filled in at
the end. -/
def listFields (env : KvEnv) (q : String) (fields : List (Bytes × Bytes)) : List Link :=
  let done := (fields.zipIdx 1).foldl (fun acc field => gather q acc (env.clock field.2) field.1)
    ⟨[], ∅⟩
  done.items.map fun it => { it with hits := (done.hits.lookup it.code).getD 0 }

/-- The links that `list` finds, in the order of the scan. -/
def listed (env : KvEnv) (scan : Scan) (s : KvStore) (q : String) : List Link × KvStore :=
  let s := s.atStep env 0
  let keys := scan.keys s.kv.linkKeys
  match s.layout with
  | .hash => (listFields env q (keys.flatMap fun b => scan.fields b (s.kv.bucket b).pairs), s)
  | .key => listKeys env q s 1 keys

/-- `list`: one page of the links that match, and how many there are. -/
def list (env : KvEnv) (scan : Scan) (s : KvStore) (limit offset : Nat) (sort q : String) :
    (List Link × Nat) × KvStore :=
  let found := s.listed env scan q
  (window limit offset (arrange sort found.1), found.2)

def listedFrom (env : KvEnv) (run : ScanRun) (s : KvStore) (q : String) : List Link × KvStore :=
  let s := s.atStep env 0
  match s.layout with
  | .hash => (listFields env q (run.fields.flatMap Prod.snd), s)
  | .key => listKeys env q s 1 run.keys

def listFrom (env : KvEnv) (run : ScanRun) (s : KvStore) (limit offset : Nat) (sort q : String) :
    (List Link × Nat) × KvStore :=
  let found := s.listedFrom env run q
  (window limit offset (arrange sort found.1), found.2)

/-- What the server may answer: everything that is there, at least once. -/
structure Allowed (s : KvStore) (run : ScanRun) : Prop where
  keys : ∀ k, k ∈ run.keys ↔ k ∈ s.kv.linkKeys
  buckets : s.layout = .hash → run.fields.map Prod.fst = run.keys
  fields : s.layout = .hash → ∀ answer ∈ run.fields, ∀ fv,
    fv ∈ answer.2 ↔ fv ∈ (s.kv.bucket answer.1).pairs

def delivered (s : KvStore) (run : ScanRun) (code : String) : Nat :=
  match s.layout with
  | .hash => ((run.fields.flatMap Prod.snd).map Prod.fst).count (encode code)
  | .key => run.keys.count (lkey code)

/-! ## Everything in its place -/

/-- Keys and fields are those of codes, in the layout of the store; no row
expires, and only hits of codes are counted. -/
structure Filed (s : KvStore) : Prop where
  strings : ∀ k st, s.kv.strings.lookup k = some st →
    s.layout = .key ∧ Lasting st ∧ ∃ c, Plain c ∧ (k = lkey c ∨ k = hkey c)
  fields : ∀ b f v, s.kv.hget b f = some v →
    s.layout = .hash ∧ ∃ c, Plain c ∧ b = bkey c s.buckets ∧ (f = encode c ∨ f = hfield c)
  rows : ∀ c v, Plain c → s.kvGet c = some v → ∃ row, decVal v = some row ∧ row.e = 0
  dirty : ∀ c, c ∈ s.dirty → Plain c

/-- Keys and fields are those of codes, in the layout of the store, and only hits of
codes are counted. -/
structure Shelved (s : KvStore) : Prop where
  strings : ∀ k st, s.kv.strings.lookup k = some st →
    s.layout = .key ∧ ∃ c, Plain c ∧ (k = lkey c ∨ k = hkey c)
  fields : ∀ b f v, s.kv.hget b f = some v →
    s.layout = .hash ∧ ∃ c, Plain c ∧ b = bkey c s.buckets ∧ (f = encode c ∨ f = hfield c)
  dirty : ∀ c, c ∈ s.dirty → Plain c

theorem Filed.shelved {s : KvStore} (filed : s.Filed) : s.Shelved where
  strings k st found := ⟨(filed.strings k st found).1, (filed.strings k st found).2.2⟩
  fields := filed.fields
  dirty := filed.dirty

def expired (s : KvStore) (now : Int64) (code : String) : Bool :=
  (s.row code).any fun row => past row.e now

/-- Nothing is evicted during a call, and no link expires. -/
structure AtRest (s : KvStore) (env : KvEnv) : Prop where
  kept : ∀ t, s.atStep env t = s
  steady : ∀ t c, Plain c → s.expired (env.clock t) c = s.expired (env.clock 0) c

theorem filed_fresh (inst : Inst) (layout : Layout) (buckets : Buckets) (cacheEntries : Nat)
    (cacheTtlMs : Int64) : (fresh inst layout buckets cacheEntries cacheTtlMs).Filed where
  strings _ _ found := nomatch found
  fields _ _ _ found := nomatch found
  rows c v plain found := by
    cases layout with
    | hash => cases found
    | key => cases found
  dirty _ member := nomatch member

/-- Of what `s` holds, `s'` holds nothing else. -/
structure Less (s s' : KvStore) : Prop where
  layout : s'.layout = s.layout
  buckets : s'.buckets = s.buckets
  dirty : ∀ c, c ∈ s'.dirty → c ∈ s.dirty
  strings : ∀ k st, s'.kv.strings.lookup k = some st → s.kv.strings.lookup k = some st
  fields : ∀ b f v, s'.kv.hget b f = some v → s.kv.hget b f = some v

section Deletions

variable (s : KvStore)

theorem less_del (k : Bytes) : Less s { s with kv := (s.kv.del k).2 } where
  layout := rfl
  buckets := rfl
  dirty _ member := member
  strings k' st found := by
    rw [Redis.del, Map.lookup_erase_eq] at found
    split at found
    · cases found
    · exact found
  fields _ _ _ found := found

theorem less_hdel (b f : Bytes) : Less s { s with kv := (s.kv.hdel b f).2 } where
  layout := rfl
  buckets := rfl
  dirty _ member := member
  strings _ _ found := found
  fields b' f' v found := by
    rw [Redis.hget_hdel] at found
    split at found
    · cases found
    · exact found

theorem less_delRow (code : String) : Less s (s.delRow code).2 := by
  obtain ⟨kv, cache, dirty, inst, layout, buckets⟩ := s
  cases layout with
  | hash => exact less_hdel _ _ _
  | key => exact less_del _ _

theorem less_delHits (code : String) : Less s (s.delHits code) := by
  obtain ⟨kv, cache, dirty, inst, layout, buckets⟩ := s
  cases layout with
  | hash => exact less_hdel _ _ _
  | key => exact less_del _ _

theorem less_atStep (env : KvEnv) (t : Nat) : Less s (s.atStep env t) where
  layout := rfl
  buckets := rfl
  dirty _ member := member
  strings k st found := by
    have evicted : (s.kv.evict (env.clock t) (env.evicts t)).strings.lookup k = some st := found
    rcases s.kv.lookup_evict (env.clock t) (env.evicts t) k with same | ⟨gone, -⟩
    · exact same ▸ evicted
    · rw [gone] at evicted
      cases evicted
  fields _ _ _ found := found

end Deletions

theorem Less.kvGet {s s' : KvStore} (less : Less s s') {c : String} {v : Bytes}
    (found : s'.kvGet c = some v) : s.kvGet c = some v := by
  rw [KvStore.kvGet, less.layout, less.buckets] at found
  rw [KvStore.kvGet]
  cases shape : s.layout with
  | hash =>
      rw [shape] at found
      exact less.fields _ _ _ found
  | key =>
      rw [shape] at found
      obtain ⟨st, held, same⟩ := Option.map_eq_some_iff.mp found
      exact Option.map_eq_some_iff.mpr ⟨st, less.strings _ _ held, same⟩

namespace Shelved

variable {s s' : KvStore}

theorem of_less (shelved : s.Shelved) (less : Less s s') : s'.Shelved where
  strings k st found := by
    rw [less.layout]
    exact shelved.strings k st (less.strings k st found)
  fields b f v found := by
    rw [less.layout, less.buckets]
    exact shelved.fields b f v (less.fields b f v found)
  dirty c member := shelved.dirty c (less.dirty c member)

theorem atStep (shelved : s.Shelved) (env : KvEnv) (t : Nat) : (s.atStep env t).Shelved :=
  shelved.of_less (s.less_atStep env t)

/-- A string under the key of a code. -/
theorem putString (shelved : s.Shelved) (layout : s.layout = .key) {k : Bytes} {st : Stored}
    {c : String} (plain : Plain c) (keyed : k = lkey c ∨ k = hkey c) :
    Shelved { s with kv := s.kv.setString k st } where
  strings k' st' found := by
    refine ⟨layout, ?_⟩
    simp only [Redis.setString, Map.lookup_insert_eq] at found
    split at found
    · rename_i same
      exact ⟨c, plain, same ▸ keyed⟩
    · exact (shelved.strings k' st' found).2
  fields := shelved.fields
  dirty := shelved.dirty

/-- A field of a code. -/
theorem putField (shelved : s.Shelved) (layout : s.layout = .hash) {f v : Bytes} {c : String}
    (plain : Plain c) (named : f = encode c ∨ f = hfield c) :
    Shelved { s with kv := s.kv.hset (bkey c s.buckets) f v } where
  strings := shelved.strings
  fields b f' v' found := by
    refine ⟨layout, ?_⟩
    simp only [Redis.hget_hset] at found
    split at found
    · rename_i same
      exact ⟨c, plain, same.1, same.2 ▸ named⟩
    · exact (shelved.fields b f' v' found).2
  dirty := shelved.dirty

theorem setRow (shelved : s.Shelved) (now : Int64) {code : String} (plain : Plain code)
    (value : Bytes) (px : Int64) : (s.setRow now code value px).Shelved := by
  cases layout : s.layout with
  | hash =>
      simp only [KvStore.setRow, layout]
      exact layout ▸ shelved.putField layout plain (Or.inl rfl)
  | key =>
      simp only [KvStore.setRow, layout]
      exact layout ▸ shelved.putString layout plain (Or.inl rfl)

theorem addHits (shelved : s.Shelved) {code : String} (plain : Plain code) (d : Int64) :
    (s.addHits code d).Shelved := by
  cases layout : s.layout with
  | hash =>
      simp only [KvStore.addHits, layout]
      exact layout ▸ shelved.putField layout plain (Or.inr rfl)
  | key =>
      simp only [KvStore.addHits, layout]
      exact layout ▸ shelved.putString layout plain (Or.inr rfl)

/-- The cache is no part of the server. -/
theorem recached (shelved : s.Shelved) (cache : Lru) : Shelved { s with cache := cache } :=
  ⟨shelved.strings, shelved.fields, shelved.dirty⟩

/-- Nor are the counts. -/
theorem recounted (shelved : s.Shelved) {dirty : Map String Int64}
    (plain : ∀ c, c ∈ dirty → Plain c) : Shelved { s with dirty := dirty } :=
  ⟨shelved.strings, shelved.fields, plain⟩

end Shelved

namespace Filed

variable {s s' : KvStore}

theorem lasting (filed : s.Filed) {k : Bytes} {st : Stored}
    (found : s.kv.strings.lookup k = some st) : Lasting st :=
  (filed.strings k st found).2.1

/-- What is in its place and has no deadline is filed. -/
theorem of_shelved (shelved : s.Shelved)
    (lasting : ∀ k st, s.kv.strings.lookup k = some st → Lasting st)
    (rows : ∀ c v, Plain c → s.kvGet c = some v → ∃ row, decVal v = some row ∧ row.e = 0) :
    s.Filed where
  strings k st found :=
    ⟨(shelved.strings k st found).1, lasting k st found, (shelved.strings k st found).2⟩
  fields := shelved.fields
  rows := rows
  dirty := shelved.dirty

/-- Nothing is ever due. -/
theorem atStep_eq (filed : s.Filed) (env : KvEnv) (t : Nat) : s.atStep env t = s := by
  have none_due : (s.kv.strings.pairs.filter fun kv =>
      env.evicts t kv.1 && Stored.due (env.clock t) kv.2) = [] := by
    rw [List.filter_eq_nil_iff]
    rintro ⟨k, st⟩ member chosen
    have lasting := filed.lasting (Map.mem_pairs_iff.mp member)
    rw [Bool.and_eq_true, Stored.due, lasting] at chosen
    cases chosen.2
  rw [atStep, Redis.evict, none_due]
  rfl

theorem of_less (filed : s.Filed) (less : Less s s') : s'.Filed :=
  .of_shelved (filed.shelved.of_less less)
    (fun k st found => filed.lasting (less.strings k st found))
    fun c v plain found => filed.rows c v plain (less.kvGet found)

theorem recached (filed : s.Filed) (cache : Lru) : Filed { s with cache := cache } :=
  .of_shelved (filed.shelved.recached cache) (fun _ _ => filed.lasting) filed.rows

theorem recounted (filed : s.Filed) {dirty : Map String Int64}
    (plain : ∀ c, c ∈ dirty → Plain c) : Filed { s with dirty := dirty } :=
  .of_shelved (filed.shelved.recounted plain) (fun _ _ => filed.lasting) filed.rows

theorem setRow (filed : s.Filed) (now : Int64) {code : String} (plain : Plain code) (c : Int64)
    (u : String) : (s.setRow now code (encVal 0 c u) 0).Filed := by
  refine .of_shelved (filed.shelved.setRow now plain _ _) (fun k st found => ?_)
    fun c' v plain' found => ?_
  · cases layout : s.layout with
    | hash =>
        simp only [KvStore.setRow, layout] at found
        exact filed.lasting found
    | key =>
        simp only [KvStore.setRow, layout, Redis.set, Redis.setString, Bool.false_and,
          Bool.false_eq_true, if_false, Map.lookup_insert_eq] at found
        split at found
        · cases found
          rfl
        · exact filed.lasting found
  · rw [kvGet_setRow] at found
    split at found
    · cases found
      exact ⟨_, decVal_encVal _ _ _, rfl⟩
    · exact filed.rows c' v plain' found

/-- A counter keeps what deadline it has. -/
theorem addHits (filed : s.Filed) {code : String} (plain : Plain code) (d : Int64) :
    (s.addHits code d).Filed := by
  refine .of_shelved (filed.shelved.addHits plain d) (fun k st found => ?_)
    fun c v plain' found => ?_
  · cases layout : s.layout with
    | hash =>
        simp only [KvStore.addHits, layout] at found
        exact filed.lasting found
    | key =>
        simp only [KvStore.addHits, layout, Redis.incrby, Redis.setString,
          Map.lookup_insert_eq] at found
        split at found
        · cases found
          show (s.kv.strings.lookup (hkey code)).bind Stored.deadline = none
          cases held : s.kv.strings.lookup (hkey code) with
          | none => rfl
          | some st => exact filed.lasting held
        · exact filed.lasting found
  · rw [kvGet_addHits s code d plain'] at found
    exact filed.rows c v plain' found

end Filed

/-! ## What is listed -/

def shows (s : KvStore) (q code : String) : Option Link :=
  (s.row code).bind fun row =>
    if skipped q code row.u then none else some (row.link code (hitCount (s.counter code)))

theorem shows_eq_some_iff {s : KvStore} {q c : String} {link : Link} :
    s.shows q c = some link ↔ ∃ row, s.row c = some row ∧ skipped q c row.u = false ∧
      row.link c (hitCount (s.counter c)) = link := by
  rw [shows, Option.bind_eq_some_iff]
  constructor
  · rintro ⟨row, found, shown⟩
    split at shown
    · cases shown
    · rename_i kept
      exact ⟨row, found, Bool.not_eq_true _ ▸ kept, Option.some.inj shown⟩
  · rintro ⟨row, found, kept, shown⟩
    exact ⟨row, found, by rw [if_neg (by simp [kept]), shown]⟩

/-- A link is shown under its own code. -/
theorem code_of_shows {s : KvStore} {q c : String} {link : Link}
    (shown : s.shows q c = some link) : link.code = c := by
  obtain ⟨row, -, -, rfl⟩ := shows_eq_some_iff.mp shown
  rfl

/-- What a listing shows of a code at a time: the key layout leaves the expiry of
rows to the server. -/
def showsAt (s : KvStore) (now : Int64) (q code : String) : Option Link :=
  if s.layout = .hash && s.expired now code then none else s.shows q code

def codeOf (f : Bytes) : Option String :=
  (decode? f).filter fun code => (stripHits code).isNone

def deliveredCodes (s : KvStore) (run : ScanRun) : List String :=
  match s.layout with
  | .hash => ((run.fields.flatMap Prod.snd).map Prod.fst).filterMap codeOf
  | .key => run.keys.filterMap fun k => decode? (k.drop 2)

/-- The codes that have a row, as often as the answers hold it. -/
structure Delivers (s : KvStore) (run : ScanRun) (codes : List String) : Prop where
  mem_iff : ∀ c, c ∈ codes ↔ Plain c ∧ s.kvGet c ≠ none
  count : ∀ c, Plain c → codes.count c = s.delivered run c

/-- The codes that have a row, each once. -/
structure Lists (s : KvStore) (codes : List String) : Prop where
  nodup : codes.Nodup
  mem_iff : ∀ c, c ∈ codes ↔ Plain c ∧ s.kvGet c ≠ none

/-! ### Keys -/

theorem drop_lkey (c : String) : (lkey c).drop 2 = encode c :=
  List.drop_left' (by decide)

theorem linkKeys_key {s : KvStore} (shelved : s.Shelved) (layout : s.layout = .key) :
    s.kv.linkKeys = s.kv.strings.keys.filter (encode "l:").isPrefixOf := by
  have no_fields : ∀ b, (s.kv.bucket b).pairs = [] := by
    intro b
    rw [List.eq_nil_iff_forall_not_mem]
    rintro ⟨f, v⟩ member
    have hashed := (shelved.fields b f v (Map.mem_pairs_iff.mp member)).1
    rw [layout] at hashed
    cases hashed
  simp only [Redis.linkKeys, no_fields, List.isEmpty_nil, Bool.not_true, List.filter_false,
    List.append_nil]

/-- The keys that a scan of the key layout returns are those of rows. -/
theorem mem_linkKeys_key {s : KvStore} (shelved : s.Shelved) (layout : s.layout = .key)
    (k : Bytes) : k ∈ s.kv.linkKeys ↔ ∃ c, Plain c ∧ s.kvGet c ≠ none ∧ k = lkey c := by
  have shown : ∀ c, s.kvGet c ≠ none ↔ lkey c ∈ s.kv.strings := by
    intro c
    rw [Map.mem_iff_lookup]
    simp only [kvGet, layout, Redis.get, ne_eq, Option.map_eq_none_iff]
  rw [linkKeys_key shelved layout, List.mem_filter, List.isPrefixOf_iff_prefix]
  constructor
  · rintro ⟨member, prefixed⟩
    have present : k ∈ s.kv.strings := member
    obtain ⟨st, found⟩ := Option.ne_none_iff_exists'.mp (Map.mem_iff_lookup.mp present)
    obtain ⟨-, c, plain, rfl | rfl⟩ := shelved.strings k st found
    · exact ⟨c, plain, (shown c).mpr present, rfl⟩
    · exact absurd prefixed (not_link_hkey c)
  · rintro ⟨c, plain, row, rfl⟩
    exact ⟨(shown c).mp row, List.prefix_append _ _⟩

/-- The reads of the key layout show every code with its counter. -/
theorem listKeys_eq {s : KvStore} (layout : s.layout = .key) {env : KvEnv}
    (kept : ∀ t, s.atStep env t = s) (q : String) (t : Nat) (codes : List String) :
    listKeys env q s t (codes.map lkey) = (codes.filterMap (s.shows q), s) := by
  induction codes generalizing t with
  | nil => rfl
  | cons c codes ih =>
      have row_eq : (s.kv.get (lkey c)).bind decVal = s.row c := by
        simp only [row, kvGet, layout]
      have counter_eq : s.kv.get (hkey c) = s.counter c := by
        simp only [counter, layout]
      rw [List.map_cons, listKeys, kept, kept, ih, drop_lkey, decodeLossy_encode, decode?_encode,
        Option.getD_some, row_eq, counter_eq, List.filterMap_cons]
      simp only [shows]
      cases s.row c with
      | none => rfl
      | some row =>
          cases fate : skipped q c row.u with
          | true => simp [fate]
          | false => simp [fate]

/-- Every row in the answers is listed. -/
theorem listedFrom_key {s : KvStore} (shelved : s.Shelved) (layout : s.layout = .key) {env : KvEnv}
    (rest : s.AtRest env) {run : ScanRun} (allowed : s.Allowed run) (q : String) :
    s.Delivers run (s.deliveredCodes run) ∧
      s.listedFrom env run q =
        ((s.deliveredCodes run).filterMap (s.showsAt (env.clock 0) q), s) := by
  have mem : ∀ k, k ∈ run.keys ↔ ∃ c, Plain c ∧ s.kvGet c ≠ none ∧ k = lkey c :=
    fun k => (allowed.keys k).trans (mem_linkKeys_key shelved layout k)
  have keyed : run.keys ∈ Set.range (List.map lkey) := by
    rw [Set.range_list_map]
    intro k member
    obtain ⟨c, -, -, same⟩ := (mem k).mp member
    exact ⟨c, same.symm⟩
  obtain ⟨codes, same⟩ := keyed
  have coded : s.deliveredCodes run = codes := by
    simp only [deliveredCodes, layout, ← same, List.filterMap_map, Function.comp_def, drop_lkey,
      decode?_encode]
    exact List.filterMap_some
  rw [coded]
  refine ⟨⟨fun c => ?_, fun c _ => ?_⟩, ?_⟩
  · rw [← List.mem_map_of_injective lkey_injective, same, mem]
    constructor
    · rintro ⟨c', plain, row, coded⟩
      cases lkey_injective coded
      exact ⟨plain, row⟩
    · rintro ⟨plain, row⟩
      exact ⟨c, plain, row, rfl⟩
  · rw [delivered, layout, ← same]
    exact (List.count_map_of_injective codes lkey lkey_injective c).symm
  · have shown : s.showsAt (env.clock 0) q = s.shows q := by
      funext c
      simp [showsAt, layout]
    rw [listedFrom, rest.kept, layout, ← same, shown]
    exact listKeys_eq layout rest.kept q 1 codes

/-! ### Fields -/

theorem stripHits_hits (code : String) : stripHits ("h:" ++ code) = some code := by
  have split : ("h:" ++ code).toList = "h:".toList ++ code.toList := String.toList_append
  rw [stripHits, if_pos, split]
  · rw [List.drop_left' (by decide), String.ofList_toList]
  · rw [List.isPrefixOf_iff_prefix, split]
    exact List.prefix_append _ _

theorem decode_hfield (code : String) : decode? (hfield code) = some ("h:" ++ code) := by
  have encoded : hfield code = encode ("h:" ++ code) := by
    simp [hfield, encode, String.toList_append]
  rw [encoded, decode?_encode]

theorem stripHits_plain {c : String} (plain : Plain c) : stripHits c = none := by
  rw [stripHits, if_neg]
  rw [List.isPrefixOf_iff_prefix]
  rintro ⟨rest, same⟩
  refine not_hits_of_plain plain ⟨encode (String.ofList rest), ?_⟩
  simp [encode, ← same]

/-- The field of a counter. -/
theorem gather_hits (q : String) (acc : Gathered) (now : Int64) (code : String) (v : Bytes) :
    gather q acc now (hfield code, v) =
      { acc with hits := acc.hits.insert code (hitCount (some v)) } := by
  rw [gather, decode_hfield]
  simp only [stripHits_hits]

/-- The link that a row shows before its hits are known. -/
def bare (s : KvStore) (q code : String) : Option Link :=
  (s.row code).bind fun row => if skipped q code row.u then none else some (row.link code 0)

/-- The field of a row. -/
theorem gather_row (s : KvStore) (q : String) (acc : Gathered) (now : Int64) {c : String}
    (plain : Plain c) {v : Bytes} (held : s.kvGet c = some v) :
    gather q acc now (encode c, v) =
      { acc with
        items := acc.items ++ (if s.expired now c then none else s.bare q c).toList } := by
  have row_eq : s.row c = decVal v := by
    rw [KvStore.row, held]
    rfl
  rw [gather, decode?_encode]
  simp only [stripHits_plain plain, expired, bare, row_eq]
  cases decVal v with
  | none => simp
  | some row =>
      simp only [Option.any_some, Option.bind_some]
      split
      · simp
      · split
        · simp
        · rfl

theorem codeOf_encode {c : String} (plain : Plain c) : codeOf (encode c) = some c := by
  rw [codeOf, decode?_encode, Option.filter_some, stripHits_plain plain]
  rfl

theorem codeOf_hfield (code : String) : codeOf (hfield code) = none := by
  rw [codeOf, decode_hfield, Option.filter_some, stripHits_hits]
  rfl

/-- What a field of the hash layout is. -/
inductive IsField (s : KvStore) : Bytes × Bytes → Prop
  | row {c : String} {v : Bytes} (plain : Plain c) (held : s.kvGet c = some v) :
      IsField s (encode c, v)
  | hits {c : String} {v : Bytes} (plain : Plain c) (held : s.counter c = some v) :
      IsField s (hfield c, v)

theorem Shelved.isField {s : KvStore} (shelved : s.Shelved) {b f v : Bytes}
    (found : s.kv.hget b f = some v) : IsField s (f, v) := by
  obtain ⟨layout, c, plain, rfl, rfl | rfl⟩ := shelved.fields b f v found
  · refine .row plain ?_
    rwa [kvGet, layout]
  · refine .hits plain ?_
    rwa [counter, layout]

section Fields

variable {s : KvStore} (env : KvEnv) (q : String)

/-- The rows among the fields are shown, in their order. -/
theorem items_gather
    (steady : ∀ t c, Plain c → s.expired (env.clock t) c = s.expired (env.clock 0) c)
    {fields : List (Bytes × Bytes)} (known : ∀ fv ∈ fields, IsField s fv)
    (acc : Gathered) (n : Nat) :
    ((fields.zipIdx n).foldl (fun acc field => gather q acc (env.clock field.2) field.1)
        acc).items =
      acc.items ++ ((fields.map Prod.fst).filterMap codeOf).filterMap fun c =>
        if s.expired (env.clock 0) c then none else s.bare q c := by
  induction fields generalizing acc n with
  | nil => simp
  | cons fv fields ih =>
      have later := ih fun other member => known other (List.mem_cons_of_mem _ member)
      rw [List.zipIdx_cons, List.foldl_cons, later]
      cases known fv List.mem_cons_self with
      | row plain held =>
          rw [gather_row s q acc _ plain held, steady _ _ plain, List.map_cons, List.filterMap_cons,
            codeOf_encode plain, List.filterMap_cons]
          cases (if s.expired (env.clock 0) _ then none else s.bare q _ : Option Link) with
          | none => simp
          | some link => simp
      | hits plain held =>
          rw [gather_hits, List.map_cons, List.filterMap_cons, codeOf_hfield]

/-- The counters among the fields are kept by code. -/
theorem hits_gather {fields : List (Bytes × Bytes)} (known : ∀ fv ∈ fields, IsField s fv)
    (acc : Gathered) (n : Nat) (c : String) :
    ((fields.zipIdx n).foldl (fun acc field => gather q acc (env.clock field.2) field.1)
        acc).hits.lookup c =
      if hfield c ∈ fields.map Prod.fst then some (hitCount (s.counter c))
      else acc.hits.lookup c := by
  induction fields generalizing acc n with
  | nil => rfl
  | cons fv fields ih =>
      have later := ih fun other member => known other (List.mem_cons_of_mem _ member)
      rw [List.zipIdx_cons, List.foldl_cons, later]
      cases known fv List.mem_cons_self with
      | row plain held =>
          have other : hfield c ≠ encode _ := Ne.symm (encode_ne_hfield plain c)
          rw [gather_row s q acc _ plain held]
          simp only [List.map_cons, List.mem_cons, other, false_or]
      | @hits code v plain held =>
          rw [gather_hits, Map.lookup_insert_eq]
          simp only [List.map_cons, List.mem_cons, hfield_injective.eq_iff]
          by_cases same : c = code
          · subst same
            simp [held]
          · simp only [same, false_or, if_false]

end Fields

/-- A code or a counter is in one bucket only. -/
theorem Shelved.bucket_unique {s : KvStore} (shelved : s.Shelved) {b b' f v v' : Bytes}
    (found : s.kv.hget b f = some v) (found' : s.kv.hget b' f = some v') : b = b' := by
  obtain ⟨-, c, plain, rfl, shape⟩ := shelved.fields b f v found
  obtain ⟨-, c', plain', rfl, shape'⟩ := shelved.fields b' f v' found'
  rcases shape with rfl | rfl
  · rcases shape' with same | same
    · rw [encode_injective same]
    · exact absurd same (encode_ne_hfield plain c')
  · rcases shape' with same | same
    · exact absurd same.symm (encode_ne_hfield plain' c)
    · rw [hfield_injective same]

theorem link_prefix_bkey (c : String) (buckets : Buckets) : encode "l:" <+: bkey c buckets := by
  rw [bkey, itoa_eq]
  exact List.prefix_append _ _

theorem linkKeys_hash {s : KvStore} (shelved : s.Shelved) (layout : s.layout = .hash) :
    s.kv.linkKeys = (s.kv.hashes.keys.filter fun b => !(s.kv.bucket b).pairs.isEmpty).filter
      (encode "l:").isPrefixOf := by
  have no_strings : s.kv.strings.keys = [] := by
    rw [List.eq_nil_iff_forall_not_mem]
    intro k member
    obtain ⟨st, found⟩ := Option.ne_none_iff_exists'.mp
      (Map.mem_iff_lookup.mp (AList.mem_keys.mp member))
    have keyed := (shelved.strings k st found).1
    rw [layout] at keyed
    cases keyed
  rw [Redis.linkKeys, no_strings, List.nil_append]

/-- The buckets that hold a field are scanned, and no other key. -/
theorem mem_linkKeys_hash {s : KvStore} (shelved : s.Shelved) (layout : s.layout = .hash)
    (b : Bytes) :
    b ∈ s.kv.linkKeys ↔ ∃ f v, s.kv.hget b f = some v := by
  rw [linkKeys_hash shelved layout, List.mem_filter, List.mem_filter]
  constructor
  · rintro ⟨⟨-, filled⟩, -⟩
    cases shape : (s.kv.bucket b).pairs with
    | nil =>
        rw [shape] at filled
        cases filled
    | cons fv rest =>
        have member : fv ∈ (s.kv.bucket b).pairs := by
          rw [shape]
          exact List.mem_cons_self
        exact ⟨fv.1, fv.2, Map.mem_pairs_iff.mp member⟩
  · rintro ⟨f, v, found⟩
    have member : (f, v) ∈ (s.kv.bucket b).pairs := Map.mem_pairs_iff.mpr found
    refine ⟨⟨?_, ?_⟩, ?_⟩
    · rw [← AList.mem_keys, Map.mem_iff_lookup]
      intro absent
      rw [Redis.hget, Redis.bucket, absent] at found
      cases found
    · cases shape : (s.kv.bucket b).pairs with
      | nil =>
          rw [shape] at member
          cases member
      | cons fv rest => rfl
    · obtain ⟨-, c, -, rfl, -⟩ := shelved.fields b f v found
      exact List.isPrefixOf_iff_prefix.mpr (link_prefix_bkey c s.buckets)

def scannedFields (scan : Scan) (s : KvStore) : List (Bytes × Bytes) :=
  (scan.keys s.kv.linkKeys).flatMap fun b => scan.fields b (s.kv.bucket b).pairs

theorem mem_fields_iff {s : KvStore} (shelved : s.Shelved) (layout : s.layout = .hash)
    {run : ScanRun} (allowed : s.Allowed run) (f v : Bytes) :
    (f, v) ∈ run.fields.flatMap Prod.snd ↔ ∃ b, s.kv.hget b f = some v := by
  rw [List.mem_flatMap]
  constructor
  · rintro ⟨answer, among, member⟩
    exact ⟨answer.1,
      Map.mem_pairs_iff.mp ((allowed.fields layout answer among (f, v)).mp member)⟩
  · rintro ⟨b, found⟩
    have asked : b ∈ run.fields.map Prod.fst := by
      rw [allowed.buckets layout, allowed.keys, mem_linkKeys_hash shelved layout]
      exact ⟨f, v, found⟩
    obtain ⟨answer, among, rfl⟩ := List.mem_map.mp asked
    exact ⟨answer, among,
      (allowed.fields layout answer among (f, v)).mpr (Map.mem_pairs_iff.mpr found)⟩

theorem encode_of_codeOf {f : Bytes} {c : String} (coded : codeOf f = some c) : f = encode c := by
  have decoded := (Option.filter_eq_some_iff.mp coded).1
  rw [decode?] at decoded
  split at decoded
  · rename_i same
    cases decoded
    exact same.symm
  · cases decoded

theorem codeOf_eq_some_iff {c : String} (plain : Plain c) (f : Bytes) :
    codeOf f = some c ↔ f = encode c := by
  constructor
  · exact encode_of_codeOf
  · rintro rfl
    exact codeOf_encode plain

/-- The codes among the fields. -/
theorem delivers_fields {s : KvStore} (shelved : s.Shelved) (layout : s.layout = .hash)
    {run : ScanRun} (allowed : s.Allowed run) :
    s.Delivers run (s.deliveredCodes run) where
  mem_iff c := by
    simp only [deliveredCodes, layout]
    rw [List.mem_filterMap]
    constructor
    · rintro ⟨f, member, coded⟩
      obtain ⟨⟨f', v⟩, scanned, rfl⟩ := List.mem_map.mp member
      obtain ⟨b, found⟩ := (mem_fields_iff shelved layout allowed f' v).mp scanned
      cases shelved.isField found with
      | row plain held =>
          rw [codeOf_encode plain] at coded
          cases coded
          exact ⟨plain, by simp [held]⟩
      | hits plain held =>
          rw [codeOf_hfield] at coded
          cases coded
    · rintro ⟨plain, row⟩
      obtain ⟨v, held⟩ := Option.ne_none_iff_exists'.mp row
      have found : s.kv.hget (bkey c s.buckets) (encode c) = some v := by
        rwa [kvGet, layout] at held
      have member := (mem_fields_iff shelved layout allowed (encode c) v).mpr ⟨_, found⟩
      exact ⟨encode c, List.mem_map.mpr ⟨_, member, rfl⟩, codeOf_encode plain⟩
  count c plain := by
    simp only [deliveredCodes, delivered, layout]
    rw [List.count_filterMap, List.count]
    refine List.countP_congr fun f _ => ?_
    rw [beq_iff_eq, beq_iff_eq]
    exact codeOf_eq_some_iff plain f

theorem hfield_mem_fields_iff {s : KvStore} (shelved : s.Shelved) (layout : s.layout = .hash)
    {run : ScanRun} (allowed : s.Allowed run) (c : String) :
    hfield c ∈ (run.fields.flatMap Prod.snd).map Prod.fst ↔ s.counter c ≠ none := by
  rw [List.mem_map]
  constructor
  · rintro ⟨⟨f, v⟩, member, rfl⟩
    obtain ⟨b, found⟩ := (mem_fields_iff shelved layout allowed _ v).mp member
    obtain ⟨-, c', plain, rfl, same | same⟩ := shelved.fields _ _ v found
    · exact absurd same.symm (encode_ne_hfield plain c)
    · cases hfield_injective same
      simp only [counter, layout, found, ne_eq, reduceCtorEq, not_false_eq_true]
  · intro counted
    obtain ⟨v, held⟩ := Option.ne_none_iff_exists'.mp counted
    have found : s.kv.hget (bkey c s.buckets) (hfield c) = some v := by
      rwa [counter, layout] at held
    exact ⟨(hfield c, v), (mem_fields_iff shelved layout allowed _ v).mpr ⟨_, found⟩, rfl⟩

/-- The fields of the buckets show the rows that have not expired, with their
counters. -/
theorem listedFrom_hash {s : KvStore} (shelved : s.Shelved) (layout : s.layout = .hash)
    {env : KvEnv} (rest : s.AtRest env) {run : ScanRun} (allowed : s.Allowed run) (q : String) :
    s.Delivers run (s.deliveredCodes run) ∧
      s.listedFrom env run q =
        ((s.deliveredCodes run).filterMap (s.showsAt (env.clock 0) q), s) := by
  refine ⟨delivers_fields shelved layout allowed, ?_⟩
  have known : ∀ fv ∈ run.fields.flatMap Prod.snd, IsField s fv := by
    rintro ⟨f, v⟩ member
    obtain ⟨b, found⟩ := (mem_fields_iff shelved layout allowed f v).mp member
    exact shelved.isField found
  simp only [listedFrom, deliveredCodes, rest.kept, layout]
  refine Prod.ext ?_ rfl
  show listFields env q (run.fields.flatMap Prod.snd) = _
  rw [listFields]
  have filled : ∀ c, ((if s.counter c ≠ none then some (hitCount (s.counter c))
      else AList.lookup c (∅ : Map String Int64)).getD 0) = hitCount (s.counter c) := by
    intro c
    cases s.counter c with
    | none => rfl
    | some v => rfl
  simp only [items_gather env q rest.steady known, hits_gather env q known,
    hfield_mem_fields_iff shelved layout allowed, filled, List.nil_append, List.map_filterMap]
  refine List.filterMap_congr fun c _ => ?_
  cases fate : s.expired (env.clock 0) c with
  | true => simp [showsAt, layout, fate]
  | false =>
      simp only [showsAt, layout, fate, bare, shows]
      cases s.row c with
      | none => rfl
      | some row =>
          simp only [Option.bind_some]
          cases skipped q c row.u with
          | true => rfl
          | false => rfl

/-- In either layout a listing shows every row in the answers with its counter. -/
theorem listedFrom_spec {s : KvStore} (shelved : s.Shelved) {env : KvEnv} (rest : s.AtRest env)
    {run : ScanRun} (allowed : s.Allowed run) (q : String) :
    s.Delivers run (s.deliveredCodes run) ∧
      s.listedFrom env run q =
        ((s.deliveredCodes run).filterMap (s.showsAt (env.clock 0) q), s) := by
  cases layout : s.layout with
  | hash => exact listedFrom_hash shelved layout rest allowed q
  | key => exact listedFrom_key shelved layout rest allowed q

/-! ### Scans that return everything once -/

theorem scannedFields_eq (scan : Scan) (s : KvStore) :
    s.scannedFields scan = (scan.run s.kv).fields.flatMap Prod.snd := by
  rw [scannedFields, Scan.run, List.flatMap_map]

theorem listed_eq (env : KvEnv) (scan : Scan) (s : KvStore) (q : String) :
    s.listed env scan q = s.listedFrom env (scan.run (s.atStep env 0).kv) q := by
  rw [listed, listedFrom]
  simp only [← scannedFields_eq]
  rfl

theorem Scan.Once.allowed {scan : Scan} (once : scan.Once) (s : KvStore) :
    s.Allowed (scan.run s.kv) where
  keys k := (once.keys s.kv.linkKeys).mem_iff
  buckets _ := by
    rw [Scan.run, List.map_map]
    exact List.map_id _
  fields _ answer among fv := by
    obtain ⟨b, -, rfl⟩ := List.mem_map.mp among
    exact (once.fields b _).mem_iff

/-- Without expiries nothing expires. -/
theorem Filed.expired_eq {s : KvStore} (filed : s.Filed) (now : Int64) {c : String}
    (plain : Plain c) : s.expired now c = false := by
  rw [expired, KvStore.row]
  cases held : s.kvGet c with
  | none => rfl
  | some v =>
      obtain ⟨row, decoded, eternal⟩ := filed.rows c v plain held
      rw [Option.bind_some, decoded, Option.any_some, eternal]
      rfl

theorem Filed.atRest {s : KvStore} (filed : s.Filed) (env : KvEnv) : s.AtRest env where
  kept := filed.atStep_eq env
  steady t c plain := by
    rw [filed.expired_eq _ plain, filed.expired_eq _ plain]

/-- No field is returned twice. -/
theorem nodup_scannedFields {s : KvStore} (shelved : s.Shelved) (layout : s.layout = .hash)
    {scan : Scan} (once : scan.Once) : ((s.scannedFields scan).map Prod.fst).Nodup := by
  rw [scannedFields, List.map_flatMap, List.nodup_flatMap]
  constructor
  · intro b _
    rw [((once.fields b _).map Prod.fst).nodup_iff]
    exact (s.kv.bucket b).nodup_pairs_keys
  · have nodup : (scan.keys s.kv.linkKeys).Nodup := by
      rw [(once.keys _).nodup_iff, linkKeys_hash shelved layout]
      exact (s.kv.hashes.keys_nodup.filter _).filter _
    refine nodup.imp fun {b b'} other f here there => other ?_
    obtain ⟨⟨f₁, v⟩, member, rfl⟩ := List.mem_map.mp here
    obtain ⟨⟨f₂, v'⟩, member', rfl⟩ := List.mem_map.mp there
    exact shelved.bucket_unique (Map.mem_pairs_iff.mp ((once.fields b _).mem_iff.mp member))
      (Map.mem_pairs_iff.mp ((once.fields b' _).mem_iff.mp member'))

theorem delivered_le_one {s : KvStore} (shelved : s.Shelved) {scan : Scan} (once : scan.Once)
    (c : String) : s.delivered (scan.run s.kv) c ≤ 1 := by
  rw [delivered]
  cases layout : s.layout with
  | hash =>
      have nodup := nodup_scannedFields shelved layout once
      rw [scannedFields_eq] at nodup
      exact List.nodup_iff_count_le_one.mp nodup (encode c)
  | key =>
      have nodup : (scan.keys s.kv.linkKeys).Nodup := by
        rw [(once.keys _).nodup_iff, linkKeys_key shelved layout]
        exact s.kv.strings.keys_nodup.filter _
      exact List.nodup_iff_count_le_one.mp nodup (lkey c)

/-- In either layout a listing shows every code that has a row, with its
counter, once. -/
theorem listed_spec {s : KvStore} (filed : s.Filed) (env : KvEnv) {scan : Scan} (once : scan.Once)
    (q : String) :
    ∃ codes, s.Lists codes ∧ s.listed env scan q = (codes.filterMap (s.shows q), s) := by
  obtain ⟨delivers, found⟩ :=
    listedFrom_spec filed.shelved (filed.atRest env) (Scan.Once.allowed once s) q
  refine ⟨_, ⟨?_, delivers.mem_iff⟩, ?_⟩
  · rw [List.nodup_iff_count_le_one]
    intro c
    by_cases listed : c ∈ s.deliveredCodes (scan.run s.kv)
    · rw [delivers.count c ((delivers.mem_iff c).mp listed).1]
      exact delivered_le_one filed.shelved once c
    · rw [List.count_eq_zero_of_not_mem listed]
      exact Nat.zero_le 1
  · rw [listed_eq, filed.atStep_eq, found]
    refine Prod.ext (List.filterMap_congr fun c listed => ?_) rfl
    rw [showsAt, filed.expired_eq _ ((delivers.mem_iff c).mp listed).1, Bool.and_false]
    rfl

end KvStore

end Shrt.Kv
