import Mathlib.Data.List.Basic
import Mathlib.Data.List.Nodup
import Shrt.Kv.Delivered
import Shrt.Rocks.Listing
import Shrt.Store.Pages

/-!
# Listing by the time of creation

The in-process store sorts what it lists by the time of creation unless it is
asked for hits.  The other backends sort by hits only, and leave the links as the
server returns them or as their keys stand in the database.  So their pages are
those of the in-process store only where that order happens to be the right one.
-/

namespace Shrt.Backends

open Shrt.Codec Shrt.Lib Shrt.Lib.Utf8 Shrt.Lib.Pages Shrt.Kv
open Shrt.Store (Inner Env Link Entry)
open Shrt.Rocks (RocksStore RocksEnv)

/-! ## One corpus -/

/-- No two links were created at the same time. -/
def TimesDiffer (t : Inner) : Prop :=
  ∀ c c' e e', t.index.lookup c = some e → t.index.lookup c' = some e' → e.a = e'.a → c = c'

/-- The in-process store and the server hold the same links with the same hits. -/
structure SameAsKv (t : Inner) (s : KvStore) : Prop where
  plain : ∀ c, c ∈ t.index → Plain c
  links : ∀ c, Plain c → (t.index.lookup c).map (Entry.link c) =
    (s.row c).map fun row => row.link c (hitCount (s.counter c))

/-- The in-process store and the database hold the same links with the same hits. -/
def SameAsRocks (t : Inner) (s : RocksStore) : Prop :=
  ∀ c, (t.index.lookup c).map (Entry.link c) =
    (s.stored c).map fun row => row.link c (s.hitsOf c)

/-! ## What is asked of a page -/

/-- The newest links come first, and if no two were created at the same time the
page is that of the in-process store. -/
structure Honoured (t : Inner) (page own : List Link) : Prop where
  descending : page.Pairwise fun a b => b.createdAt ≤ a.createdAt
  same : TimesDiffer t → page = own

/-- The links are found in the right order as far as the window shows them: the
one at every place has as many newer ones in the corpus as the place says or,
where some links are of the same age, none is found before a newer one. -/
structure NewestFirst (t : Inner) (found all : List Link) (limit offset : Nat) : Prop where
  ranked : TimesDiffer t → ∀ i, offset ≤ i → i < offset + limit →
    i < found.length ∨ i < all.length →
      ∃ link, found[i]? = some link ∧ rank Link.createdAt all link = i
  tied : ¬ TimesDiffer t → ∀ i j, offset ≤ i → i < j → j < offset + limit →
    ∀ a b, found[i]? = some a → found[j]? = some b → b.createdAt ≤ a.createdAt

theorem nodup_createdAt {t : Inner} (differ : TimesDiffer t) (env : Env) (q : String) :
    ((t.gathered env q).map Link.createdAt).Nodup := by
  have codes := List.pairwise_map.mp (t.nodup_gathered env q)
  refine List.pairwise_map.mpr (codes.imp_of_mem ?_)
  intro a b here there other same
  obtain ⟨c, e, found, -, rfl⟩ := (t.mem_gathered_iff env q a).mp here
  obtain ⟨c', e', found', -, rfl⟩ := (t.mem_gathered_iff env q b).mp there
  exact other (differ c c' e e' found found' same)

/-- The page of a backend that shows what it found as it found it. -/
theorem honoured_iff {t : Inner} {env : Env} {q : String} {found : List Link}
    (known : ∀ link ∈ found, link ∈ t.gathered env q) (limit offset : Nat) :
    Honoured t (slice found limit offset) (t.list env limit offset ("created" == "hits") q).1 ↔
      NewestFirst t found (t.gathered env q) limit offset := by
  have own : (t.list env limit offset ("created" == "hits") q).1 =
      slice (byKey Link.createdAt (t.gathered env q)) limit offset := by
    rw [Inner.list_eq]
    rfl
  rw [own]
  constructor
  · intro honoured
    constructor
    · intro differ
      exact (slice_eq_slice_byKey_iff known (nodup_createdAt differ env q) limit offset).mp
        (honoured.same differ)
    · intro _
      exact (pairwise_slice_iff _ found limit offset).mp honoured.descending
  · intro ordered
    have same : TimesDiffer t →
        slice found limit offset = slice (byKey Link.createdAt (t.gathered env q)) limit offset :=
      fun differ => (slice_eq_slice_byKey_iff known (nodup_createdAt differ env q) limit offset).mpr
        (ordered.ranked differ)
    refine ⟨?_, same⟩
    by_cases differ : TimesDiffer t
    · rw [same differ]
      exact (pairwise_byKey Link.createdAt (t.gathered env q)).sublist
        ((List.take_sublist _ _).trans (List.drop_sublist _ _))
    · exact (pairwise_slice_iff _ found limit offset).mpr (ordered.tied differ)

/-! ## The two backends -/

/-- What a listing over the server finds: the matching rows in the order of the
answers. -/
def kvOrder (s : KvStore) (run : ScanRun) (now : Int64) (q : String) : List Link :=
  (s.deliveredCodes run).filterMap (s.showsAt now q)

/-- What a listing of the database finds: the matching rows in the order of their
keys. -/
def rocksOrder (s : RocksStore) (now : Int64) (q : String) : List Link :=
  s.iterated.filterMap (s.listRow q now)

/-- A row that the corpus holds too is among those that the in-process store gathers. -/
theorem mem_gathered_of_row {t : Inner} (env : Env) {q c : String} {row : Row} {hits : Int64}
    (link : (t.index.lookup c).map (Entry.link c) = some (row.link c hits))
    (kept : skipped q c row.u = false) : row.link c hits ∈ t.gathered env q := by
  obtain ⟨e, found, same⟩ := Option.map_eq_some_iff.mp link
  have url : e.u = row.u := congrArg Link.url same
  exact (t.mem_gathered_iff env q _).mpr
    ⟨c, e, found, (Inner.not_skipped_iff q c e).mp (by rw [url]; exact kept), same.symm⟩

theorem kvOrder_known {t : Inner} {s : KvStore} (same : SameAsKv t s) (env : Env) {run : ScanRun}
    (delivers : s.Delivers run (s.deliveredCodes run)) (now : Int64) (q : String) :
    ∀ link ∈ kvOrder s run now q, link ∈ t.gathered env q := by
  intro link among
  obtain ⟨c, listed, shown⟩ := List.mem_filterMap.mp among
  have plain := ((delivers.mem_iff c).mp listed).1
  rw [KvStore.showsAt] at shown
  split at shown
  · cases shown
  · obtain ⟨row, found, kept, rfl⟩ := KvStore.shows_eq_some_iff.mp shown
    refine mem_gathered_of_row env ?_ kept
    rw [same.links c plain, found]
    rfl

theorem rocksOrder_known {t : Inner} {s : RocksStore} (same : SameAsRocks t s) (env : Env)
    (order : IterOrder String Int64) (now : Int64) (q : String) :
    ∀ link ∈ rocksOrder (s.flushHits order) now q, link ∈ t.gathered env q := by
  intro link among
  obtain ⟨⟨k, v⟩, visited, shown⟩ := List.mem_filterMap.mp among
  have found := (RocksStore.mem_iterated_iff _ _).mp visited
  obtain ⟨c, row, named, decoded, -, kept, rfl⟩ := RocksStore.listRow_eq_some_iff.mp shown
  refine mem_gathered_of_row env ?_ kept
  have stored : s.stored c = some row := by
    rw [RocksStore.stored, decode?_eq_some_iff.mp named]
    exact Option.bind_eq_some_iff.mpr ⟨v, found, decoded⟩
  rw [same c, stored, RocksStore.hitsOf_flushHits]
  rfl

theorem kv_honoured_iff (t : Inner) (env : Env) {s : KvStore} {kvEnv : KvEnv} {run : ScanRun}
    (shelved : s.Shelved) (rest : s.AtRest kvEnv) (allowed : s.Allowed run) (same : SameAsKv t s)
    (limit offset : Nat) (q : String) :
    Honoured t (s.listFrom kvEnv run limit offset "created" q).1.1
        (t.list env limit offset ("created" == "hits") q).1 ↔
      NewestFirst t (kvOrder s run (kvEnv.clock 0) q) (t.gathered env q) limit offset := by
  obtain ⟨delivers, found⟩ := KvStore.listedFrom_spec shelved rest allowed q
  have page : (s.listFrom kvEnv run limit offset "created" q).1.1 =
      slice (kvOrder s run (kvEnv.clock 0) q) limit offset := by
    rw [KvStore.listFrom, found]
    rfl
  rw [page]
  exact honoured_iff (kvOrder_known same env delivers _ q) limit offset

theorem rocks_honoured_iff (t : Inner) (env : Env) {s : RocksStore}
    (order : IterOrder String Int64) {rocksEnv : RocksEnv} (rest : s.AtRest rocksEnv)
    (same : SameAsRocks t s) (limit offset : Nat) (q : String) :
    Honoured t (s.list order rocksEnv limit offset "created" q).1.1
        (t.list env limit offset ("created" == "hits") q).1 ↔
      NewestFirst t (rocksOrder (s.flushHits order) (rocksEnv.clock 0) q) (t.gathered env q)
        limit offset := by
  have flushed : (s.flushHits order).AtRest rocksEnv := rest
  have page : (s.list order rocksEnv limit offset "created" q).1.1 =
      slice (rocksOrder (s.flushHits order) (rocksEnv.clock 0) q) limit offset := by
    rw [RocksStore.list, rocksOrder, ← RocksStore.listed_eq flushed]
    rfl
  rw [page]
  exact honoured_iff (rocksOrder_known same env order _ q) limit offset

/-- A page by the time of creation is right exactly when the server's answers, or
the keys of the database, have the links in the right order already. -/
theorem created_honoured_iff (t : Inner) (env : Env) (limit offset : Nat) (q : String) :
    (∀ (s : KvStore) (kvEnv : KvEnv) (run : ScanRun),
        s.Shelved → s.AtRest kvEnv → s.Allowed run → SameAsKv t s →
          (Honoured t (s.listFrom kvEnv run limit offset "created" q).1.1
              (t.list env limit offset ("created" == "hits") q).1 ↔
            NewestFirst t (kvOrder s run (kvEnv.clock 0) q) (t.gathered env q) limit offset)) ∧
      ∀ (s : RocksStore) (order : IterOrder String Int64) (rocksEnv : RocksEnv),
        s.AtRest rocksEnv → SameAsRocks t s →
          (Honoured t (s.list order rocksEnv limit offset "created" q).1.1
              (t.list env limit offset ("created" == "hits") q).1 ↔
            NewestFirst t (rocksOrder (s.flushHits order) (rocksEnv.clock 0) q)
              (t.gathered env q) limit offset) :=
  ⟨fun _ _ _ shelved rest allowed same =>
      kv_honoured_iff t env shelved rest allowed same limit offset q,
    fun _ order _ rest same => rocks_honoured_iff t env order rest same limit offset q⟩

/-! ## Two links -/

def ann : Alias := ⟨"ann", by decide⟩

def bob : Alias := ⟨"bob", by decide⟩

/-- Two links, the second one newer, in the in-process store. -/
def localOf (first second : Alias) : Inner :=
  (((Inner.new (.at 0 []) .empty 0 false).1.create .empty first.val "https://a.example" 1000 0).1.create
    .empty second.val "https://b.example" 2000 0).1

def kvOf (first second : Alias) : KvStore :=
  (KvStore.fresh 0 .key eightBuckets 100 0).run
    [(.at 1000 [], .shorten "https://a.example" (some first) 0),
      (.at 2000 [], .shorten "https://b.example" (some second) 0)]

def rocksOf (first second : Alias) : RocksStore :=
  ((RocksStore.fresh 100 0).step 0
    (⟨fun _ => 1000⟩, .shorten [] "https://a.example" (some first) 0)).step 0
      (⟨fun _ => 2000⟩, .shorten [] "https://b.example" (some second) 0)

/-- Answers that hold these keys in this order. -/
def answers (codes : List String) : ScanRun where
  keys := codes.map lkey
  fields := []

theorem shelved_kvOf (first second : Alias) : (kvOf first second).Shelved :=
  KvStore.shelved_run _ _ _ _ _ fun call among => by
    rcases List.mem_pair.mp among with rfl | rfl
    · trivial
    · trivial

theorem allowed_answers {s : KvStore} (layout : s.layout = .key) {codes : List String}
    (there : s.kv.linkKeys.Perm (codes.map lkey)) : s.Allowed (answers codes) where
  keys _ := there.mem_iff.symm
  buckets hashed := nomatch layout.symm.trans hashed
  fields hashed := nomatch layout.symm.trans hashed

theorem keys_localOf : (localOf bob ann).index.keys = ["ann", "bob"] := by
  decide +kernel

theorem sameAsKv_bobAnn : SameAsKv (localOf bob ann) (kvOf bob ann) where
  plain c there := by
    have listed : c ∈ (localOf bob ann).index.keys := there
    rw [keys_localOf, List.mem_pair] at listed
    rcases listed with rfl | rfl
    · exact .of_codeOk ann.property
    · exact .of_codeOk bob.property
  links c _ := by
    by_cases isAnn : c = "ann"
    · subst isAnn
      decide +kernel
    by_cases isBob : c = "bob"
    · subst isBob
      decide +kernel
    have only : (kvOf bob ann).kv.strings.keys = [lkey "ann", lkey "bob"] := by decide +kernel
    have absent : (kvOf bob ann).kv.strings.lookup (lkey c) = none :=
      Map.lookup_of_not_mem_keys only fun keyed => by
        rcases List.mem_pair.mp keyed with same | same
        · exact isAnn (lkey_injective same)
        · exact isBob (lkey_injective same)
    have layout : (kvOf bob ann).layout = .key := by decide +kernel
    rw [Map.lookup_of_not_mem_keys keys_localOf (by simp [isAnn, isBob]), KvStore.row,
      KvStore.kvGet, layout]
    simp only [Redis.get, absent]
    rfl

theorem sameAsRocks_bobAnn : SameAsRocks (localOf bob ann) (rocksOf bob ann) := by
  intro c
  by_cases isAnn : c = "ann"
  · subst isAnn
    decide +kernel
  by_cases isBob : c = "bob"
  · subst isBob
    decide +kernel
  have only : (rocksOf bob ann).db.keys = [encode "ann", encode "bob"] := by decide +kernel
  have absent : (rocksOf bob ann).db.lookup (encode c) = none :=
    Map.lookup_of_not_mem_keys only fun keyed => by
      rcases List.mem_pair.mp keyed with same | same
      · exact isAnn (encode_injective same)
      · exact isBob (encode_injective same)
  rw [Map.lookup_of_not_mem_keys keys_localOf (by simp [isAnn, isBob]), RocksStore.stored, absent]
  rfl

/-- Both backends deliver the newer link first, the one as the server answers, the other as
its code is the smaller one. -/
theorem created_honoured_bobAnn :
    (Honoured (localOf bob ann)
        ((kvOf bob ann).listFrom (.at 3000 []) (answers ["ann", "bob"]) 10 0 "created" "").1.1
        ((localOf bob ann).list (.at 0 []) 10 0 ("created" == "hits") "").1 ↔
      NewestFirst (localOf bob ann) (kvOrder (kvOf bob ann) (answers ["ann", "bob"]) 3000 "")
        ((localOf bob ann).gathered (.at 0 []) "") 10 0) ∧
      (Honoured (localOf bob ann)
          ((rocksOf bob ann).list (.stored _ _) ⟨fun _ => 3000⟩ 10 0 "created" "").1.1
          ((localOf bob ann).list (.at 0 []) 10 0 ("created" == "hits") "").1 ↔
        NewestFirst (localOf bob ann) (rocksOrder ((rocksOf bob ann).flushHits (.stored _ _)) 3000 "")
          ((localOf bob ann).gathered (.at 0 []) "") 10 0) :=
  ⟨(created_honoured_iff (localOf bob ann) (.at 0 []) 10 0 "").1 (kvOf bob ann) (.at 3000 [])
      (answers ["ann", "bob"]) (shelved_kvOf bob ann) ((kvOf bob ann).atRest_at 3000 [])
      (allowed_answers (by decide +kernel) (by decide +kernel)) sameAsKv_bobAnn,
    (created_honoured_iff (localOf bob ann) (.at 0 []) 10 0 "").2 (rocksOf bob ann) (.stored _ _)
      ⟨fun _ => 3000⟩ (fun _ _ _ _ => rfl) sameAsRocks_bobAnn⟩

/-- The keys of the database are in the order of their bytes. -/
theorem iterated_annBob : (rocksOf ann bob).iterated =
    [(encode "ann", encVal 0 1000 "https://a.example"),
      (encode "bob", encVal 0 2000 "https://b.example")] := by
  have stored : (rocksOf ann bob).db.pairs =
      [(encode "bob", encVal 0 2000 "https://b.example"),
        (encode "ann", encVal 0 1000 "https://a.example")] := by decide +kernel
  have before : decide (encode "bob" ≤ encode "ann") = false := by decide +kernel
  rw [RocksStore.iterated, stored]
  simp [List.mergeSort, List.MergeSort.Internal.splitInTwo, before]

/-- Neither backend sorts: the older one of two links comes first. -/
theorem older_link_first :
    (¬ ∀ (s : KvStore) (env : KvEnv) (run : ScanRun), s.Shelved → s.AtRest env → s.Allowed run →
        ∀ limit offset q, (s.listFrom env run limit offset "created" q).1.1.Pairwise
          fun a b => b.createdAt ≤ a.createdAt) ∧
      ¬ ∀ (s : RocksStore) (order : IterOrder String Int64) (env : RocksEnv), s.AtRest env →
        ∀ limit offset q, (s.list order env limit offset "created" q).1.1.Pairwise
          fun a b => b.createdAt ≤ a.createdAt := by
  have ascending : ∀ {page : List Link}, page.map Link.createdAt = [1000, 2000] →
      ¬ page.Pairwise fun a b => b.createdAt ≤ a.createdAt := by
    intro page times ordered
    have back : (page.map Link.createdAt).Pairwise fun m n => n ≤ m := List.pairwise_map.mpr ordered
    rw [times] at back
    exact absurd back (by decide)
  constructor
  · intro claim
    have ordered := claim (kvOf ann bob) (.at 3000 []) (answers ["ann", "bob"])
      (shelved_kvOf ann bob)
      ((kvOf ann bob).atRest_at 3000 []) (allowed_answers (by decide +kernel) (by decide +kernel)) 10 0 ""
    exact ascending (by decide +kernel) ordered
  · intro claim
    have ordered := claim (rocksOf ann bob) (.stored _ _) ⟨fun _ => 3000⟩ (fun _ _ _ _ => rfl) 10 0 ""
    refine ascending ?_ ordered
    have same : ((rocksOf ann bob).flushHits (.stored _ _)).iterated = (rocksOf ann bob).iterated := rfl
    rw [RocksStore.list, RocksStore.listed, same, iterated_annBob]
    decide +kernel

end Shrt.Backends
