import Mathlib.Data.List.Basic
import Mathlib.Data.List.Nodup
import Shrt.Lib.Pages
import Shrt.Store.Engine

/-!
# Pages of the listing

A listing gathers the links that match, in the order in which the map is
visited, sorts them and cuts one page out.  As long as nothing changes in
between, the pages one behind the other show every link that matches once.
-/

namespace Shrt.Store

open Shrt.Lib Shrt.Lib.Pages

def sortKey (byHits : Bool) : Link → Int64 :=
  if byHits then Link.hits else Link.createdAt

def Entry.Matches (q code : String) (e : Entry) : Prop :=
  contains code q = true ∨ contains e.u q = true

namespace Inner

def gathered (env : Env) (s : Inner) (q : String) : List Link :=
  (env.indexOrder.iter s.index).filterMap fun ce =>
    if q ≠ "" && !contains ce.1 q && !contains ce.2.u q then none else some (ce.2.link ce.1)

theorem list_eq (env : Env) (s : Inner) (limit offset : Nat) (byHits : Bool) (q : String) :
    s.list env limit offset byHits q =
      (slice (byKey (sortKey byHits) (s.gathered env q)) limit offset,
        (s.gathered env q).length) := by
  rw [slice, (byKey_perm _ _).length_eq]
  cases byHits with
  | true => rfl
  | false => rfl

theorem not_skipped_iff (q code : String) (e : Entry) :
    (q ≠ "" && !contains code q && !contains e.u q) = false ↔ e.Matches q code := by
  rw [Entry.Matches]
  by_cases all : q = ""
  · subst all
    have everywhere : contains code "" = true := decide_eq_true List.nil_infix
    rw [everywhere]
    simp
  · cases here : contains code q with
    | true => simp
    | false => simp [all]

/-- The entries that match are gathered, and nothing else. -/
theorem mem_gathered_iff (env : Env) (s : Inner) (q : String) (link : Link) :
    link ∈ s.gathered env q ↔
      ∃ code e, s.index.lookup code = some e ∧ e.Matches q code ∧ link = e.link code := by
  rw [gathered, List.mem_filterMap]
  constructor
  · rintro ⟨⟨code, e⟩, visited, shown⟩
    rw [IterOrder.mem_iter_iff] at visited
    split at shown
    · cases shown
    · rename_i kept
      cases shown
      exact ⟨code, e, visited, (not_skipped_iff q code e).mp (Bool.not_eq_true _ ▸ kept), rfl⟩
  · rintro ⟨code, e, found, shown, rfl⟩
    refine ⟨(code, e), (IterOrder.mem_iter_iff _).mpr found, ?_⟩
    rw [if_neg]
    rw [(not_skipped_iff q code e).mpr shown]
    exact Bool.false_ne_true

/-- No code is gathered twice. -/
theorem nodup_gathered (env : Env) (s : Inner) (q : String) :
    ((s.gathered env q).map Link.code).Nodup := by
  have visited := List.pairwise_map.mp (env.indexOrder.nodup_keys s.index)
  rw [gathered]
  refine List.pairwise_map.mpr (List.pairwise_filterMap.mpr (visited.imp ?_))
  rintro ⟨code, e⟩ ⟨code', e'⟩ other link shown link' shown'
  split at shown
  · cases shown
  · split at shown'
    · cases shown'
    · cases shown
      cases shown'
      exact other

/-- The first pages of a listing, one behind the other. -/
def pages (env : Env) (s : Inner) (limit : Nat) (sort q : String) (count : Nat) : List Link :=
  (List.range count).flatMap fun k => (s.list env limit (k * limit) (sort == "hits") q).1

/-- The pages up to the first empty one show every entry that matches once, sorted
as asked, and every call counts them. -/
theorem pages_partition (env : Env) (s : Inner) {limit : Nat} (some_room : 1 ≤ limit)
    (sort q : String) :
    ∃ count, Exhausted (fun k => (s.list env limit (k * limit) (sort == "hits") q).1) count ∧
      ((s.pages env limit sort q count).map Link.code).Nodup ∧
      (∀ link, link ∈ s.pages env limit sort q count ↔
        ∃ code e, s.index.lookup code = some e ∧ e.Matches q code ∧ link = e.link code) ∧
      (s.pages env limit sort q count).Pairwise (fun a b =>
        if sort = "hits" then b.hits ≤ a.hits else b.createdAt ≤ a.createdAt) ∧
      ∀ offset, (s.list env limit offset (sort == "hits") q).2 =
        (s.pages env limit sort q count).length := by
  have perm := byKey_perm (sortKey (sort == "hits")) (s.gathered env q)
  obtain ⟨count, ends, whole⟩ :=
    exists_exhausted some_room (byKey (sortKey (sort == "hits")) (s.gathered env q))
  have shown : s.pages env limit sort q count =
      byKey (sortKey (sort == "hits")) (s.gathered env q) := by
    simp only [pages, list_eq]
    exact whole
  refine ⟨count, ?_, ?_, ?_, ?_, ?_⟩
  · simp only [list_eq]
    exact ends
  · rw [shown, (perm.map Link.code).nodup_iff]
    exact s.nodup_gathered env q
  · intro link
    rw [shown, perm.mem_iff]
    exact s.mem_gathered_iff env q link
  · rw [shown]
    refine (pairwise_byKey (sortKey (sort == "hits")) (s.gathered env q)).imp fun ordered => ?_
    by_cases hits : sort = "hits"
    · rw [if_pos hits]
      simpa [sortKey, hits] using ordered
    · rw [if_neg hits]
      simpa [sortKey, hits] using ordered
  · intro offset
    rw [list_eq, shown, perm.length_eq]

/-- Two links of the same age and without hits. -/
def newborns : Inner :=
  let empty := (Inner.new (.at 0 []) .empty 0 false).1
  ((empty.create .empty "a" "https://a.example" 1000 0).1.create .empty "b"
    "https://b.example" 1000 0).1

/-- Pages of one link show both of them. -/
theorem pages_partition_newborns :
    ∃ count, Exhausted
        (fun k => (newborns.list (.at 0 []) 1 (k * 1) ("hits" == "hits") "").1) count ∧
      (newborns.pages (.at 0 []) 1 "hits" "" count).length = 2 := by
  obtain ⟨count, ends, -, -, -, total⟩ := pages_partition (.at 0 []) newborns le_rfl "hits" ""
  refine ⟨count, ends, (total 0).symm.trans ?_⟩
  decide +kernel

end Inner

end Shrt.Store
