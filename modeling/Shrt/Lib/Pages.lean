import Mathlib.Data.List.Basic
import Mathlib.Data.List.Nodup
import Mathlib.Data.List.Perm.Basic
import Mathlib.Data.List.Sort

/-!
# Pages of a sorted list

A list is shown in slices of a limit from an offset.  The slices one behind the
other are the list.  In a list that is sorted by a key the place of an entry is
the number of entries ahead of it.
-/

namespace Shrt.Lib.Pages

variable {α κ : Type}

/-! ## Slices -/

def slice (l : List α) (limit offset : Nat) : List α :=
  (l.drop (min offset l.length)).take limit

theorem slice_eq (l : List α) (limit offset : Nat) :
    slice l limit offset = (l.drop offset).take limit := by
  rw [slice]
  rcases Nat.le_total offset l.length with inside | behind
  · rw [Nat.min_eq_left inside]
  · rw [Nat.min_eq_right behind, List.drop_length, List.drop_of_length_le behind]

theorem getElem?_slice (l : List α) (limit offset i : Nat) :
    (slice l limit offset)[i]? = if i < limit then l[offset + i]? else none := by
  rw [slice_eq, List.getElem?_take]
  split
  · exact List.getElem?_drop
  · rfl

/-- A slice is in order when its places are. -/
theorem pairwise_slice_iff (R : α → α → Prop) (l : List α) (limit offset : Nat) :
    (slice l limit offset).Pairwise R ↔
      ∀ i j, offset ≤ i → i < j → j < offset + limit → ∀ a b, l[i]? = some a → l[j]? = some b →
        R a b := by
  have place : ∀ i, offset ≤ i → i < offset + limit →
      (slice l limit offset)[i - offset]? = l[i]? := by
    intro i low high
    rw [getElem?_slice, if_pos (by omega), Nat.add_sub_cancel' low]
  have size : (slice l limit offset).length ≤ limit := by
    rw [slice]
    exact List.length_take_le _ _
  rw [List.pairwise_iff_getElem]
  constructor
  · intro ordered i j low before high a b first second
    rw [← place i low (by omega), List.getElem?_eq_some_iff] at first
    rw [← place j (by omega) high, List.getElem?_eq_some_iff] at second
    obtain ⟨inside, rfl⟩ := first
    obtain ⟨inside', rfl⟩ := second
    exact ordered _ _ inside inside' (by omega)
  · intro ordered i j inside inside' before
    have high : j < limit := inside'.trans_le size
    refine ordered (offset + i) (offset + j) (Nat.le_add_right _ _) (by omega) (by omega) _ _ ?_ ?_
    · rw [← place (offset + i) (Nat.le_add_right _ _) (by omega), Nat.add_sub_cancel_left]
      exact List.getElem?_eq_getElem inside
    · rw [← place (offset + j) (Nat.le_add_right _ _) (by omega), Nat.add_sub_cancel_left]
      exact List.getElem?_eq_getElem inside'

/-- A slice is empty when the offset is behind the end. -/
theorem slice_eq_nil_iff {limit : Nat} (some_room : 1 ≤ limit) (l : List α) (offset : Nat) :
    slice l limit offset = [] ↔ l.length ≤ offset := by
  rw [slice_eq, List.take_eq_nil_iff, List.drop_eq_nil_iff]
  constructor
  · rintro (none_fit | behind)
    · omega
    · exact behind
  · exact Or.inr

/-- The first pages are the front of the list. -/
theorem flatMap_slice (l : List α) (limit count : Nat) :
    ((List.range count).flatMap fun k => slice l limit (k * limit)) = l.take (count * limit) := by
  induction count with
  | zero => rw [List.range_zero, List.flatMap_nil, Nat.zero_mul, List.take_zero]
  | succ count ih =>
      rw [List.range_succ, List.flatMap_append, ih, List.flatMap_singleton, slice_eq,
        Nat.succ_mul, List.take_add]

/-- The first empty page is the one after `count` pages. -/
def Exhausted (page : Nat → List α) (count : Nat) : Prop :=
  page count = [] ∧ ∀ k < count, page k ≠ []

/-- The pages come to an end, and by then they have shown the list. -/
theorem exists_exhausted {limit : Nat} (some_room : 1 ≤ limit) (l : List α) :
    ∃ count, Exhausted (fun k => slice l limit (k * limit)) count ∧
      ((List.range count).flatMap fun k => slice l limit (k * limit)) = l := by
  have ends : ∃ k, l.length ≤ k * limit := ⟨l.length, Nat.le_mul_of_pos_right _ some_room⟩
  refine ⟨Nat.find ends, ⟨?_, ?_⟩, ?_⟩
  · exact (slice_eq_nil_iff some_room l _).mpr (Nat.find_spec ends)
  · intro k before empty
    exact Nat.find_min ends before ((slice_eq_nil_iff some_room l _).mp empty)
  · rw [flatMap_slice, List.take_of_length_le (Nat.find_spec ends)]

/-! ## Sorted lists -/

section Rank

variable [LT κ] [DecidableLT κ] (key : α → κ)

/-- How many entries are ahead of one. -/
def rank (l : List α) (x : α) : Nat :=
  l.countP fun y => key x < key y

theorem rank_perm {l l' : List α} (same : l.Perm l') (x : α) : rank key l x = rank key l' x :=
  same.countP_eq _

variable {key} [LE κ] [Std.IsLinearOrder κ] [Std.LawfulOrderLT κ]

/-- In a strictly sorted list the place of an entry is its rank. -/
theorem rank_of_getElem? {s : List α} (sorted : s.Pairwise fun a b => key b < key a) {i : Nat}
    {x : α} (there : s[i]? = some x) : rank key s x = i := by
  induction s generalizing i with
  | nil => cases there
  | cons y s ih =>
      obtain ⟨ahead, sorted⟩ := List.pairwise_cons.mp sorted
      cases i with
      | zero =>
          obtain rfl : y = x := Option.some.inj there
          have none_ahead : s.countP (fun z => decide (key y < key z)) = 0 := by
            rw [List.countP_eq_zero]
            intro z among
            rw [decide_eq_true_eq, Std.not_lt]
            exact Std.le_of_lt (ahead z among)
          rw [rank, List.countP_cons_of_neg (by simp [Std.lt_irrefl]), none_ahead]
      | succ i =>
          have inside : s[i]? = some x := there
          have first : key x < key y := ahead x (List.mem_of_getElem? inside)
          rw [rank, List.countP_cons_of_pos (by simpa using first), ← rank, ih sorted inside]

theorem getElem?_iff_rank {s : List α} (sorted : s.Pairwise fun a b => key b < key a) {x : α}
    (among : x ∈ s) (i : Nat) : s[i]? = some x ↔ rank key s x = i := by
  constructor
  · exact rank_of_getElem? sorted
  · rintro rfl
    obtain ⟨j, there⟩ := List.mem_iff_getElem?.mp among
    rw [rank_of_getElem? sorted there, there]

end Rank

section Sorted

variable [LE κ] [DecidableLE κ] (key : α → κ)

/-- The list with the largest keys first. -/
def byKey (l : List α) : List α :=
  l.mergeSort fun a b => key b ≤ key a

theorem byKey_perm (l : List α) : (byKey key l).Perm l :=
  List.mergeSort_perm _ _

variable [Std.IsLinearOrder κ]

theorem pairwise_byKey (l : List α) : (byKey key l).Pairwise fun a b => key b ≤ key a := by
  have trans : ∀ a b c : α, decide (key b ≤ key a) = true → decide (key c ≤ key b) = true →
      decide (key c ≤ key a) = true := by
    intro a b c ab bc
    rw [decide_eq_true_eq] at ab bc ⊢
    exact Std.le_trans bc ab
  have total : ∀ a b : α, (decide (key b ≤ key a) || decide (key a ≤ key b)) = true := by
    intro a b
    rw [Bool.or_eq_true, decide_eq_true_eq, decide_eq_true_eq]
    exact Std.le_total
  exact (List.pairwise_mergeSort trans total l).imp fun ordered => of_decide_eq_true ordered

variable [LT κ] [Std.LawfulOrderLT κ]

variable {key}

/-- Without ties the order is strict. -/
theorem pairwise_lt_byKey {l : List α} (distinct : (l.map key).Nodup) :
    (byKey key l).Pairwise fun a b => key b < key a := by
  have apart : (byKey key l).Pairwise fun a b => key a ≠ key b := by
    have nodup : ((byKey key l).map key).Nodup :=
      (((byKey_perm key l).map key).nodup_iff).mpr distinct
    exact List.pairwise_map.mp nodup
  refine (pairwise_byKey key l).imp₂ ?_ apart
  intro a b ordered other
  exact Std.not_le.mp fun back => other (Std.le_antisymm back ordered)

variable [DecidableLT κ]

/-- A slice of any gathering of entries is the slice of the sorted list exactly
when every place of it holds the entry of that rank. -/
theorem slice_eq_slice_byKey_iff {gathered l : List α} (known : ∀ x ∈ gathered, x ∈ l)
    (distinct : (l.map key).Nodup) (limit offset : Nat) :
    slice gathered limit offset = slice (byKey key l) limit offset ↔
      ∀ i, offset ≤ i → i < offset + limit → i < gathered.length ∨ i < l.length →
        ∃ x, gathered[i]? = some x ∧ rank key l x = i := by
  have sorted := pairwise_lt_byKey distinct
  have perm := byKey_perm key l
  have place : ∀ i, gathered[i]? = (byKey key l)[i]? ↔
      (i < gathered.length ∨ i < l.length →
        ∃ x, gathered[i]? = some x ∧ rank key l x = i) := by
    intro i
    cases found : gathered[i]? with
    | some x =>
        have inside : i < gathered.length := (List.getElem?_eq_some_iff.mp found).1
        have among : x ∈ byKey key l := perm.mem_iff.mpr (known x (List.mem_of_getElem? found))
        rw [eq_comm, getElem?_iff_rank sorted among, rank_perm key perm]
        constructor
        · intro ranked _
          exact ⟨x, rfl, ranked⟩
        · intro ranked
          obtain ⟨y, same, ranked⟩ := ranked (Or.inl inside)
          cases same
          exact ranked
    | none =>
        have outside : gathered.length ≤ i := List.getElem?_eq_none_iff.mp found
        rw [eq_comm, List.getElem?_eq_none_iff, perm.length_eq]
        constructor
        · rintro behind (gathered | more)
          · omega
          · omega
        · intro ranked
          by_contra more
          obtain ⟨x, absent, -⟩ := ranked (Or.inr (not_le.mp more))
          cases absent
  constructor
  · intro same i low high
    have here := congrArg (fun s : List α => s[i - offset]?) same
    simp only [getElem?_slice, if_pos (show i - offset < limit by omega),
      Nat.add_sub_cancel' low] at here
    exact (place i).mp here
  · intro ranked
    apply List.ext_getElem?
    intro j
    rw [getElem?_slice, getElem?_slice]
    split
    · rename_i small
      exact (place (offset + j)).mpr (ranked (offset + j) (Nat.le_add_right _ _) (by omega))
    · rfl

end Sorted

end Shrt.Lib.Pages
