import Mathlib.Data.List.AList

/-!
# Hash maps and their iteration order

A hash map is an association list without repeated keys.  Its iteration
yields every entry once, in an order that nothing may depend on: an
`IterOrder` is any such enumeration.
-/

namespace Shrt.Lib

/-- A finite map from keys to values. -/
abbrev Map (κ ν : Type) := AList fun _ : κ => ν

namespace Map

variable {κ ν : Type} [DecidableEq κ]

def pairs (m : Map κ ν) : List (κ × ν) :=
  m.entries.map fun s => (s.1, s.2)

omit [DecidableEq κ] in
theorem pairs_keys (m : Map κ ν) : m.pairs.map Prod.fst = m.keys := by
  simp [pairs, AList.keys, List.keys]

omit [DecidableEq κ] in
theorem nodup_pairs_keys (m : Map κ ν) : (m.pairs.map Prod.fst).Nodup := by
  rw [pairs_keys]
  exact m.keys_nodup

theorem mem_pairs_iff {m : Map κ ν} {k : κ} {v : ν} :
    (k, v) ∈ m.pairs ↔ m.lookup k = some v := by
  rw [pairs, List.mem_map, ← Option.mem_def, AList.mem_lookup_iff]
  constructor
  · rintro ⟨⟨k', v'⟩, member, same⟩
    cases same
    exact member
  · intro member
    exact ⟨⟨k, v⟩, member, rfl⟩

theorem lookup_insert_eq (m : Map κ ν) (k k' : κ) (v : ν) :
    AList.lookup k' (m.insert k v) = if k' = k then some v else AList.lookup k' m := by
  split
  · rename_i same
    subst same
    exact AList.lookup_insert m
  · rename_i other
    exact AList.lookup_insert_ne other

/-- An insertion drops nothing. -/
theorem lookup_eq_none_of_insert {m : Map κ ν} {k k' : κ} {v : ν}
    (missing : AList.lookup k' (m.insert k v) = none) : AList.lookup k' m = none := by
  rw [lookup_insert_eq] at missing
  split at missing
  · cases missing
  · exact missing

theorem lookup_erase_eq (m : Map κ ν) (k k' : κ) :
    AList.lookup k' (m.erase k) = if k' = k then none else AList.lookup k' m := by
  split
  · rename_i same
    subst same
    exact AList.lookup_erase k' m
  · rename_i other
    exact AList.lookup_erase_ne other

theorem mem_iff_lookup {m : Map κ ν} {k : κ} : k ∈ m ↔ AList.lookup k m ≠ none := by
  rw [← AList.lookup_isSome, Option.isSome_iff_ne_none]

theorem not_mem_iff_lookup {m : Map κ ν} {k : κ} : k ∉ m ↔ AList.lookup k m = none := by
  rw [mem_iff_lookup, not_not]

/-- A map holds nothing under other keys than its own. -/
theorem lookup_of_not_mem_keys {m : Map κ ν} {ks : List κ} {k : κ} (keys : m.keys = ks)
    (other : k ∉ ks) : m.lookup k = none := by
  rwa [← not_mem_iff_lookup, AList.mem_keys, keys]

def eraseAll (m : Map κ ν) (ks : List κ) : Map κ ν :=
  ks.foldl (fun m k => m.erase k) m

theorem lookup_eraseAll (m : Map κ ν) (ks : List κ) (k : κ) :
    (m.eraseAll ks).lookup k = if k ∈ ks then none else m.lookup k := by
  induction ks generalizing m with
  | nil => simp [eraseAll]
  | cons k' ks ih =>
      have tail := ih (m.erase k')
      rw [eraseAll, List.foldl_cons]
      rw [eraseAll] at tail
      rw [tail, lookup_erase_eq]
      by_cases here : k = k'
      · simp [here]
      · simp [here]

/-! ### Sizes -/

omit [DecidableEq κ] in
theorem length_entries (m : Map κ ν) : m.entries.length = m.keys.length := by
  rw [AList.keys, List.keys, List.length_map]

theorem length_insert (m : Map κ ν) (k : κ) (v : ν) :
    (m.insert k v).entries.length =
      if k ∈ m then m.entries.length else m.entries.length + 1 := by
  rw [length_entries, length_entries, AList.keys_insert, List.length_cons, List.length_erase]
  by_cases there : k ∈ m
  · have positive := List.length_pos_of_mem (AList.mem_keys.mp there)
    rw [if_pos (AList.mem_keys.mp there), if_pos there]
    omega
  · rw [if_neg fun listed => there (AList.mem_keys.mpr listed), if_neg there]

theorem length_erase_le (m : Map κ ν) (k : κ) : (m.erase k).entries.length ≤ m.entries.length := by
  rw [length_entries, length_entries, AList.keys_erase]
  exact List.erase_sublist.length_le

theorem length_erase_lt {m : Map κ ν} {k : κ} (there : k ∈ m) :
    (m.erase k).entries.length < m.entries.length := by
  have positive := List.length_pos_of_mem (AList.mem_keys.mp there)
  rw [length_entries, length_entries, AList.keys_erase, List.length_erase,
    if_pos (AList.mem_keys.mp there)]
  omega

theorem length_erase_of_mem {m : Map κ ν} {k : κ} (there : k ∈ m) :
    m.entries.length = (m.erase k).entries.length + 1 := by
  have positive := List.length_pos_of_mem (AList.mem_keys.mp there)
  rw [length_entries, length_entries, AList.keys_erase, List.length_erase,
    if_pos (AList.mem_keys.mp there)]
  omega

theorem length_eraseAll_le (m : Map κ ν) (ks : List κ) :
    (m.eraseAll ks).entries.length ≤ m.entries.length := by
  induction ks generalizing m with
  | nil => exact Nat.le_refl _
  | cons k ks ih => exact Nat.le_trans (ih (m.erase k)) (length_erase_le m k)

theorem length_eraseAll_lt {m : Map κ ν} {ks : List κ} {k : κ} (among : k ∈ ks) (there : k ∈ m) :
    (m.eraseAll ks).entries.length < m.entries.length := by
  induction ks generalizing m with
  | nil => cases among
  | cons k' ks ih =>
      by_cases same : k = k'
      · subst same
        exact Nat.lt_of_le_of_lt (length_eraseAll_le (m.erase k) ks) (length_erase_lt there)
      · have inside : k ∈ ks := by
          rcases List.mem_cons.mp among with here | later
          · exact absurd here same
          · exact later
        exact Nat.lt_of_lt_of_le (ih inside (AList.mem_erase.mpr ⟨same, there⟩))
          (length_erase_le m k')

end Map

/-! ## Searching pairs by key -/

section Pairs

variable {κ ν : Type} [DecidableEq κ]

theorem find?_key_eq_none {l : List (κ × ν)} {k : κ} (absent : k ∉ l.map Prod.fst) :
    l.find? (fun kv => kv.1 = k) = none := by
  rw [List.find?_eq_none]
  intro kv member same
  have key : kv.1 = k := by simpa using same
  exact absent (List.mem_map.mpr ⟨kv, member, key⟩)

theorem find?_key_of_mem {l : List (κ × ν)} (distinct : (l.map Prod.fst).Nodup) {k : κ}
    {v : ν} (member : (k, v) ∈ l) : l.find? (fun kv => kv.1 = k) = some (k, v) := by
  induction l with
  | nil => cases member
  | cons kv l ih =>
      obtain ⟨absent, distinct⟩ := List.nodup_cons.mp distinct
      rcases List.mem_cons.mp member with rfl | later
      · simp
      · have other : kv.1 ≠ k := fun same =>
          absent (List.mem_map.mpr ⟨(k, v), later, same.symm⟩)
        rw [List.find?_cons]
        simp [other, ih distinct later]

end Pairs

/-- An order in which the entries of a map may be visited. -/
structure IterOrder (κ ν : Type) where
  iter : Map κ ν → List (κ × ν)
  perm : ∀ m, (iter m).Perm m.pairs

namespace IterOrder

variable {κ ν : Type}

/-- The order in which the map stores its entries. -/
def stored (κ ν : Type) : IterOrder κ ν where
  iter := Map.pairs
  perm _ := List.Perm.refl _

@[simp] theorem iter_empty (ord : IterOrder κ ν) : ord.iter ∅ = [] :=
  (ord.perm ∅).eq_nil

theorem mem_iter_iff [DecidableEq κ] (ord : IterOrder κ ν) {m : Map κ ν} {k : κ} {v : ν} :
    (k, v) ∈ ord.iter m ↔ m.lookup k = some v := by
  rw [(ord.perm m).mem_iff, Map.mem_pairs_iff]

theorem nodup_keys (ord : IterOrder κ ν) (m : Map κ ν) :
    ((ord.iter m).map Prod.fst).Nodup :=
  ((ord.perm m).map Prod.fst).nodup_iff.mpr m.nodup_pairs_keys

/-- Searching an iteration for a key is a lookup. -/
theorem find?_iter [DecidableEq κ] (ord : IterOrder κ ν) (m : Map κ ν) (k : κ) :
    (ord.iter m).find? (fun kv => kv.1 = k) = (m.lookup k).map fun v => (k, v) := by
  cases found : m.lookup k with
  | none =>
      apply find?_key_eq_none
      intro member
      obtain ⟨⟨k', v⟩, stored, rfl⟩ := List.mem_map.mp member
      rw [ord.mem_iter_iff, found] at stored
      cases stored
  | some v => exact find?_key_of_mem (ord.nodup_keys m) (ord.mem_iter_iff.mpr found)

/-- The same for an iteration that skips some keys. -/
theorem find?_filter_iter [DecidableEq κ] (ord : IterOrder κ ν) (m : Map κ ν)
    (p : κ → Bool) (k : κ) :
    ((ord.iter m).filter fun kv => p kv.1).find? (fun kv => kv.1 = k) =
      if p k then (m.lookup k).map fun v => (k, v) else none := by
  rw [List.find?_filter]
  split
  · rename_i visited
    rw [← ord.find?_iter]
    congr 1
    funext kv
    by_cases same : kv.1 = k
    · simp [same, visited]
    · simp [same]
  · rename_i skipped
    rw [List.find?_eq_none]
    rintro kv - both
    obtain ⟨visited, same⟩ := by simpa using both
    exact skipped (same ▸ visited)

theorem nodup_keys_filter (ord : IterOrder κ ν) (m : Map κ ν) (p : κ × ν → Bool) :
    (((ord.iter m).filter p).map Prod.fst).Nodup :=
  (ord.nodup_keys m).sublist (List.filter_sublist.map _)

end IterOrder

end Shrt.Lib
