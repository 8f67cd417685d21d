import Mathlib.Data.List.Basic
import Mathlib.Data.List.Nodup
import Mathlib.Logic.Function.Basic
import Shrt.Lib.HashMap

/-!
# A map kept in shards

The entries of a map are spread over smaller maps, and a function of the key says
which of them an entry is in.  Reading and writing at a key is then the same as on one
map.  Visiting the shards one after the other visits every entry once.
-/

namespace Shrt.Lib

/-- The entries of the shards below `n`, shard by shard, each in an order of its own. -/
def visit {κ ν : Type} (orders : Nat → IterOrder κ ν) (n : Nat) (shards : Nat → Map κ ν) :
    List (κ × ν) :=
  (List.range n).flatMap fun i => (orders i).iter (shards i)

/-- The flat map holds what the shards hold, and every key is in the shard of its own. -/
structure Spread {κ ν : Type} [DecidableEq κ] (place : κ → Nat) (shards : Nat → Map κ ν)
    (m : Map κ ν) : Prop where
  same : ∀ k, m.lookup k = (shards (place k)).lookup k
  placed : ∀ i k, k ∈ shards i → place k = i

namespace Spread

variable {κ ν : Type} [DecidableEq κ] {place : κ → Nat} {shards : Nat → Map κ ν} {m : Map κ ν}

theorem empty : Spread place (fun _ => ∅) (∅ : Map κ ν) where
  same _ := rfl
  placed _ k among := absurd among (AList.notMem_empty k)

theorem mem_iff (spread : Spread place shards m) (k : κ) : k ∈ m ↔ k ∈ shards (place k) := by
  rw [Map.mem_iff_lookup, Map.mem_iff_lookup, spread.same]

theorem lookup_placed (spread : Spread place shards m) {i : Nat} {k : κ} {v : ν}
    (found : (shards i).lookup k = some v) : place k = i :=
  spread.placed i k (Map.mem_iff_lookup.mpr (by rw [found]; exact Option.some_ne_none v))

theorem insert (spread : Spread place shards m) (k : κ) (v : ν) :
    Spread place (Function.update shards (place k) ((shards (place k)).insert k v))
      (m.insert k v) := by
  constructor
  · intro k'
    rw [Map.lookup_insert_eq, spread.same]
    rcases eq_or_ne (place k') (place k) with here | elsewhere
    · rw [here, Function.update_self, Map.lookup_insert_eq]
    · have other : k' ≠ k := fun same => elsewhere (congrArg place same)
      rw [Function.update_of_ne elsewhere, if_neg other]
  · intro i k' among
    rcases eq_or_ne i (place k) with rfl | elsewhere
    · rw [Function.update_self] at among
      rcases (AList.mem_insert _).mp among with rfl | old
      · rfl
      · exact spread.placed _ k' old
    · rw [Function.update_of_ne elsewhere] at among
      exact spread.placed i k' among

theorem erase (spread : Spread place shards m) (k : κ) :
    Spread place (Function.update shards (place k) ((shards (place k)).erase k)) (m.erase k) := by
  constructor
  · intro k'
    rw [Map.lookup_erase_eq, spread.same]
    rcases eq_or_ne (place k') (place k) with here | elsewhere
    · rw [here, Function.update_self, Map.lookup_erase_eq]
    · have other : k' ≠ k := fun same => elsewhere (congrArg place same)
      rw [Function.update_of_ne elsewhere, if_neg other]
  · intro i k' among
    rcases eq_or_ne i (place k) with rfl | elsewhere
    · rw [Function.update_self] at among
      exact spread.placed _ k' (AList.mem_erase.mp among).2
    · rw [Function.update_of_ne elsewhere] at among
      exact spread.placed i k' among

theorem mem_visit_iff (spread : Spread place shards m) (orders : Nat → IterOrder κ ν) {n : Nat}
    (bounded : ∀ k, place k < n) {k : κ} {v : ν} :
    (k, v) ∈ visit orders n shards ↔ m.lookup k = some v := by
  rw [visit, List.mem_flatMap, spread.same]
  constructor
  · rintro ⟨i, -, visited⟩
    have found := (orders i).mem_iter_iff.mp visited
    rw [spread.lookup_placed found]
    exact found
  · intro found
    exact ⟨place k, List.mem_range.mpr (bounded k), (orders _).mem_iter_iff.mpr found⟩

theorem nodup_visit (spread : Spread place shards m) (orders : Nat → IterOrder κ ν) (n : Nat) :
    (visit orders n shards).Nodup := by
  rw [visit, List.nodup_flatMap]
  constructor
  · intro i _
    exact ((orders i).nodup_keys (shards i)).of_map
  · refine List.nodup_range.imp fun {i j} apart => ?_
    rintro ⟨k, v⟩ here there
    have at_i := spread.lookup_placed ((orders i).mem_iter_iff.mp here)
    have at_j := spread.lookup_placed ((orders j).mem_iter_iff.mp there)
    exact apart (at_i.symm.trans at_j)

theorem visit_perm (spread : Spread place shards m) (orders : Nat → IterOrder κ ν) {n : Nat}
    (bounded : ∀ k, place k < n) : (visit orders n shards).Perm m.pairs := by
  rw [List.perm_ext_iff_of_nodup (spread.nodup_visit orders n) m.nodup_pairs_keys.of_map]
  rintro ⟨k, v⟩
  rw [spread.mem_visit_iff orders bounded, Map.mem_pairs_iff]

end Spread

/-- Any enumeration of one map is that of some order. -/
theorem IterOrder.exists_iter_eq {κ ν : Type} {m : Map κ ν} {entries : List (κ × ν)}
    (perm : entries.Perm m.pairs) : ∃ ord : IterOrder κ ν, ord.iter m = entries := by
  classical
  refine ⟨⟨fun m' => if m' = m then entries else m'.pairs, fun m' => ?_⟩, if_pos rfl⟩
  split
  · rename_i same
    rw [same]
    exact perm
  · exact List.Perm.refl _

/-- Visiting the shards is visiting the flat map in some order. -/
theorem Spread.exists_order {κ ν : Type} [DecidableEq κ] {place : κ → Nat}
    {shards : Nat → Map κ ν} {m : Map κ ν} (spread : Spread place shards m)
    (orders : Nat → IterOrder κ ν) {n : Nat} (bounded : ∀ k, place k < n) :
    ∃ ord : IterOrder κ ν, ord.iter m = visit orders n shards :=
  IterOrder.exists_iter_eq (spread.visit_perm orders bounded)

end Shrt.Lib
