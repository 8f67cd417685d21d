import Mathlib.Data.List.Nodup
import Shrt.Lib.HashMap

/-!
# Maps with a queue of their keys

A map and a queue of its keys are changed together.  The queue holds every key
once, in the order in which the keys came in, so that its head is the oldest.
-/

namespace Shrt.Lib.Queued

variable {κ ν : Type}

/-- The queue holds the keys of the map, the oldest first. -/
structure Tracks (age : κ → Nat) (m : Map κ ν) (order : List κ) : Prop where
  mem_iff : ∀ k, k ∈ order ↔ k ∈ m
  sorted : order.Pairwise fun k k' => age k < age k'

namespace Tracks

variable {age : κ → Nat} {m : Map κ ν} {order : List κ}

theorem nodup (tracks : Tracks age m order) : order.Nodup :=
  tracks.sorted.imp fun older same => absurd older (by rw [same]; exact Nat.lt_irrefl _)

/-- Ages are looked at for the keys that are there only. -/
theorem congr (tracks : Tracks age m order) {age' : κ → Nat}
    (same : ∀ k ∈ order, age' k = age k) : Tracks age' m order where
  mem_iff := tracks.mem_iff
  sorted := tracks.sorted.imp_of_mem fun {k₁ k₂} first second older => by
    rwa [same k₁ first, same k₂ second]

theorem empty (age : κ → Nat) : Tracks age (∅ : Map κ ν) [] where
  mem_iff k := by
    constructor
    · intro among
      cases among
    · intro there
      cases there
  sorted := .nil

theorem length_eq (tracks : Tracks age m order) : order.length = m.entries.length := by
  have same : order.Perm m.keys :=
    (List.perm_ext_iff_of_nodup tracks.nodup m.keys_nodup).mpr tracks.mem_iff
  rw [same.length_eq, Map.length_entries]

/-- The head of the queue is the key that came in longest ago. -/
theorem eq_head_iff {old : κ} (tracks : Tracks age m (old :: order)) (k : κ) :
    k = old ↔ k ∈ m ∧ ∀ k' ∈ m, age k ≤ age k' := by
  have first := (List.pairwise_cons.mp tracks.sorted).1
  have there : old ∈ m := (tracks.mem_iff old).mp List.mem_cons_self
  constructor
  · rintro rfl
    refine ⟨there, fun k' member => ?_⟩
    rcases List.mem_cons.mp ((tracks.mem_iff k').mpr member) with rfl | behind
    · exact Nat.le_refl _
    · exact Nat.le_of_lt (first k' behind)
  · rintro ⟨member, oldest⟩
    rcases List.mem_cons.mp ((tracks.mem_iff k).mpr member) with same | behind
    · exact same
    · exact absurd (first k behind) (Nat.not_lt.mpr (oldest old there))

variable [DecidableEq κ]

/-- A key that is there keeps its place. -/
theorem update (tracks : Tracks age m order) {k : κ} (there : k ∈ m) (v : ν) :
    Tracks age (m.insert k v) order where
  mem_iff k' := by
    rw [tracks.mem_iff, AList.mem_insert]
    constructor
    · exact Or.inr
    · rintro (rfl | kept)
      · exact there
      · exact kept
  sorted := tracks.sorted

/-- A new key goes behind all others. -/
theorem push (tracks : Tracks age m order) {age' : κ → Nat} {k : κ}
    (kept : ∀ k' ∈ order, age' k' = age k') (last : ∀ k' ∈ order, age k' < age' k) (v : ν) :
    Tracks age' (m.insert k v) (order ++ [k]) where
  mem_iff k' := by
    rw [List.mem_append, List.mem_singleton, AList.mem_insert, tracks.mem_iff, or_comm]
  sorted := by
    refine List.pairwise_append.mpr ⟨?_, List.pairwise_singleton _ _, ?_⟩
    · refine tracks.sorted.imp_of_mem fun {k₁ k₂} first second older => ?_
      rwa [kept k₁ first, kept k₂ second]
    · intro k' among k'' new
      rw [List.mem_singleton.mp new, kept k' among]
      exact last k' among

theorem remove (tracks : Tracks age m order) (k : κ) :
    Tracks age (m.erase k) (order.filter fun k' => k' != k) where
  mem_iff k' := by
    rw [List.mem_filter, bne_iff_ne, AList.mem_erase, tracks.mem_iff, and_comm]
  sorted := tracks.sorted.filter _

/-- The oldest key goes first. -/
theorem pop {old : κ} (tracks : Tracks age m (old :: order)) : Tracks age (m.erase old) order where
  mem_iff k := by
    have once := (List.nodup_cons.mp tracks.nodup).1
    rw [AList.mem_erase, ← tracks.mem_iff, List.mem_cons]
    constructor
    · intro among
      exact ⟨fun same => once (same ▸ among), Or.inr among⟩
    · rintro ⟨other, same | among⟩
      · exact absurd same other
      · exact among
  sorted := (List.pairwise_cons.mp tracks.sorted).2

end Tracks

end Shrt.Lib.Queued
