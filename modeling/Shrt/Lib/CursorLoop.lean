import Mathlib.Data.List.Basic

/-!
# Loops that follow a cursor

A client asks for page after page and hands back the cursor that came with each, until the
cursor it began with comes again.
-/

namespace Shrt.Lib.CursorLoop

variable {κ α : Type}

/-- What an answer is to the loop: a failure, a reason to leave, or a page with the next
cursor. -/
inductive Turn (κ α : Type) where
  | failed
  | left
  | page (next : κ) (items : List α)

/-- The loop from the `k`-th question on: what was delivered, and whether no question failed.
`none` is a loop that is still asking. -/
def loop [DecidableEq κ] (start : κ) (ask : Nat → κ → Turn κ α) :
    Nat → Nat → κ → Option (List α × Bool)
  | 0, _, _ => none
  | fuel + 1, k, cursor =>
      match ask k cursor with
      | .failed => some ([], false)
      | .left => some ([], true)
      | .page next items =>
          if next = start then some (items, true)
          else (loop start ask fuel (k + 1) next).map fun done => (items ++ done.1, done.2)

/-- The pages that come from the `k`-th question on, and whether no question fails. -/
inductive Delivers (start : κ) (ask : Nat → κ → Turn κ α) :
    Nat → κ → List (List α) → Bool → Prop where
  | failed {k : Nat} {cursor : κ} (asked : ask k cursor = .failed) :
      Delivers start ask k cursor [] false
  | left {k : Nat} {cursor : κ} (asked : ask k cursor = .left) : Delivers start ask k cursor [] true
  | last {k : Nat} {cursor : κ} {items : List α} (asked : ask k cursor = .page start items) :
      Delivers start ask k cursor [items] true
  | more {k : Nat} {cursor next : κ} {items : List α} {pages : List (List α)} {ok : Bool}
      (asked : ask k cursor = .page next items) (goes : next ≠ start)
      (rest : Delivers start ask (k + 1) next pages ok) :
      Delivers start ask k cursor (items :: pages) ok

variable [DecidableEq κ] {start : κ} {ask : Nat → κ → Turn κ α} {k : Nat} {cursor : κ} {ok : Bool}

/-- With more turns than pages the loop ends with what the pages hold. -/
theorem loop_of_delivers {pages : List (List α)} (delivers : Delivers start ask k cursor pages ok)
    {fuel : Nat} (enough : pages.length < fuel) :
    loop start ask fuel k cursor = some (pages.flatten, ok) := by
  induction delivers generalizing fuel with
  | failed asked =>
      obtain ⟨fuel, rfl⟩ := Nat.exists_eq_succ_of_ne_zero (Nat.ne_zero_of_lt enough)
      rw [loop, asked]
      rfl
  | left asked =>
      obtain ⟨fuel, rfl⟩ := Nat.exists_eq_succ_of_ne_zero (Nat.ne_zero_of_lt enough)
      rw [loop, asked]
      rfl
  | last asked =>
      obtain ⟨fuel, rfl⟩ := Nat.exists_eq_succ_of_ne_zero (Nat.ne_zero_of_lt enough)
      rw [loop, asked]
      simp
  | more asked goes rest ih =>
      obtain ⟨fuel, rfl⟩ := Nat.exists_eq_succ_of_ne_zero (Nat.ne_zero_of_lt enough)
      have fewer := Nat.lt_of_succ_lt_succ enough
      rw [loop, asked]
      dsimp only
      rw [if_neg goes, ih fewer]
      rfl

/-- What holds of everything on the pages holds of everything that a loop delivers. -/
theorem forall_mem_of_loop {fuel : Nat} {items : List α} {P : α → Prop}
    (paged : ∀ k cursor next page, ask k cursor = .page next page → ∀ a ∈ page, P a)
    (ended : loop start ask fuel k cursor = some (items, ok)) : ∀ a ∈ items, P a := by
  induction fuel generalizing k cursor items with
  | zero => cases ended
  | succ fuel ih =>
      rw [loop] at ended
      cases asked : ask k cursor with
      | failed =>
          rw [asked] at ended
          cases ended
          exact List.forall_mem_nil P
      | left =>
          rw [asked] at ended
          cases ended
          exact List.forall_mem_nil P
      | page next found =>
          rw [asked] at ended
          dsimp only at ended
          have here := paged k cursor next found asked
          split at ended
          · cases ended
            exact here
          · obtain ⟨⟨later, ok'⟩, went, same⟩ := Option.map_eq_some_iff.mp ended
            cases same
            exact List.forall_mem_append.mpr ⟨here, ih went⟩

end Shrt.Lib.CursorLoop
