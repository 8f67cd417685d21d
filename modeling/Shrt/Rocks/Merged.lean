import Mathlib.Data.UInt
import Shrt.Lib.Merging
import Shrt.Rocks.Store

/-!
# Counters that are merged in parts

The merge operator of the hits is registered as associative: the database may
merge any neighbouring operands without the counter, at any level and as often as
it likes, before it merges the rest into it.  Each count comes out the same.
-/

namespace Shrt.Rocks.RocksStore

open Shrt.Codec Shrt.Lib Shrt.Lib.LittleEndian Shrt.Lib.Merging Shrt.Lib.Utf8

/-- The eight bytes of a counter as a number; other bytes count as none. -/
def count (v : Bytes) : UInt64 :=
  (fromLeBytes? v).getD 0

theorem counterValue_eq (existing : Option Bytes) :
    counterValue existing = existing.elim 0 count := by
  cases existing with
  | none => rfl
  | some v => rfl

/-- What is not eight bytes adds nothing. -/
theorem sum_count (operands : List Bytes) :
    (operands.map count).sum = (operands.filterMap fromLeBytes?).sum := by
  induction operands with
  | nil => rfl
  | cons op operands ih =>
      rw [List.map_cons, List.sum_cons, ih, count]
      cases read : fromLeBytes? op with
      | none => rw [List.filterMap_cons_none read, Option.getD_none, zero_add]
      | some n => rw [List.filterMap_cons_some read, List.sum_cons, Option.getD_some]

theorem foldl_count (n : UInt64) (operands : List Bytes) :
    operands.foldl (fun n op => (fromLeBytes? op).elim n (n + ·)) n =
      n + (operands.map count).sum := by
  induction operands generalizing n with
  | nil => exact (add_zero n).symm
  | cons op operands ih =>
      rw [List.foldl_cons, ih, List.map_cons, List.sum_cons, ← add_assoc, count]
      cases fromLeBytes? op with
      | none => rw [Option.getD_none, add_zero, Option.elim_none]
      | some m => rw [Option.getD_some, Option.elim_some]

theorem additive_hitsMerge : Additive hitsMerge count toLeBytes where
  merge_eq existing operands := by
    rw [hitsMerge, foldl_count, counterValue_eq, total]
  read_write n := by
    rw [count, fromLeBytes?_toLeBytes, Option.getD_some]

/-- The deltas of one code as they are sent. -/
def sent (deltas : List Int64) : List Bytes :=
  deltas.map fun d => toLeBytes d.toUInt64

/-- The counter as the model keeps it: every delta is merged as it is sent. -/
theorem lookup_merges (hits : Map Bytes Bytes) (code : String) (deltas : List Int64) :
    (deltas.foldl (fun hits d => merge hits code d) hits).lookup (encode code) =
      (sent deltas).foldl (fun v op => some (hitsMerge v [op])) (hits.lookup (encode code)) := by
  induction deltas generalizing hits with
  | nil => rfl
  | cons d deltas ih =>
      rw [List.foldl_cons, ih, merge, Map.lookup_insert_eq, if_pos rfl]
      rfl

/-- The counter that the model keeps is the one that the database reads, however it
merged the operands. -/
theorem lookup_merges_eq (hits : Map Bytes Bytes) (code : String) {deltas : List Int64}
    (some_deltas : deltas ≠ []) {value : Option Bytes}
    (merged : Merged hitsMerge (hits.lookup (encode code), sent deltas) (value, [])) :
    value = (deltas.foldl (fun hits d => merge hits code d) hits).lookup (encode code) := by
  have some_operands : sent deltas ≠ [] := by
    rwa [sent, ne_eq, List.map_eq_nil_iff]
  rw [lookup_merges, additive_hitsMerge.settled some_operands merged,
    additive_hitsMerge.settled some_operands (merged_foldl hitsMerge _ _)]

/-- However the operands are merged in groups, and these in turn, or into the value,
the last merge gives the count of the value and of all operands of eight bytes. -/
theorem hits_merge_grouped {existing value : Option Bytes} {operands left : List Bytes}
    (merged : Merged hitsMerge (existing, operands) (value, left)) :
    hitsMerge value left =
        toLeBytes (counterValue existing + (operands.filterMap fromLeBytes?).sum) ∧
      (operands ≠ [] → left = [] →
        value =
          some (toLeBytes (counterValue existing + (operands.filterMap fromLeBytes?).sum))) := by
  have whole : hitsMerge existing operands =
      toLeBytes (counterValue existing + (operands.filterMap fromLeBytes?).sum) := by
    rw [additive_hitsMerge.merge_eq, total, counterValue_eq, sum_count]
  constructor
  · rw [← whole]
    exact additive_hitsMerge.merge_merged merged
  · rintro some_operands rfl
    rw [← whole]
    exact additive_hitsMerge.settled some_operands merged

/-- A malformed counter, and three operands of which the first two are merged by
themselves, one of them malformed. -/
theorem hits_merge_grouped_malformed :
    hitsMerge (some [7]) [hitsMerge none [toLeBytes 1, [9]], toLeBytes 2] = toLeBytes 3 :=
  (hits_merge_grouped (.single (.operands (some [7]) [] [toLeBytes 1, [9]] [toLeBytes 2]))).1.trans
    (by decide)

end Shrt.Rocks.RocksStore
