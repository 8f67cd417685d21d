import Mathlib.Data.List.Basic
import Shrt.Rocks.Store

/-!
# The compaction filter

The database calls a filter for every row it compacts.  The filter parses the
expiry of a row by its own means: whatever stands in front of the first bar.
In the tagged format that is the version tag and no number, so the filter keeps
every row that the store writes.  Rows of the older formats it drops exactly
when a read would.
-/

namespace Shrt.Rocks

open Shrt.Codec Shrt.Lib Shrt.Lib.Utf8 Shrt.Lib.Decimal Shrt.Kv

/-- What a compaction does with a row. -/
inductive Decision where
  | keep
  | remove
  deriving DecidableEq, Repr

/-- `expired_filter`: drop a row whose embedded expiry is past. -/
def expiredFilter (now : Int64) (value : Bytes) : Decision :=
  match decode? value with
  | none => .keep
  | some s =>
      if '|' ∈ s.toList then
        match parseI64? (String.ofList (s.toList.takeWhile (· != '|'))) with
        | none => .keep
        | some e => if e ≠ 0 ∧ e ≤ now then .remove else .keep
      else .keep

/-! ## The filter on bytes -/

/-- The filter removes a text whose first field is a number that is past. -/
theorem expiredFilter_eq_remove_iff (now : Int64) (value : Bytes) :
    expiredFilter now value = .remove ↔
      (decode? value).isSome = true ∧ ∃ first rest e,
        splitPipe value = some (first, rest) ∧ parseField first = some e ∧ past e now = true := by
  cases text : decode? value with
  | none => simp [expiredFilter, text]
  | some s =>
      have bytes := decode?_eq_some_iff.mp text
      by_cases barred : '|' ∈ s.toList
      · obtain ⟨behind, split⟩ := splitPipe_encode barred
        rw [bytes] at split
        have front : parseField (encode (String.ofList (s.toList.takeWhile (· != '|')))) =
            parseI64? (String.ofList (s.toList.takeWhile (· != '|'))) := by
          rw [parseField, decode?_encode, Option.bind_some]
        rw [expiredFilter, text]
        dsimp only
        rw [if_pos barred]
        cases number : parseI64? (String.ofList (s.toList.takeWhile (· != '|'))) with
        | none => simp [split, front, number]
        | some e => simp [split, front, number, past]
      · have solid : pipe ∉ value := by
          rw [← bytes, pipe_mem_encode_iff]
          exact barred
        simp [expiredFilter, text, barred, splitPipe_eq_none solid]

/-! ## The two formats -/

theorem splitPipe_tagged (rest : Bytes) : splitPipe (TAG ++ rest) = some ([118, 49], rest) := by
  have tag : TAG = [118, 49, pipe] := by decide
  have solid : pipe ∉ ([118, 49] : Bytes) := by decide
  rw [tag]
  exact splitPipe_append solid rest

/-- Every row with a version tag is kept. -/
theorem expiredFilter_tagged (now : Int64) (rest : Bytes) :
    expiredFilter now (TAG ++ rest) = .keep := by
  cases decision : expiredFilter now (TAG ++ rest) with
  | keep => rfl
  | remove =>
      obtain ⟨-, first, behind, e, split, number, -⟩ :=
        (expiredFilter_eq_remove_iff now _).mp decision
      rw [splitPipe_tagged] at split
      cases split
      have noNumber : parseField [118, 49] = none := by decide +kernel
      rw [noNumber] at number
      cases number

theorem expiredFilter_encVal (now e c : Int64) (u : String) :
    expiredFilter now (encVal e c u) = .keep := by
  have shape : encVal e c u = TAG ++ (itoa [] e ++ [pipe] ++ itoa [] c ++ [pipe] ++ encode u) := by
    simp [encVal]
  rw [shape]
  exact expiredFilter_tagged now _

/-- The expiry of a row without the tag is what stands in front of its bar. -/
theorem decVal_untagged {v first rest : Bytes} {e : Int64} {row : Row}
    (untagged : TAG.isPrefixOf v = false) (split : splitPipe v = some (first, rest))
    (number : parseField first = some e) (read : decVal v = some row) : row.e = e := by
  rw [decVal, untagged] at read
  rw [if_neg Bool.false_ne_true, split, Option.bind_some, number, Option.bind_some] at read
  split at read
  · obtain ⟨c, -, later⟩ := Option.bind_eq_some_iff.mp read
    obtain ⟨u, -, same⟩ := Option.map_eq_some_iff.mp later
    rw [← same]
  · obtain ⟨u, -, same⟩ := Option.map_eq_some_iff.mp read
    rw [← same]

/-- Nothing is removed that a read would still answer. -/
theorem past_of_removed {now : Int64} {v : Bytes} {row : Row}
    (removed : expiredFilter now v = .remove) (read : decVal v = some row) :
    past row.e now = true := by
  obtain ⟨-, first, rest, e, split, number, late⟩ := (expiredFilter_eq_remove_iff now v).mp removed
  have untagged : TAG.isPrefixOf v = false := by
    rw [Bool.eq_false_iff]
    intro tagged
    obtain ⟨behind, rfl⟩ := List.isPrefixOf_iff_prefix.mp tagged
    rw [expiredFilter_tagged] at removed
    cases removed
  rw [decVal_untagged untagged split number read]
  exact late

/-! ## Compaction and reading -/

/-- A compaction at a time drops any of the rows that the filter removes. -/
def Compacts (now : Int64) (s s' : RocksStore) : Prop :=
  ∀ key, s'.db.lookup key = s.db.lookup key ∨
    s'.db.lookup key = none ∧ ∃ v, s.db.lookup key = some v ∧ expiredFilter now v = .remove

/-- What a read answers does not depend on compactions that ran before. -/
theorem row_of_compacts {now later : Int64} {s s' : RocksStore} (compacted : Compacts now s s')
    (after : now ≤ later) (code : String) :
    (RocksStore.row later s' code).1 = (RocksStore.row later s code).1 := by
  rcases compacted (encode code) with same | ⟨gone, v, held, removed⟩
  · have stored : s'.stored code = s.stored code := by
      rw [RocksStore.stored, same, RocksStore.stored]
    rw [RocksStore.row, RocksStore.row, stored]
    cases s.stored code with
    | none => rfl
    | some row =>
        dsimp only
        split
        · rfl
        · rfl
  · have absent : s'.stored code = none := by
      rw [RocksStore.stored, gone]
      rfl
    have found : s.stored code = decVal v := by
      rw [RocksStore.stored, held]
      rfl
    rw [RocksStore.row, RocksStore.row, absent, found]
    cases read : decVal v with
    | none => rfl
    | some row =>
        dsimp only
        rw [if_pos (past_mono after (past_of_removed removed read))]

/-- The filter and the read agree on the rows the store writes exactly when
these are not expired. -/
theorem filter_agrees_iff (e c now : Int64) (u : String) :
    ((expiredFilter now (encVal e c u) = .remove ↔ e ≠ 0 ∧ e ≤ now) ∧
      ∀ (s : RocksStore) (code : String), s.db.lookup (encode code) = some (encVal e c u) →
        ((RocksStore.row now s code).1 = none ↔ e ≠ 0 ∧ e ≤ now)) ↔
      e = 0 ∨ now < e := by
  have reads : ∀ (s : RocksStore) (code : String),
      s.db.lookup (encode code) = some (encVal e c u) →
        ((RocksStore.row now s code).1 = none ↔ e ≠ 0 ∧ e ≤ now) := by
    intro s code held
    have found : s.stored code = some ⟨e, c, u⟩ := by
      rw [RocksStore.stored, held, Option.bind_some, decVal_encVal]
    rw [RocksStore.row, found]
    dsimp only
    by_cases late : past e now = true
    · rw [if_pos late]
      simpa [past] using late
    · rw [if_neg late]
      simpa [past] using late
  rw [and_iff_left reads, expiredFilter_encVal]
  have kept : (Decision.keep = .remove) ↔ False := by decide
  rw [kept, false_iff, not_and_or, not_not, Int64.not_le]

/-- A row that expired at 1 is kept at 2, and a read treats it as gone. -/
theorem expired_row_kept :
    ¬ ∀ (e c now : Int64) (u : String),
      (expiredFilter now (encVal e c u) = .remove ↔ e ≠ 0 ∧ e ≤ now) := by
  intro agree
  have removed := (agree 1 0 2 "").mpr (by decide)
  rw [expiredFilter_encVal] at removed
  cases removed

end Shrt.Rocks
