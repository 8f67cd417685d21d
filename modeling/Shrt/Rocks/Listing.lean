import Mathlib.Data.List.Basic
import Mathlib.Data.List.Perm.Basic
import Shrt.Kv.Listing
import Shrt.Rocks.Hits

/-!
# Listing the links of the database

A listing sends the hits first and then runs through the rows in the order of
the bytes of their keys.  What is no code or no row, rows past their expiry and
links that the query leaves out are passed over.
-/

namespace Shrt.Rocks

open Shrt.Codec Shrt.Lib Shrt.Lib.Utf8 Shrt.Kv
open Shrt.Store (Link)

namespace RocksStore

/-- The link of one pair of the database, looked at at a time. -/
def listRow (s : RocksStore) (q : String) (now : Int64) (pair : Bytes × Bytes) : Option Link :=
  (decode? pair.1).bind fun code =>
    (decVal pair.2).bind fun row =>
      if past row.e now then none
      else if skipped q code row.u then none
      else some (row.link code (s.hitsOf code))

/-- `db.iterator(IteratorMode::Start)`. -/
def iterated (s : RocksStore) : List (Bytes × Bytes) :=
  s.db.pairs.mergeSort fun a b => a.1 ≤ b.1

/-- The links that `list` finds, in the order of the keys; the clock is read at
every row. -/
def listed (env : RocksEnv) (s : RocksStore) (q : String) : List Link :=
  s.iterated.zipIdx.filterMap fun pair => s.listRow q (env.clock pair.2) pair.1

/-- `list`: one page of the links that match, and how many there are. -/
def list (order : IterOrder String Int64) (env : RocksEnv) (s : RocksStore) (limit offset : Nat)
    (sort q : String) : (List Link × Nat) × RocksStore :=
  let s := s.flushHits order
  (window limit offset (arrange sort (s.listed env q)), s)

/-- No link expires during a call. -/
def AtRest (s : RocksStore) (env : RocksEnv) : Prop :=
  ∀ t code row, s.stored code = some row → past row.e (env.clock t) = past row.e (env.clock 0)

theorem mem_iterated_iff (s : RocksStore) (pair : Bytes × Bytes) :
    pair ∈ s.iterated ↔ s.db.lookup pair.1 = some pair.2 :=
  (List.mergeSort_perm _ _).mem_iff.trans Map.mem_pairs_iff

/-- The code and the row behind a pair that is listed. -/
theorem listRow_eq_some_iff {s : RocksStore} {q : String} {now : Int64} {pair : Bytes × Bytes}
    {link : Link} :
    s.listRow q now pair = some link ↔ ∃ code row, decode? pair.1 = some code ∧
      decVal pair.2 = some row ∧ past row.e now = false ∧ skipped q code row.u = false ∧
        row.link code (s.hitsOf code) = link := by
  rw [listRow, Option.bind_eq_some_iff]
  constructor
  · rintro ⟨code, named, rest⟩
    obtain ⟨row, decoded, shown⟩ := Option.bind_eq_some_iff.mp rest
    split at shown
    · cases shown
    · rename_i current
      split at shown
      · cases shown
      · rename_i kept
        exact ⟨code, row, named, decoded, Bool.not_eq_true _ ▸ current, Bool.not_eq_true _ ▸ kept,
          Option.some.inj shown⟩
  · rintro ⟨code, row, named, decoded, current, kept, shown⟩
    refine ⟨code, named, Option.bind_eq_some_iff.mpr ⟨row, decoded, ?_⟩⟩
    rw [if_neg (by simp [current]), if_neg (by simp [kept]), shown]

/-- While nothing expires the rows may be looked at at one time. -/
theorem listed_eq {s : RocksStore} {env : RocksEnv} (rest : s.AtRest env) (q : String) :
    s.listed env q = s.iterated.filterMap (s.listRow q (env.clock 0)) := by
  have same : ∀ pair ∈ s.iterated.zipIdx,
      s.listRow q (env.clock pair.2) pair.1 = s.listRow q (env.clock 0) pair.1 := by
    rintro ⟨⟨k, v⟩, t⟩ among
    have found := (s.mem_iterated_iff (k, v)).mp (List.fst_mem_of_mem_zipIdx among)
    apply Option.ext
    intro link
    simp only [listRow_eq_some_iff]
    refine exists_congr fun code => exists_congr fun row => and_congr_right fun named =>
      and_congr_right fun decoded => ?_
    have stored : s.stored code = some row := by
      rw [RocksStore.stored, decode?_eq_some_iff.mp named, found, Option.bind_some, decoded]
    rw [rest t code row stored]
  rw [listed, List.filterMap_congr same]
  have firsts := List.filterMap_map (f := Prod.fst) (g := s.listRow q (env.clock 0))
    (l := s.iterated.zipIdx)
  rw [List.zipIdx_map_fst] at firsts
  exact firsts.symm

end RocksStore

end Shrt.Rocks
