import Mathlib.Data.List.Basic
import Shrt.Kv.Value
import Shrt.Lib.HashMap

/-!
# The key-value server

The commands that the store sends, with the meaning the server documents.  A
string key may carry a deadline; at or after it, at a time of the server's own
choosing, the key is evicted.
-/

namespace Shrt.Kv

open Shrt.Codec Shrt.Lib

/-- The value of a string key and its deadline in milliseconds. -/
structure Stored where
  value : Bytes
  deadline : Option Int
  deriving DecidableEq, Repr

def Stored.due (now : Int64) (st : Stored) : Bool :=
  st.deadline.any fun d => d ≤ now.toInt

structure Redis where
  strings : Map Bytes Stored
  hashes : Map Bytes (Map Bytes Bytes)

namespace Redis

def empty : Redis := ⟨∅, ∅⟩

/-- Evict the chosen ones of the keys whose deadline has come. -/
def evict (r : Redis) (now : Int64) (chosen : Bytes → Bool) : Redis :=
  { r with
    strings := r.strings.eraseAll
      ((r.strings.pairs.filter fun kv => chosen kv.1 && Stored.due now kv.2).map Prod.fst) }

def setString (r : Redis) (k : Bytes) (st : Stored) : Redis :=
  { r with strings := r.strings.insert k st }

def get (r : Redis) (k : Bytes) : Option Bytes :=
  (r.strings.lookup k).map Stored.value

/-- `SET` with `PX` for a positive `px`, and with `NX` when asked for. -/
def set (r : Redis) (now : Int64) (k v : Bytes) (px : Int64) (nx : Bool) : Bool × Redis :=
  if nx && k ∈ r.strings then (false, r)
  else
    (true, r.setString k ⟨v, if px > 0 then some (now.toInt + px.toInt) else none⟩)

def del (r : Redis) (k : Bytes) : Bool × Redis :=
  (k ∈ r.strings, { r with strings := r.strings.erase k })

def bucket (r : Redis) (b : Bytes) : Map Bytes Bytes :=
  (r.hashes.lookup b).getD ∅

def setBucket (r : Redis) (b : Bytes) (fields : Map Bytes Bytes) : Redis :=
  { r with hashes := r.hashes.insert b fields }

def hget (r : Redis) (b f : Bytes) : Option Bytes :=
  (r.bucket b).lookup f

def hset (r : Redis) (b f v : Bytes) : Redis :=
  r.setBucket b ((r.bucket b).insert f v)

def hsetnx (r : Redis) (b f v : Bytes) : Bool × Redis :=
  if f ∈ r.bucket b then (false, r) else (true, r.hset b f v)

def hdel (r : Redis) (b f : Bytes) : Bool × Redis :=
  (f ∈ r.bucket b, r.setBucket b ((r.bucket b).erase f))

/-- A counter after an increment; a value that is no number stays. -/
def counted (v : Option Bytes) (d : Int64) : Bytes :=
  match v with
  | none => itoa [] d
  | some v => ((parseField v).map fun n => itoa [] (n + d)).getD v

def incrby (r : Redis) (k : Bytes) (d : Int64) : Redis :=
  r.setString k ⟨counted (r.get k) d, (r.strings.lookup k).bind Stored.deadline⟩

def hincrby (r : Redis) (b f : Bytes) (d : Int64) : Redis :=
  r.hset b f (counted (r.hget b f) d)

/-! ## Reading after a command -/

theorem lookup_evict (r : Redis) (now : Int64) (chosen : Bytes → Bool) (k : Bytes) :
    (r.evict now chosen).strings.lookup k = r.strings.lookup k ∨
      ((r.evict now chosen).strings.lookup k = none ∧
        ∃ st ∈ r.strings.lookup k, Stored.due now st = true) := by
  rw [evict, Map.lookup_eraseAll]
  split
  · rename_i listed
    obtain ⟨⟨k', st⟩, member, rfl⟩ := List.mem_map.mp listed
    rw [List.mem_filter, Map.mem_pairs_iff, Bool.and_eq_true] at member
    exact Or.inr ⟨rfl, st, member.1, member.2.2⟩
  · exact Or.inl rfl

/-- What is left of a key: it is gone if it was chosen and due. -/
theorem lookup_evict_eq (r : Redis) (now : Int64) (chosen : Bytes → Bool) (k : Bytes) :
    (r.evict now chosen).strings.lookup k =
      (r.strings.lookup k).filter fun st => !(chosen k && Stored.due now st) := by
  rw [evict, Map.lookup_eraseAll]
  split
  · rename_i listed
    obtain ⟨⟨k', st⟩, member, rfl⟩ := List.mem_map.mp listed
    rw [List.mem_filter, Map.mem_pairs_iff] at member
    rw [member.1, Option.filter_some, member.2]
    rfl
  · rename_i spared
    cases found : r.strings.lookup k with
    | none => rfl
    | some st =>
        have kept : (chosen k && Stored.due now st) = false := by
          rw [Bool.eq_false_iff]
          intro gone
          refine spared (List.mem_map.mpr ⟨(k, st), ?_, rfl⟩)
          exact List.mem_filter.mpr ⟨Map.mem_pairs_iff.mpr found, gone⟩
        rw [Option.filter_some, kept]
        rfl

theorem bucket_setBucket (r : Redis) (b : Bytes) (fields : Map Bytes Bytes) (b' : Bytes) :
    (r.setBucket b fields).bucket b' = if b' = b then fields else r.bucket b' := by
  rw [bucket, setBucket, Map.lookup_insert_eq]
  split
  · rfl
  · rfl

theorem hget_hset (r : Redis) (b f v b' f' : Bytes) :
    (r.hset b f v).hget b' f' = if b' = b ∧ f' = f then some v else r.hget b' f' := by
  rw [hget, hset, bucket_setBucket]
  by_cases same : b' = b
  · subst same
    rw [if_pos rfl, Map.lookup_insert_eq]
    simp [hget]
  · simp [same, hget]

theorem hget_hdel (r : Redis) (b f b' f' : Bytes) :
    (r.hdel b f).2.hget b' f' = if b' = b ∧ f' = f then none else r.hget b' f' := by
  rw [hget, hdel, bucket_setBucket]
  by_cases same : b' = b
  · subst same
    rw [if_pos rfl, Map.lookup_erase_eq]
    simp [hget]
  · simp [same, hget]

end Redis

end Shrt.Kv
