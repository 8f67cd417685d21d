import Mathlib.Data.List.Basic
import Shrt.Kv.Store
import Shrt.Lib.Fnv

/-!
# The buckets of the hash layout

The bucket of a code is its shard number modulo the bucket count.  A shard
number has eight bits, the low byte of a hash, and every byte is the shard
number of some code of two characters.  So the links fill every bucket as long
as there are no more buckets than shards, and never more than that many.
-/

namespace Shrt.Kv

open Shrt.Codec Shrt.Lib Shrt.Lib.Utf8 Shrt.Lib.Decimal

/-! ## The low byte of the hash -/

/-- One turn of the hash, on the low byte of its state. -/
def lowTurn (h : Nat) (b : UInt8) : Nat :=
  Fnv.lowTurn 8 147 h b.toNat

theorem low_turn (h : UInt32) (b : UInt8) :
    ((h ^^^ b.toUInt32) * 16777619).toNat % 256 = lowTurn (h.toNat % 256) b := by
  have low := Fnv.turn_mod (by decide : 8 ≤ 32) 16777619 h.toNat b.toNat
  rw [Nat.mod_eq_of_lt (a := b.toNat) b.toNat_lt] at low
  rw [UInt32.toNat_mul, UInt32.toNat_xor, UInt8.toNat_toUInt32]
  exact low

theorem low_turns (bs : Bytes) (h : UInt32) :
    (bs.foldl (fun h b => (h ^^^ b.toUInt32) * 16777619) h).toNat % 256 =
      bs.foldl lowTurn (h.toNat % 256) := by
  induction bs generalizing h with
  | nil => rfl
  | cons b bs ih => rw [List.foldl_cons, ih, low_turn, List.foldl_cons]

/-- The shard number of a code, computed in eight bits. -/
theorem shardOf_eq (code : String) : shardOf code = (encode code).foldl lowTurn 197 :=
  low_turns (encode code) 2166136261

/-! ## Every shard has a code -/

/-- The last byte that leads from a state to a shard number: 155 undoes the
factor of a turn. -/
def lastByte (h n : Nat) : UInt8 :=
  UInt8.ofNat (h ^^^ n * 155 % 256)

/-- Eight first characters are enough to reach every shard with the second. -/
theorem exists_two_bytes : ∀ n < 256, ∃ a ∈ encode "01bc-6id",
    codeByte a = true ∧ codeByte (lastByte (lowTurn 197 a) n) = true ∧
      lowTurn (lowTurn 197 a) (lastByte (lowTurn 197 a) n) = n := by
  decide +kernel

theorem exists_code_of_shard {n : Nat} (small : n < NUM_SHARDS) :
    ∃ c, codeOk c = true ∧ shardOf c = n := by
  obtain ⟨a, -, first, second, ends⟩ := exists_two_bytes n small
  have bytes : encode (String.ofList ([a, lastByte (lowTurn 197 a) n].map asciiChar)) =
      [a, lastByte (lowTurn 197 a) n] := by
    apply encode_ascii
    intro b among
    rcases List.mem_pair.mp among with rfl | rfl
    · exact codeByte_lt first
    · exact codeByte_lt second
  refine ⟨String.ofList ([a, lastByte (lowTurn 197 a) n].map asciiChar), ?_, ?_⟩
  · rw [codeOk, bytes]
    simp [first, second]
  · rw [shardOf_eq, bytes]
    exact ends

/-! ## The names of the buckets -/

/-- The key that the documentation gives to bucket `b`. -/
def bucketName (b : Nat) : Bytes :=
  encode ("l:" ++ toString b)

theorem bucketName_of_small {n : Nat} (small : n < 2 ^ 32) :
    itoa (encode "l:") (Int64.ofNat n) = bucketName n := by
  have value : (Int64.ofNat n).toInt = n := Int64.toInt_ofNat_of_lt (by omega)
  have nonnegative : ¬ Int64.ofNat n < 0 := by
    rw [Int64.lt_iff_toInt_lt, value]
    simp
  rw [itoa, if_neg nonnegative, value, Int.natAbs_natCast, bucketName, encode_append,
    List.append_nil, writeDigits_eq_encode (by omega) (by omega)]

theorem bucketName_injective : Function.Injective bucketName := by
  intro b b' same
  rw [bucketName, bucketName, encode_append, encode_append, List.append_cancel_left_eq] at same
  have digits : Nat.toDigits 10 b = Nat.toDigits 10 b' := by
    rw [← Nat.toList_repr, ← Nat.toList_repr]
    exact congrArg String.toList (encode_injective same)
  rw [← Nat.ofDigitChars_ten_toDigits (n := b), digits, Nat.ofDigitChars_ten_toDigits]

theorem bkey_eq (code : String) (buckets : Buckets) :
    bkey code buckets = bucketName (shardOf code % buckets.val) :=
  bucketName_of_small (Nat.lt_of_le_of_lt (Nat.mod_le _ _) (Nat.lt_trans (shardOf_lt code)
    (by decide)))

/-- Every bucket holds some code's link exactly when there are no more buckets
than shards. -/
theorem every_bucket_used_iff (buckets : Buckets) :
    (∀ b < buckets.val, ∃ c, codeOk c = true ∧ bkey c buckets = bucketName b) ↔
      buckets.val ≤ NUM_SHARDS := by
  constructor
  · intro used
    by_contra more
    obtain ⟨c, -, named⟩ := used NUM_SHARDS (Nat.lt_of_not_le more)
    have small : shardOf c % buckets.val < 256 :=
      Nat.lt_of_le_of_lt (Nat.mod_le _ _) (shardOf_lt c)
    rw [bkey_eq] at named
    exact absurd (bucketName_injective named) (Nat.ne_of_lt small)
  · intro few b inside
    obtain ⟨c, ok, shard⟩ := exists_code_of_shard (Nat.lt_of_lt_of_le inside few)
    exact ⟨c, ok, by rw [bkey_eq, shard, Nat.mod_eq_of_lt inside]⟩

/-- With the default bucket count of the source most buckets stay empty. -/
theorem default_buckets_unused :
    ¬ ∀ buckets : Buckets, ∀ b < buckets.val, ∃ c, codeOk c = true ∧
      bkey c buckets = bucketName b := by
  intro used
  obtain ⟨c, -, named⟩ := used ⟨1000000, by decide⟩ 256 (by decide)
  have small : shardOf c % 1000000 < 256 :=
    Nat.lt_of_le_of_lt (Nat.mod_le _ _) (shardOf_lt c)
  rw [bkey_eq] at named
  exact absurd (bucketName_injective named) (Nat.ne_of_lt small)

end Shrt.Kv
