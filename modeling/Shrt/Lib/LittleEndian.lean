import Mathlib.Data.List.Basic
import Mathlib.Tactic.NormNum

/-!
# Little-endian numbers

Unsigned 64-bit numbers as eight bytes, the lowest first, and back.
-/

namespace Shrt.Lib.LittleEndian

def lowBytes : Nat → Nat → List UInt8
  | 0, _ => []
  | width + 1, n => UInt8.ofNat n :: lowBytes width (n / 256)

def value (bytes : List UInt8) : Nat :=
  bytes.foldr (fun b n => b.toNat + 256 * n) 0

/-- `u64::to_le_bytes`. -/
def toLeBytes (n : UInt64) : List UInt8 :=
  lowBytes 8 n.toNat

/-- `<[u8; 8]>::try_from(..).ok().map(u64::from_le_bytes)`. -/
def fromLeBytes? (bytes : List UInt8) : Option UInt64 :=
  if bytes.length = 8 then some (UInt64.ofNat (value bytes)) else none

theorem length_lowBytes (width n : Nat) : (lowBytes width n).length = width := by
  induction width generalizing n with
  | zero => rfl
  | succ width ih => rw [lowBytes, List.length_cons, ih]

theorem value_lowBytes (width n : Nat) : value (lowBytes width n) = n % 256 ^ width := by
  induction width generalizing n with
  | zero => simp [lowBytes, value, Nat.mod_one]
  | succ width ih =>
      have low : (UInt8.ofNat n).toNat = n % 256 := by simp
      have rest : value (lowBytes (width + 1) n) = n % 256 + 256 * value (lowBytes width (n / 256)) := by
        rw [← low]
        rfl
      rw [rest, ih, Nat.pow_succ', Nat.mod_mul]

theorem fromLeBytes?_toLeBytes (n : UInt64) : fromLeBytes? (toLeBytes n) = some n := by
  have bound : n.toNat < 256 ^ 8 := n.toNat_lt
  rw [fromLeBytes?, toLeBytes, if_pos (length_lowBytes 8 n.toNat), value_lowBytes,
    Nat.mod_eq_of_lt bound, UInt64.ofNat_toNat]

end Shrt.Lib.LittleEndian
