import Mathlib.Data.Nat.Bitwise

/-!
# The hash FNV-1a

A turn takes in a byte and multiplies by a factor, in as many bits as a word has.  Its
low bits depend on the low bits of the state only.
-/

namespace Shrt.Lib.Fnv

/-- One turn, on the low bits of the state. -/
def lowTurn (bits factor h b : Nat) : Nat :=
  (h ^^^ b) * factor % 2 ^ bits

theorem turn_mod {bits width : Nat} (fits : bits ≤ width) (factor h b : Nat) :
    (h ^^^ b) * factor % 2 ^ width % 2 ^ bits =
      lowTurn bits (factor % 2 ^ bits) (h % 2 ^ bits) (b % 2 ^ bits) := by
  rw [lowTurn, ← Nat.xor_mod_two_pow, ← Nat.mul_mod,
    Nat.mod_mod_of_dvd _ (Nat.pow_dvd_pow 2 fits)]

end Shrt.Lib.Fnv
