import Mathlib.Data.Nat.Bitwise
import Shrt.Lib.Fnv
import Shrt.Limiter.Allow

/-!
# The hash of a client

The hash takes the bytes of a client one by one, and each turn multiplies by a
factor that is odd and larger than a letter.  So short names of letters are told
apart, and the last letter can be chosen to lead to any shard.
-/

namespace Shrt.Limiter

open Shrt.Lib Shrt.Lib.Utf8

/-! ## One turn -/

def turn (h : UInt64) (b : UInt8) : UInt64 :=
  (h ^^^ b.toUInt64) * 0x100000001b3

/-- One turn, on the low bits of the state. -/
theorem turn_toNat_mod {bits : Nat} (fits : bits ≤ 64) (h : UInt64) (b : UInt8) :
    (turn h b).toNat % 2 ^ bits =
      Fnv.lowTurn bits (1099511628211 % 2 ^ bits) (h.toNat % 2 ^ bits) (b.toNat % 2 ^ bits) := by
  rw [turn, UInt64.toNat_mul, UInt64.toNat_xor, UInt8.toNat_toUInt64]
  exact Fnv.turn_mod fits 1099511628211 h.toNat b.toNat

/-- One turn, on the low half of the state. -/
def lowTurn (h b : Nat) : Nat :=
  Fnv.lowTurn 32 435 h b

theorem lowTurn_def (h b : Nat) : lowTurn h b = (h ^^^ b) * 435 % 2 ^ 32 := rfl

theorem low_turn (h : UInt64) (b : UInt8) :
    (turn h b).toNat % 2 ^ 32 = lowTurn (h.toNat % 2 ^ 32) b.toNat := by
  have low := turn_toNat_mod (by decide : 32 ≤ 64) h b
  rwa [Nat.mod_eq_of_lt (a := b.toNat) (b.toNat_lt.trans (by norm_num))] at low

/-- A letter changes the low bits of a state only. -/
theorem xor_letter {h b : Nat} (letter : b < 128) :
    h ^^^ b = h / 128 * 128 + (h % 128 ^^^ b) ∧ (h % 128 ^^^ b) < 128 := by
  have low := Nat.xor_mod_two_pow (a := h) (b := b) (n := 7)
  have high := Nat.xor_div_two_pow (a := h) (b := b) (n := 7)
  rw [show 2 ^ 7 = 128 by norm_num] at low high
  rw [Nat.mod_eq_of_lt letter] at low
  rw [Nat.div_eq_of_lt letter, Nat.xor_zero] at high
  rw [← low]
  have small := Nat.mod_lt (h ^^^ b) (show 0 < 128 by norm_num)
  omega

theorem turn_difference (h b h' b' : Nat) :
    ∃ n : ℤ, (lowTurn h b : ℤ) - lowTurn h' b' =
      435 * (((h ^^^ b : Nat) : ℤ) - (h' ^^^ b' : Nat)) + 2 ^ 32 * n := by
  refine ⟨((h' ^^^ b') * 435 / 2 ^ 32 : ℕ) - ((h ^^^ b) * 435 / 2 ^ 32 : ℕ), ?_⟩
  rw [lowTurn_def, lowTurn_def]
  omega

/-! ## Three letters -/

/-- The factor is larger than what three letters can differ by. -/
theorem small_difference {d e f n : ℤ} (hd : -128 < d ∧ d < 128) (he : -256 < e ∧ e < 256)
    (hf : -128 < f ∧ f < 128) (sum : 435 * (435 * d + e) = f + 2 ^ 32 * n) : d = 0 ∧ e = 0 := by
  have none_wrapped : n = 0 := by omega
  omega

/-- Two letters are determined by the state behind them, up to its low bits. -/
theorem letters_unique {h a b a' b' : Nat} (ha : a < 128) (hb : b < 128) (ha' : a' < 128)
    (hb' : b' < 128)
    (same : lowTurn (lowTurn h a) b / 128 = lowTurn (lowTurn h a') b' / 128) :
    a = a' ∧ b = b' := by
  obtain ⟨first, u⟩ := xor_letter (h := h) ha
  obtain ⟨first', u'⟩ := xor_letter (h := h) ha'
  obtain ⟨second, v⟩ := xor_letter (h := lowTurn h a) hb
  obtain ⟨second', v'⟩ := xor_letter (h := lowTurn h a') hb'
  obtain ⟨m, one⟩ := turn_difference h a h a'
  obtain ⟨n, two⟩ := turn_difference (lowTurn h a) b (lowTurn h a') b'
  rw [first, first'] at one
  rw [second, second'] at two
  have apart := small_difference (d := (h % 128 ^^^ a : Nat) - (h % 128 ^^^ a' : Nat))
    (e := ((lowTurn h a % 128 ^^^ b : Nat) - (lowTurn h a % 128 : Nat)) -
      ((lowTurn h a' % 128 ^^^ b' : Nat) - (lowTurn h a' % 128 : Nat)))
    (f := lowTurn (lowTurn h a) b - lowTurn (lowTurn h a') b') (n := - (435 * m + n))
    (by omega) (by omega) (by omega) (by omega)
  have letter : a = a' :=
    Nat.xor_right_inj.mp (show h % 128 ^^^ a = h % 128 ^^^ a' by omega)
  subst letter
  exact ⟨rfl, Nat.xor_right_inj.mp
    (show lowTurn h a % 128 ^^^ b = lowTurn h a % 128 ^^^ b' by omega)⟩

/-- The factor of a turn is odd. -/
theorem factor_cancel {x x' : Nat} (hx : x < 2 ^ 32) (hx' : x' < 2 ^ 32)
    (same : x * 435 % 2 ^ 32 = x' * 435 % 2 ^ 32) : x = x' := by
  omega

/-- Three letters are determined by their hash, but for the last. -/
theorem turns_unique {h a b c a' b' c' : Nat} (ha : a < 128) (hb : b < 128) (hc : c < 128)
    (ha' : a' < 128) (hb' : b' < 128) (hc' : c' < 128)
    (same : lowTurn (lowTurn (lowTurn h a) b) c = lowTurn (lowTurn (lowTurn h a') b') c') :
    a = a' ∧ b = b' := by
  have low : ∀ h b, lowTurn h b < 2 ^ 32 := fun h b => Nat.mod_lt _ (by norm_num)
  have small : ∀ {c : Nat}, c < 128 → c < 2 ^ 32 := fun h => h.trans (by norm_num)
  have xored := factor_cancel (Nat.xor_lt_two_pow (low (lowTurn h a) b) (small hc))
    (Nat.xor_lt_two_pow (low (lowTurn h a') b') (small hc')) same
  obtain ⟨third, u⟩ := xor_letter (h := lowTurn (lowTurn h a) b) hc
  obtain ⟨third', u'⟩ := xor_letter (h := lowTurn (lowTurn h a') b') hc'
  exact letters_unique (h := h) ha hb ha' hb' (by omega)

/-! ## Clients of one shard -/

theorem ipKey_eq (ip : String) : ipKey ip = (encode ip).foldl turn 0xcbf29ce484222325 := rfl

/-- The printable letters from `0` on. -/
def letter (n : Nat) : UInt8 :=
  UInt8.ofNat (48 + n % 79)

theorem letter_toNat (n : Nat) : (letter n).toNat = 48 + n % 79 := by
  rw [letter, UInt8.toNat_ofNat']
  omega

/-- The letter that leads to the first shard. -/
theorem turn_closing (h : UInt64) : (turn h (letter ((h.toNat + 16) % 64))).toNat % 64 = 0 := by
  have closing : (letter ((h.toNat + 16) % 64)).toNat % 64 = h.toNat % 64 := by
    rw [letter_toNat]
    omega
  have low := turn_toNat_mod (by decide : 6 ≤ 64) h (letter ((h.toNat + 16) % 64))
  rw [Fnv.lowTurn, show 2 ^ 6 = 64 by norm_num, closing, Nat.xor_self, Nat.zero_mul] at low
  exact low

/-- A name of three letters for each number, all in the first shard. -/
def name (n : Nat) : List UInt8 :=
  let h := turn (turn 0xcbf29ce484222325 (letter (n / 64))) (letter (n % 64))
  [letter (n / 64), letter (n % 64), letter ((h.toNat + 16) % 64)]

def client (n : Nat) : String :=
  String.ofList ((name n).map asciiChar)

theorem letter_lt (n : Nat) : (letter n).toNat < 128 := by
  rw [letter_toNat]
  omega

theorem encode_client (n : Nat) : encode (client n) = name n := by
  apply encode_ascii
  simp only [name, List.forall_mem_cons, UInt8.lt_iff_toNat_lt]
  exact ⟨letter_lt _, letter_lt _, letter_lt _, by simp⟩

theorem shardIdx_client (n : Nat) : shardIdx (ipKey (client n)) = 0 := by
  rw [ipKey_eq, encode_client, shardIdx, SHARDS]
  exact turn_closing _

/-- The clients of 5056 numbers have different hashes. -/
theorem ipKey_client_inj {n m : Nat} (hn : n < 5056) (hm : m < 5056)
    (same : ipKey (client n) = ipKey (client m)) : n = m := by
  have low := congrArg (fun h : UInt64 => h.toNat % 2 ^ 32) same
  simp only [ipKey_eq, encode_client, name, List.foldl_cons, List.foldl_nil, low_turn] at low
  obtain ⟨first, second⟩ := turns_unique (letter_lt _) (letter_lt _) (letter_lt _) (letter_lt _)
    (letter_lt _) (letter_lt _) low
  rw [letter_toNat, letter_toNat] at first second
  omega

theorem nodup_clients {ns : List Nat} (distinct : ns.Nodup) (small : ∀ n ∈ ns, n < 5056) :
    (ns.map fun n => ipKey (client n)).Nodup :=
  distinct.map_on fun n hn m hm same => ipKey_client_inj (small n hn) (small m hm) same

end Shrt.Limiter
