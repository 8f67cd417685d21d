import Mathlib.Data.Rat.Lemmas
import Mathlib.Data.Sign.Defs
import Mathlib.Tactic.NormNum

/-!
# Rounded arithmetic

The numbers of a format with infinities, and a value that is not a number.  An operation
takes its exact result through the rounding of the format, whatever that is beyond the
few laws asked here.  Zero has no sign.
-/

namespace Shrt.Lib

inductive Extended where
  | nan
  | bot
  | real (q : ℚ)
  | top
  deriving DecidableEq

namespace Extended

def sign : Extended → SignType
  | nan => 0
  | bot => -1
  | real q => SignType.sign q
  | top => 1

def infinite : SignType → Extended
  | .neg => bot
  | .zero => nan
  | .pos => top

def neg : Extended → Extended
  | nan => nan
  | bot => top
  | real q => real (-q)
  | top => bot

def add : Extended → Extended → Extended
  | nan, _ | _, nan | bot, top | top, bot => nan
  | real p, real q => real (p + q)
  | bot, _ | _, bot => bot
  | top, _ | _, top => top

def mul : Extended → Extended → Extended
  | nan, _ | _, nan => nan
  | real p, real q => real (p * q)
  | x, y => infinite (x.sign * y.sign)

/-- The quotient by zero is left out: its sign would be that of the zero. -/
def div : Extended → Extended → Extended
  | nan, _ | _, nan => nan
  | real p, real q => if q = 0 then nan else real (p / q)
  | real _, _ => real 0
  | x, real q => infinite (x.sign * SignType.sign q)
  | _, _ => nan

theorem mul_real_top (q : ℚ) : (real q).mul top = infinite (SignType.sign q) := by
  simp [mul, sign]

theorem div_top_real (q : ℚ) : top.div (real q) = infinite (SignType.sign q) := by
  simp [div, sign]

/-- Nothing compares with what is not a number. -/
def le : Extended → Extended → Bool
  | nan, _ | _, nan => false
  | bot, _ | _, top => true
  | real p, real q => p ≤ q
  | _, _ => false

end Extended

open Extended

/-- A rounding of exact results.  It keeps the order, and the numbers of the format and all
small naturals as they are. -/
structure Rounding where
  round : ℚ → Extended
  mono : ∀ {p q}, p ≤ q → (round p).le (round q)
  fixed : ∀ {p q}, round p = real q → round q = real q
  naturals : ∀ n : ℕ, n ≤ 2 ^ 53 → round n = real n

/-- The numbers of a format. -/
@[ext] structure Rounded (rounding : Rounding) where
  value : Extended
  fixed : ∀ q, value = real q → rounding.round q = real q
  deriving DecidableEq

def Rounding.exact : Rounding where
  round := real
  mono := by simp [le]
  fixed := by simp
  naturals := by simp

theorem Rounding.ne_nan (rounding : Rounding) (q : ℚ) : rounding.round q ≠ nan := by
  intro value
  have self := rounding.mono (le_refl q)
  rw [value] at self
  exact absurd self (by decide)

namespace Rounded

variable {rounding : Rounding}

/-- Neither infinite nor not a number. -/
def Finite (x : Rounded rounding) : Prop :=
  ∃ q, x.value = real q

def ofExact : Extended → Rounded rounding
  | real q => ⟨rounding.round q, fun _ => rounding.fixed⟩
  | nan => ⟨nan, nofun⟩
  | bot => ⟨bot, nofun⟩
  | top => ⟨top, nofun⟩

instance : NatCast (Rounded rounding) := ⟨fun n => ofExact (real n)⟩
instance : Zero (Rounded rounding) := ⟨(0 : ℕ)⟩
instance : One (Rounded rounding) := ⟨(1 : ℕ)⟩
instance : Add (Rounded rounding) := ⟨fun x y => ofExact (x.value.add y.value)⟩
instance : Sub (Rounded rounding) := ⟨fun x y => ofExact (x.value.add y.value.neg)⟩
instance : Mul (Rounded rounding) := ⟨fun x y => ofExact (x.value.mul y.value)⟩
instance : Div (Rounded rounding) := ⟨fun x y => ofExact (x.value.div y.value)⟩
instance : LE (Rounded rounding) := ⟨fun x y => x.value.le y.value⟩

instance : DecidableLE (Rounded rounding) :=
  fun x y => inferInstanceAs (Decidable (x.value.le y.value))

/-- The smaller one of two numbers, and the other one if one is not a number. -/
instance : Min (Rounded rounding) where
  min x y := if x.value = nan then y else if y.value = nan then x else if x ≤ y then x else y

instance : Max (Rounded rounding) where
  max x y := if x.value = nan then y else if y.value = nan then x else if x ≤ y then y else x

variable {x y b : Rounded rounding}

theorem le_def : x ≤ y ↔ x.value.le y.value = true := Iff.rfl

theorem min_def : min x y =
    if x.value = nan then y else if y.value = nan then x else if x ≤ y then x else y := rfl

theorem max_def : max x y =
    if x.value = nan then y else if y.value = nan then x else if x ≤ y then y else x := rfl

theorem le_refl_of_ne (number : x.value ≠ nan) : x ≤ x := by
  rw [le_def]
  cases value : x.value with
  | nan => exact absurd value number
  | bot => rfl
  | real q => exact decide_eq_true (le_refl q)
  | top => rfl

theorem min_le_left_of_ne (number : x.value ≠ nan) : min x y ≤ x := by
  rw [min_def, if_neg number]
  split
  · exact le_refl_of_ne number
  · split
    · exact le_refl_of_ne number
    · rename_i other above
      rw [le_def] at above ⊢
      revert number other above
      cases x.value <;> cases y.value <;> simp [le]
      exact fun below => below.le

theorem ne_nan_of_le (below : x ≤ y) : y.value ≠ nan := by
  intro value
  rw [le_def, value] at below
  revert below
  cases x.value <;> simp [le]

theorem min_ne_nan (number : y.value ≠ nan) : (min x y).value ≠ nan := by
  rw [min_def, if_neg number]
  split
  · exact number
  · rename_i own
    split
    · exact own
    · exact number

theorem le_max_right (number : y.value ≠ nan) : y ≤ max x y := by
  rw [max_def, if_neg number]
  split
  · exact le_refl_of_ne number
  · rename_i own
    split
    · exact le_refl_of_ne number
    · rename_i above
      rw [le_def] at above ⊢
      revert own number above
      cases x.value <;> cases y.value <;> simp [le]
      exact fun below => below.le

/-! ## Small naturals -/

theorem value_natCast {n : ℕ} (small : n ≤ 2 ^ 53) : (n : Rounded rounding).value = real n :=
  rounding.naturals n small

theorem value_zero : (0 : Rounded rounding).value = real 0 :=
  value_natCast (n := 0) (Nat.zero_le _)

theorem value_one : (1 : Rounded rounding).value = real 1 := by
  have one : ((1 : ℕ) : Rounded rounding).value = real (1 : ℕ) := value_natCast (by norm_num)
  rwa [Nat.cast_one] at one

theorem natCast_nonneg (n : ℕ) : (0 : Rounded rounding) ≤ n := by
  rw [le_def, value_zero, ← Nat.cast_zero, ← rounding.naturals 0 (Nat.zero_le _)]
  exact rounding.mono (Nat.cast_le.mpr n.zero_le)

/-! ## Operations that need no rounding -/

theorem ofExact_value (x : Rounded rounding) : ofExact x.value = x := by
  obtain ⟨value, fixed⟩ := x
  cases value with
  | real q => exact Rounded.ext (fixed q rfl)
  | _ => rfl

theorem add_zero_eq (x : Rounded rounding) : x + 0 = x := by
  have same : x.value.add (0 : Rounded rounding).value = x.value := by
    rw [value_zero]
    cases x.value <;> simp [add]
  change ofExact (x.value.add (0 : Rounded rounding).value) = x
  rw [same, ofExact_value]

theorem zero_div_natCast {n : ℕ} (some : n ≠ 0) (small : n ≤ 2 ^ 53) :
    (0 : Rounded rounding) / (n : Rounded rounding) = 0 := by
  have same : (0 : Rounded rounding).value.div (n : Rounded rounding).value =
      (0 : Rounded rounding).value := by
    have divisor : (n : ℚ) ≠ 0 := Nat.cast_ne_zero.mpr some
    rw [value_zero, value_natCast small, div, if_neg divisor, zero_div]
  change ofExact ((0 : Rounded rounding).value.div (n : Rounded rounding).value) = 0
  rw [same, ofExact_value]

theorem zero_mul_real {q : ℚ} (real : y.value = real q) : 0 * y = 0 := by
  have same : (0 : Rounded rounding).value.mul y.value = (0 : Rounded rounding).value := by
    rw [value_zero, real, mul, zero_mul]
  change ofExact ((0 : Rounded rounding).value.mul y.value) = 0
  rw [same, ofExact_value]

theorem sub_ne_nan {q : ℚ} (number : x.value ≠ nan) (finite : y.value = real q) :
    (x - y).value ≠ nan := by
  change (ofExact (x.value.add y.value.neg) : Rounded rounding).value ≠ nan
  rw [finite]
  cases value : x.value with
  | nan => exact absurd value number
  | bot => exact nofun
  | real p => exact rounding.ne_nan _
  | top => exact nofun

theorem sub_ne_bot (below : y ≤ x) : (x - y).value ≠ bot := by
  change (ofExact (x.value.add y.value.neg) : Rounded rounding).value ≠ bot
  rw [le_def] at below
  cases small : y.value with
  | nan => cases x.value <;> exact nofun
  | bot => cases x.value <;> exact nofun
  | real q =>
      cases large : x.value with
      | nan => exact nofun
      | bot => simp [small, large, le] at below
      | real p =>
          rw [small, large, le, decide_eq_true_eq] at below
          have nonneg := rounding.mono (sub_nonneg.mpr below)
          have zero := rounding.naturals 0 (Nat.zero_le _)
          rw [Nat.cast_zero] at zero
          rw [zero, sub_eq_add_neg] at nonneg
          intro negative
          change rounding.round (p + -q) = bot at negative
          rw [negative] at nonneg
          exact absurd nonneg (by decide)
      | top => exact nofun
  | top =>
      cases large : x.value with
      | top => exact nofun
      | _ => simp [small, large, le] at below

/-! ## Infinities -/

/-- A quotient of a number that is not negative is not negative. -/
theorem div_natCast_nonneg {n : ℕ} (some : n ≠ 0) (small : n ≤ 2 ^ 53) (nonneg : 0 ≤ x) :
    (0 : Rounded rounding) ≤ x / (n : Rounded rounding) := by
  have divisor : (n : ℚ) ≠ 0 := Nat.cast_ne_zero.mpr some
  change Extended.le (0 : Rounded rounding).value
    (ofExact (x.value.div (n : Rounded rounding).value) : Rounded rounding).value
  rw [le_def, value_zero] at nonneg
  rw [value_natCast small]
  cases value : x.value with
  | nan => simp [value, le] at nonneg
  | bot => simp [value, le] at nonneg
  | real q =>
      rw [value, le, decide_eq_true_eq] at nonneg
      rw [div, if_neg divisor, ofExact, value_zero, ← Nat.cast_zero,
        ← rounding.naturals 0 (Nat.zero_le _)]
      exact rounding.mono (by simpa using div_nonneg nonneg n.cast_nonneg)
  | top =>
      have positive : (0 : ℚ) < n := Nat.cast_pos.mpr (Nat.pos_of_ne_zero some)
      rw [div_top_real, sign_pos positive, value_zero]
      rfl

/-- Zero times an infinity is not a number. -/
theorem mul_top (nonneg : 0 ≤ x) (infinite : y.value = top) :
    (x * y).value = nan ∨ (x * y).value = top := by
  change (ofExact (x.value.mul y.value) : Rounded rounding).value = nan ∨
    (ofExact (x.value.mul y.value) : Rounded rounding).value = top
  rw [le_def, value_zero] at nonneg
  rw [infinite]
  cases value : x.value with
  | nan => simp [value, le] at nonneg
  | bot => simp [value, le] at nonneg
  | real q =>
      rw [value, le, decide_eq_true_eq] at nonneg
      rcases nonneg.eq_or_lt with rfl | positive
      · left
        rw [mul_real_top, sign_zero]
        rfl
      · right
        rw [mul_real_top, sign_pos positive]
        rfl
  | top =>
      right
      rfl

/-- The smaller one of `b` and what is infinite, or not a number, is `b`. -/
theorem min_add_eq (large : y.value = nan ∨ y.value = top) (above : x.value ≠ bot)
    (number : b.value ≠ nan) : min (x + y) b = b := by
  have sum : (x + y).value = nan ∨ (x + y).value = top := by
    change (ofExact (x.value.add y.value) : Rounded rounding).value = nan ∨
      (ofExact (x.value.add y.value) : Rounded rounding).value = top
    rcases large with value | value <;> rw [value]
    · left
      cases x.value <;> rfl
    · cases own : x.value with
      | nan => exact Or.inl rfl
      | bot => exact absurd own above
      | real q => exact Or.inr rfl
      | top => exact Or.inr rfl
  rcases sum with value | value
  · rw [min_def, if_pos value]
  · rw [min_def, if_neg (by simp [value]), if_neg number]
    split
    · rename_i below
      rw [le_def, value] at below
      have same : b.value = top := by
        cases other : b.value <;> simp [other, le] at below
        rfl
      exact Rounded.ext (value.trans same.symm)
    · rfl

end Rounded

end Shrt.Lib
