import Mathlib.Data.Int.Log
import Mathlib.Data.Rat.Floor
import Mathlib.Tactic.Positivity

/-! # Binary floating point of 64 bits

The numbers of the IEEE format by their values: a result is rounded to the nearest
multiple of its unit in the last place, ties to even, and is infinite beyond the
range. Zeros have no sign. -/

namespace CudaMpqs

inductive Binary64 where
  | finite (value : ℚ)
  | infinity (negative : Bool)
  | nan
deriving DecidableEq

namespace Binary64

def nearest (number : ℚ) : ℤ :=
  if Int.fract number < 1 / 2 then ⌊number⌋
  else if 1 / 2 < Int.fract number then ⌊number⌋ + 1
  else if ⌊number⌋ % 2 = 0 then ⌊number⌋
  else ⌊number⌋ + 1

/-- The unit in the last place, of 53 places unless the number is subnormal. -/
def ulp (number : ℚ) : ℚ := 2 ^ (max (Int.log 2 |number|) (-1022) - 52)

def round (number : ℚ) : Binary64 :=
  let rounded := nearest (number / ulp number) * ulp number
  if |rounded| < 2 ^ 1024 then .finite rounded else .infinity (decide (number < 0))

def neg : Binary64 → Binary64
  | finite value => .finite (-value)
  | infinity negative => .infinity !negative
  | nan => .nan

def add : Binary64 → Binary64 → Binary64
  | finite left, finite right => round (left + right)
  | infinity left, infinity right => if left = right then .infinity left else .nan
  | infinity negative, finite _ => .infinity negative
  | finite _, infinity negative => .infinity negative
  | _, _ => .nan

def sub (left right : Binary64) : Binary64 := add left (neg right)

def mul : Binary64 → Binary64 → Binary64
  | finite left, finite right => round (left * right)
  | infinity left, infinity right => .infinity (left ^^ right)
  | infinity negative, finite value =>
    if value = 0 then .nan else .infinity (negative ^^ decide (value < 0))
  | finite value, infinity negative =>
    if value = 0 then .nan else .infinity (negative ^^ decide (value < 0))
  | _, _ => .nan

def less : Binary64 → Binary64 → Bool
  | finite left, finite right => decide (left < right)
  | infinity negative, finite _ => negative
  | finite _, infinity negative => !negative
  | infinity left, infinity right => left && !right
  | _, _ => false

/-! ## Rounding stays within a bound of few places -/

variable {number : ℚ}

theorem nearest_le {bound : ℤ} (below : number ≤ bound) : nearest number ≤ bound := by
  have floorLe : ⌊number⌋ ≤ bound := Int.floor_le_iff.mpr (by linarith)
  by_cases equal : ⌊number⌋ = bound
  · have whole : Int.fract number = 0 := by
      have above := Int.floor_le number
      rw [equal] at above
      rw [le_antisymm below above, Int.fract_intCast]
    rw [nearest, whole, if_pos (by norm_num), equal]
  · unfold nearest
    split_ifs <;> omega

private theorem le_nearest {bound : ℤ} (above : (bound : ℚ) ≤ number) : bound ≤ nearest number := by
  have floorLe : bound ≤ ⌊number⌋ := Int.le_floor.mpr above
  unfold nearest
  split_ifs <;> omega

theorem abs_nearest_le {bound : ℤ} (within : |number| ≤ bound) : |nearest number| ≤ bound := by
  rw [abs_le] at within ⊢
  exact ⟨le_nearest (by push_cast; exact within.1), nearest_le within.2⟩

theorem ulp_pos (number : ℚ) : 0 < ulp number := by
  exact zpow_pos (by norm_num) _

/-- A bound of less than 2^53 units of a power of two is a multiple of the last place of what
it bounds. -/
theorem exists_mul_ulp {units exponent : ℕ} (few : units < 2 ^ 53)
    (within : |number| ≤ units * 2 ^ exponent) :
    ∃ count : ℤ, (units * 2 ^ exponent : ℚ) = count * ulp number := by
  have small : max (Int.log 2 |number|) (-1022) - 52 ≤ exponent := by
    rcases eq_or_ne number 0 with rfl | nonzero
    · rw [abs_zero, Int.log_zero_right]
      omega
    · have positive : 0 < |number| := abs_pos.mpr nonzero
      have power := Int.zpow_log_le_self (b := 2) (by norm_num) positive
      have less : (2 : ℚ) ^ Int.log 2 |number| < 2 ^ ((53 + exponent : ℕ) : ℤ) := by
        have fewer : (units : ℚ) < 2 ^ 53 := by exact_mod_cast few
        have scale : (0 : ℚ) < 2 ^ exponent := by positivity
        calc (2 : ℚ) ^ Int.log 2 |number| ≤ |number| := by exact_mod_cast power
          _ ≤ units * 2 ^ exponent := within
          _ < 2 ^ 53 * 2 ^ exponent := by gcongr
          _ = 2 ^ ((53 + exponent : ℕ) : ℤ) := by rw [zpow_natCast, pow_add]
      have exponents := (zpow_lt_zpow_iff_right₀ (by norm_num : (1 : ℚ) < 2)).mp less
      omega
  refine ⟨units * 2 ^ (exponent - (max (Int.log 2 |number|) (-1022) - 52)).toNat, ?_⟩
  have gap : (exponent : ℤ) = (exponent - (max (Int.log 2 |number|) (-1022) - 52)).toNat +
      (max (Int.log 2 |number|) (-1022) - 52) := by omega
  have powers : (2 : ℚ) ^ exponent =
      2 ^ (exponent - (max (Int.log 2 |number|) (-1022) - 52)).toNat * ulp number := by
    rw [ulp, ← zpow_natCast, ← zpow_natCast, ← zpow_add₀ (by norm_num), ← gap]
  rw [powers]
  push_cast
  ring

def Within (exponent units : ℕ) (number : Binary64) : Prop :=
  ∃ value, number = .finite value ∧ |value| ≤ units * 2 ^ exponent

theorem round_within {units exponent : ℕ} (few : units < 2 ^ 53) (inRange : exponent ≤ 971)
    (within : |number| ≤ units * 2 ^ exponent) : Within exponent units (round number) := by
  rcases exists_mul_ulp few within with ⟨count, multiple⟩
  have positive := ulp_pos number
  have rounded : |(nearest (number / ulp number) * ulp number : ℚ)| ≤ units * 2 ^ exponent := by
    have quotient : |number / ulp number| ≤ count := by
      rw [abs_div, abs_of_pos positive, div_le_iff₀ positive, ← multiple]
      exact within
    rw [abs_mul, abs_of_pos positive, multiple]
    have bound := abs_nearest_le quotient
    have bound' : |(nearest (number / ulp number) : ℚ)| ≤ count := by exact_mod_cast bound
    gcongr
  have finite : |(nearest (number / ulp number) * ulp number : ℚ)| < 2 ^ 1024 := by
    refine rounded.trans_lt ?_
    have fewer : (units : ℚ) < 2 ^ 53 := by exact_mod_cast few
    calc (units * 2 ^ exponent : ℚ) < 2 ^ 53 * 2 ^ exponent := by gcongr
      _ ≤ 2 ^ 53 * 2 ^ 971 := by gcongr; norm_num
      _ = 2 ^ 1024 := by rw [← pow_add]
  exact ⟨_, if_pos finite, rounded⟩

theorem Within.add {exponent m n : ℕ} {left right : Binary64} (few : m + n < 2 ^ 53)
    (inRange : exponent ≤ 971) (leftWithin : Within exponent m left)
    (rightWithin : Within exponent n right) :
    Within exponent (m + n) (left.add right) := by
  rcases leftWithin with ⟨left, rfl, leftLe⟩
  rcases rightWithin with ⟨right, rfl, rightLe⟩
  apply round_within few inRange
  calc |left + right| ≤ |left| + |right| := abs_add_le left right
    _ ≤ m * 2 ^ exponent + n * 2 ^ exponent := add_le_add leftLe rightLe
    _ = (m + n : ℕ) * 2 ^ exponent := by push_cast; ring

theorem Within.mono {exponent m n : ℕ} {number : Binary64} (within : Within exponent m number)
    (fewer : m ≤ n) : Within exponent n number := by
  rcases within with ⟨value, rfl, bound⟩
  refine ⟨value, rfl, bound.trans ?_⟩
  gcongr

theorem Within.less_infinity {exponent units : ℕ} {number : Binary64}
    (within : Within exponent units number) : less number (.infinity false) = true := by
  rcases within with ⟨value, rfl, -⟩
  rfl

theorem Within.ne_infinity {exponent units : ℕ} {number : Binary64}
    (within : Within exponent units number) : number ≠ .infinity false := by
  rcases within with ⟨value, rfl, -⟩
  nofun

theorem infinity_add (number : Binary64) : (infinity false).add number = infinity false ∨
    (infinity false).add number = nan := by
  cases number with
  | finite => exact .inl rfl
  | infinity negative => cases negative <;> decide
  | nan => exact .inr rfl

theorem infinity_add_not_less (left right other : Binary64) :
    less (((infinity false).add left).add right) other = false := by
  have above : less (infinity false) other = false := by
    cases other <;> rfl
  rcases infinity_add left with isInfinity | isNan
  · rw [isInfinity]
    rcases infinity_add right with isInfinity' | isNan'
    · rw [isInfinity', above]
    · rw [isNan']
      rfl
  · rw [isNan]
    rfl

theorem not_less_infinity_sub_mul_zero (cost other : Binary64) :
    less cost (((infinity false).sub other).mul (finite 0)) = false := by
  have undefined : ((infinity false).sub other).mul (finite 0) = nan := by
    rcases infinity_add (neg other) with isInfinity | isNan
    · rw [sub, isInfinity, mul, if_pos rfl]
    · rw [sub, isNan]
      rfl
  rw [undefined]
  cases cost <;> rfl

end Binary64

end CudaMpqs
