import Mathlib.Data.Int.ModEq
import Mathlib.Tactic.Ring

/-! # Congruent squares

Two numbers with congruent squares split the modulus, unless they are congruent or opposite;
then twice the number may still share a factor with it. -/

namespace CudaMpqs.CongruentSquares

def Proper (N divisor : ℕ) : Prop := divisor ≠ 1 ∧ divisor ≠ N

instance (N divisor : ℕ) : Decidable (Proper N divisor) :=
  inferInstanceAs (Decidable (_ ∧ _))

variable {N : ℕ} {x y : ℤ}

theorem gcd_eq_modulus_iff : x.gcd N = N ↔ (N : ℤ) ∣ x := by
  rw [← Int.gcd_eq_natAbs_right_iff_dvd, Int.natAbs_natCast]

theorem dvd_add_of_coprime (squares : (N : ℤ) ∣ x ^ 2 - y ^ 2) (coprime : (x - y).gcd N = 1) :
    (N : ℤ) ∣ x + y := by
  have product : (N : ℤ) ∣ (x - y) * (x + y) := by
    have same : (x - y) * (x + y) = x ^ 2 - y ^ 2 := by ring
    rwa [same]
  exact Int.dvd_of_dvd_mul_right_of_gcd_one product (Int.gcd_comm _ _ ▸ coprime)

theorem gcd_add_of_dvd (same : (N : ℤ) ∣ x - y) : (x + y).gcd N = (2 * x).gcd N := by
  have double : 2 * x = x + y + (x - y) := by ring
  rw [double, Int.gcd_add_right_left_of_dvd _ same]

private theorem gcd_sub_of_dvd (opposite : (N : ℤ) ∣ x + y) : (x - y).gcd N = (2 * x).gcd N := by
  have double : 2 * x = x - y + (x + y) := by ring
  rw [double, Int.gcd_add_right_left_of_dvd _ opposite]

theorem proper_gcd_iff (squares : (N : ℤ) ∣ x ^ 2 - y ^ 2) :
    Proper N ((x - y).gcd N) ∨ Proper N ((x + y).gcd N) ↔
      (¬ (N : ℤ) ∣ x - y ∧ ¬ (N : ℤ) ∣ x + y) ∨ Proper N ((2 * x).gcd N) := by
  by_cases same : (N : ℤ) ∣ x - y
  · have whole := gcd_eq_modulus_iff.mpr same
    rw [gcd_add_of_dvd same, Proper, whole]
    tauto
  · by_cases opposite : (N : ℤ) ∣ x + y
    · have whole := gcd_eq_modulus_iff.mpr opposite
      rw [gcd_sub_of_dvd opposite, Proper, Proper, whole]
      tauto
    · have split : Proper N ((x - y).gcd N) :=
        ⟨fun coprime => opposite (dvd_add_of_coprime squares coprime),
          fun whole => same (gcd_eq_modulus_iff.mp whole)⟩
      exact iff_of_true (.inl split) (.inl ⟨same, opposite⟩)

end CudaMpqs.CongruentSquares
