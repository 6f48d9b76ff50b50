import Mathlib.Algebra.Polynomial.Coeff
import Mathlib.Tactic.NoncommRing

/-!
# Products of polynomials given by their coefficients

Over any ring: the windows that a convolution sums over, and Karatsuba's
identity where addition is its own inverse.
-/

namespace CudaMpqs.CoefficientProducts

open Polynomial Finset

variable {R : Type*}

section Semiring

variable [Semiring R]

noncomputable def ofCoefficients (length : Nat) (coefficient : Nat → R) : R[X] :=
  ∑ index ∈ range length, monomial index (coefficient index)

theorem coeff_ofCoefficients (length : Nat) (coefficient : Nat → R) (index : Nat) :
    (ofCoefficients length coefficient).coeff index =
      if index < length then coefficient index else 0 := by
  simp only [ofCoefficients, finsetSum_coeff, coeff_monomial, Finset.sum_ite_eq', mem_range]

theorem ofCoefficients_congr {length : Nat} {left right : Nat → R}
    (equal : ∀ index < length, left index = right index) :
    ofCoefficients length left = ofCoefficients length right :=
  Finset.sum_congr rfl fun index inside => by rw [equal index (mem_range.mp inside)]

theorem eq_of_ofCoefficients {length : Nat} {left right : Nat → R}
    (equal : ofCoefficients length left = ofCoefficients length right)
    {index : Nat} (inside : index < length) : left index = right index := by
  have same := congrArg (fun polynomial => polynomial.coeff index) equal
  simpa only [coeff_ofCoefficients, if_pos inside] using same

theorem ofCoefficients_zero (length : Nat) : ofCoefficients length (fun _ => (0 : R)) = 0 := by
  simp [ofCoefficients]

/-- Coefficients `start, start + 1, ..` are the polynomial shifted by `start`. -/
theorem ofCoefficients_split {start length : Nat} (ordered : start ≤ length)
    (coefficient : Nat → R) :
    ofCoefficients length coefficient = ofCoefficients start coefficient +
        X ^ start * ofCoefficients (length - start) fun index => coefficient (start + index) := by
  ext index
  rw [coeff_add, X_pow_mul, coeff_mul_X_pow', coeff_ofCoefficients, coeff_ofCoefficients]
  by_cases low : index < start
  · rw [if_pos (by omega), if_pos low, if_neg (by omega), add_zero]
  · have reached : start ≤ index := by omega
    rw [if_neg low, zero_add, if_pos reached, coeff_ofCoefficients, Nat.add_sub_cancel' reached]
    exact if_congr (by omega) rfl rfl

theorem coeff_mul_double (leftLength rightLength : Nat) (left right : Nat → R) (index : Nat) :
    (ofCoefficients leftLength left * ofCoefficients rightLength right).coeff index =
      ∑ i ∈ range leftLength, ∑ j ∈ range rightLength,
        if i + j = index then left i * right j else 0 := by
  simp only [ofCoefficients, Finset.sum_mul_sum, monomial_mul_monomial, finsetSum_coeff,
    coeff_monomial]

/-- One inner sum has at most the term at `index - i`. -/
theorem coeff_mul_masked (leftLength rightLength : Nat) (left right : Nat → R) (index : Nat) :
    (ofCoefficients leftLength left * ofCoefficients rightLength right).coeff index =
      ∑ i ∈ range leftLength,
        if i ≤ index ∧ index - i < rightLength then left i * right (index - i) else 0 := by
  rw [coeff_mul_double]
  refine Finset.sum_congr rfl fun i _ => ?_
  by_cases below : i ≤ index
  · have single : ∀ j, (if i + j = index then left i * right j else 0) =
        if j = index - i then left i * right j else 0 :=
      fun j => if_congr (by omega) rfl rfl
    simp only [single, Finset.sum_ite_eq', mem_range, below, true_and]
  · rw [if_neg fun both : i ≤ index ∧ _ => below both.1]
    exact Finset.sum_eq_zero fun j _ => if_neg (by omega)

/-- The window of a convolution: the terms whose two indices are in range. -/
theorem coeff_mul_window {leftLength rightLength : Nat} (leftPositive : 0 < leftLength)
    (left right : Nat → R) (index : Nat) :
    (ofCoefficients leftLength left * ofCoefficients rightLength right).coeff index =
      ∑ i ∈ Ico (index + 1 - rightLength) (min index (leftLength - 1) + 1),
        left i * right (index - i) := by
  rw [coeff_mul_masked, ← Finset.sum_filter]
  refine Finset.sum_congr (Finset.ext fun i => ?_) fun _ _ => rfl
  simp only [mem_filter, mem_range, mem_Ico]
  omega

theorem coeff_mul_eq_zero {leftLength rightLength : Nat} (left right : Nat → R) {index : Nat}
    (outside : leftLength + rightLength - 1 ≤ index) :
    (ofCoefficients leftLength left * ofCoefficients rightLength right).coeff index = 0 := by
  rw [coeff_mul_masked]
  refine Finset.sum_eq_zero fun i inside => if_neg fun both => ?_
  have := mem_range.mp inside
  omega

end Semiring

/-- Karatsuba's identity, where addition is its own inverse and `shift` is central. -/
theorem karatsuba_identity {S : Type*} [Ring S] (double : ∀ value : S, value + value = 0)
    {shift : S} (central : ∀ value, shift * value = value * shift)
    (lowLeft highLeft lowRight highRight : S) :
    lowLeft * lowRight + shift * shift * (highLeft * highRight) +
        shift * ((lowLeft + highLeft) * (lowRight + highRight) +
          lowLeft * lowRight + highLeft * highRight) =
      (lowLeft + shift * highLeft) * (lowRight + shift * highRight) := by
  have negated : ∀ value : S, value = -value :=
    fun value => eq_neg_of_add_eq_zero_left (double value)
  have middle : (lowLeft + highLeft) * (lowRight + highRight) +
      lowLeft * lowRight + highLeft * highRight =
        lowLeft * highRight + highLeft * lowRight := by
    have expanded : (lowLeft + highLeft) * (lowRight + highRight) +
        -(lowLeft * lowRight) + -(highLeft * highRight) =
          lowLeft * highRight + highLeft * lowRight := by
      noncomm_ring
    rwa [← negated, ← negated] at expanded
  have crossed : lowLeft * (shift * highRight) = shift * (lowLeft * highRight) := by
    rw [← mul_assoc, ← central, mul_assoc]
  have high : shift * highLeft * (shift * highRight) =
      shift * shift * (highLeft * highRight) := by
    rw [mul_assoc, ← mul_assoc highLeft, ← central highLeft]
    simp only [mul_assoc]
  rw [middle, add_mul, mul_add, mul_add, mul_add, crossed, high, mul_assoc shift highLeft]
  abel

end CudaMpqs.CoefficientProducts
