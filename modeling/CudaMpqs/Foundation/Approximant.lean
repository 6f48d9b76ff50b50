import Mathlib.Algebra.BigOperators.Group.Finset.Sigma
import Mathlib.Algebra.Order.Group.Nat

/-! # Approximants of a sequence

A polynomial row is given by its coefficients. Its product with a sequence has
the residuals as coefficients; a row annihilates the sequence from its degree
bound on when the residuals from there up to the current order vanish. -/

namespace CudaMpqs.Approximant

open Finset

variable {V P : Type} [AddCommMonoid V] [AddCommMonoid P]

/-- The coefficient of `x ^ s` in the product of the row `f` with the sequence
whose `i`th term acts on coefficients as `pair i`. -/
def residual (pair : Nat → V →+ P) (f : Nat → V) (s : Nat) : P :=
  ∑ k ∈ range (s + 1), pair (s - k) (f k)

def shift (f : Nat → V) : Nat → V
  | 0 => 0
  | k + 1 => f k

structure Annihilates (pair : Nat → V →+ P) (degree order : Nat) (f : Nat → V) : Prop where
  above : ∀ k, degree < k → f k = 0
  vanishes : ∀ s, degree ≤ s → s < order → residual pair f s = 0

variable (pair : Nat → V →+ P)

theorem residual_sum {ι : Type} (rows : Finset ι) (f : ι → Nat → V) (s : Nat) :
    residual pair (fun k => ∑ i ∈ rows, f i k) s = ∑ i ∈ rows, residual pair (f i) s := by
  unfold residual
  rw [sum_comm]
  apply sum_congr rfl
  intro k member
  exact map_sum (pair (s - k)) _ _

@[simp] theorem residual_shift_zero (f : Nat → V) : residual pair (shift f) 0 = 0 := by
  simp [residual, shift]

@[simp] theorem residual_shift_succ (f : Nat → V) (s : Nat) :
    residual pair (shift f) (s + 1) = residual pair f s := by
  unfold residual
  rw [sum_range_succ', shift, map_zero, add_zero]
  apply sum_congr rfl
  intro k member
  rw [shift, Nat.add_sub_add_right]

variable {pair} {degree order : Nat}

/-- A sum of rows whose degree bounds do not exceed the given one. -/
theorem Annihilates.sum {ι : Type} {rows : Finset ι} {f : ι → Nat → V}
    {degrees : ι → Nat} (each : ∀ i ∈ rows, Annihilates pair (degrees i) order (f i))
    (bound : ∀ i ∈ rows, degrees i ≤ degree) :
    Annihilates pair degree order fun k => ∑ i ∈ rows, f i k where
  above := by
    intro k above
    apply sum_eq_zero
    intro i member
    exact (each i member).above k ((bound i member).trans_lt above)
  vanishes := by
    intro s lower upper
    rw [residual_sum]
    apply sum_eq_zero
    intro i member
    exact (each i member).vanishes s ((bound i member).trans lower) upper

theorem Annihilates.advance {f : Nat → V} (annihilates : Annihilates pair degree order f)
    (zero : residual pair f order = 0) : Annihilates pair degree (order + 1) f where
  above := annihilates.above
  vanishes := by
    intro s lower upper
    rcases Nat.lt_succ_iff_lt_or_eq.mp upper with below | rfl
    · exact annihilates.vanishes s lower below
    · exact zero

theorem Annihilates.shift {f : Nat → V} (annihilates : Annihilates pair degree order f) :
    Annihilates pair (degree + 1) (order + 1) (shift f) where
  above := by
    intro k above
    cases k with
    | zero => rfl
    | succ k => exact annihilates.above k (by omega)
  vanishes := by
    intro s lower upper
    cases s with
    | zero => exact residual_shift_zero pair f
    | succ s =>
      rw [residual_shift_succ]
      exact annihilates.vanishes s (by omega) (by omega)

end CudaMpqs.Approximant
