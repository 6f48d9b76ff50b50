import Mathlib.Tactic.Ring

/-! # Square roots by lowering an order

A candidate root is off by a factor whose order is a power of two. Multiplying by a
suitable power of a non-square lowers that order until the factor is one. -/

namespace CudaMpqs.RootDescent

variable {K : Type} [Field K] {a c t R : K} {M i : Nat}

/-- `c` has order `2 ^ M`, that of `t` is smaller, and `R` is a root of `a` up to `t`. -/
structure Descent (a : K) (M : Nat) (c t R : K) : Prop where
  positive : 0 < M
  half : c ^ 2 ^ (M - 1) = -1
  ones : t ^ 2 ^ (M - 1) = 1
  square : R ^ 2 = a * t

theorem Descent.ne_zero (descent : Descent a M c t R) : t ≠ 0 := by
  intro zero
  have ones := descent.ones
  rw [zero, zero_pow (Nat.two_pow_pos _).ne'] at ones
  exact zero_ne_one ones

private theorem eq_neg_one_of_order (positive : 0 < i) (order : t ^ 2 ^ i = 1)
    (least : t ^ 2 ^ (i - 1) ≠ 1) : t ^ 2 ^ (i - 1) = -1 := by
  have square : (t ^ 2 ^ (i - 1)) ^ 2 = 1 := by
    rw [← pow_mul, ← pow_succ, Nat.sub_add_cancel positive, order]
  exact (sq_eq_one_iff.mp square).resolve_left least

theorem Descent.step (descent : Descent a M c t R) (positive : 0 < i) (below : i < M)
    (order : t ^ 2 ^ i = 1) (least : t ^ 2 ^ (i - 1) ≠ 1) :
    Descent a i ((c ^ 2 ^ (M - i - 1)) ^ 2) (t * (c ^ 2 ^ (M - i - 1)) ^ 2)
      (R * c ^ 2 ^ (M - i - 1)) := by
  have lowered : ((c ^ 2 ^ (M - i - 1)) ^ 2) ^ 2 ^ (i - 1) = -1 := by
    have exponent : M - i - 1 + (i - 1 + 1) = M - 1 := by omega
    rw [← pow_mul, ← pow_succ', ← pow_mul, ← pow_add, exponent, descent.half]
  refine ⟨positive, lowered, ?_, ?_⟩
  · rw [mul_pow, lowered, eq_neg_one_of_order positive order least, neg_mul_neg, one_mul]
  · rw [mul_pow, descent.square, mul_assoc]

/-- Any element with a half power of minus one starts the descent. -/
theorem Descent.start {z : K} {Q S half : Nat} (positive : 0 < S) (odd : Q % 2 = 1)
    (split : half = 2 ^ (S - 1) * Q) (nonSquare : z ^ half = -1) (square : a ^ half = 1) :
    Descent a S (z ^ Q) (a ^ Q) (a ^ ((Q + 1) / 2)) := by
  refine ⟨positive, ?_, ?_, ?_⟩
  · rw [← pow_mul, Nat.mul_comm, ← split, nonSquare]
  · rw [← pow_mul, Nat.mul_comm, ← split, square]
  · have twice : (Q + 1) / 2 * 2 = Q + 1 := by omega
    rw [← pow_mul, twice, pow_succ']

end CudaMpqs.RootDescent
