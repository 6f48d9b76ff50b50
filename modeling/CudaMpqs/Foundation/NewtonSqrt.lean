import Mathlib.Tactic.Linarith
import Mathlib.Tactic.Ring

/-! # The integer square root by Newton's iteration

The iteration starts above the root, decreases until it reaches the root, and
doubles the number of correct bits with every turn. -/

namespace CudaMpqs.NewtonSqrt

def step (n x : Nat) : Nat := (n / x + x) / 2

/-- The iteration stops when it no longer decreases, or out of turns. -/
def loop (n : Nat) : Nat → Nat → Nat
  | 0, x => x
  | turns + 1, x => if step n x < x then loop n turns (step n x) else x

variable {n x : Nat}

theorem sqrt_le_step (positive : 0 < x) : Nat.sqrt n ≤ step n x := by
  have square := Nat.sqrt_le n
  generalize Nat.sqrt n = root at square ⊢
  rw [step, Nat.le_div_iff_mul_le Nat.two_pos]
  rcases Nat.le_total (root * 2) x with high | low
  · exact high.trans (Nat.le_add_left _ _)
  · rw [← Nat.sub_le_iff_le_add, Nat.le_div_iff_mul_le positive]
    rcases Nat.exists_eq_add_of_le low with ⟨rest, split⟩
    rw [split, Nat.add_sub_cancel_left]
    nlinarith [sq_nonneg ((x : Int) - rest)]

theorem step_lt (above : Nat.sqrt n < x) : step n x < x := by
  have below : n < x * x := Nat.sqrt_lt.mp above
  have quotient : n / x < x := Nat.div_lt_of_lt_mul below
  unfold step
  omega

/-- From less than `turns` above the root the iteration reaches it. -/
theorem loop_eq_of_lt {turns : Nat} (above : Nat.sqrt n ≤ x) (positive : 0 < x)
    (close : x < Nat.sqrt n + turns) : loop n turns x = Nat.sqrt n := by
  induction turns generalizing x with
  | zero => omega
  | succ turns induction =>
    have next := @sqrt_le_step n x positive
    rw [loop]
    split
    next decreases =>
        rcases Nat.eq_zero_or_pos (step n x) with zero | more
        · have root : Nat.sqrt n = 0 := by omega
          rw [zero, root]
          cases turns with
          | zero => rfl
          | succ turns =>
            rw [loop, if_neg]
            simp [step]
        · exact induction next more (by omega)
    next stops =>
        by_contra different
        exact stops (step_lt (by omega))

theorem step_distance {distance rest : Nat} (above : x = Nat.sqrt n + distance)
    (next : step n x = Nat.sqrt n + rest) :
    2 * rest * (Nat.sqrt n + distance) ≤ distance * distance + 2 * Nat.sqrt n := by
  have square := Nat.sqrt_le_add n
  have quotient := Nat.div_mul_le_self n x
  have half : 2 * step n x ≤ n / x + x := by
    unfold step
    omega
  rw [next, above] at half
  rw [above] at quotient
  generalize n / (Nat.sqrt n + distance) = q at half quotient
  generalize Nat.sqrt n = root at half quotient square ⊢
  nlinarith

def Close (root exponent distance : Nat) : Prop :=
  2 ^ exponent * distance ≤ root + 2 * 2 ^ exponent

theorem close_first {distance rest root : Nat} (some : 0 < root) (near : distance ≤ root)
    (shrinks : 2 * rest * (root + distance) ≤ distance * distance + 2 * root) :
    Close root 2 rest := by
  unfold Close
  by_contra far
  have large : root + 9 ≤ 4 * rest := by omega
  have product : (root + 9) * (root + distance) ≤ 4 * rest * (root + distance) :=
    Nat.mul_le_mul_right _ large
  have inner : distance * distance ≤ root * distance := Nat.mul_le_mul_right _ near
  have outer : distance * distance ≤ root * root := Nat.mul_le_mul near near
  nlinarith

private theorem close_next {distance rest root exponent : Nat} (two : 2 ≤ exponent)
    (four : 4 ≤ root) (close : Close root exponent distance)
    (shrinks : 2 * rest * (root + distance) ≤ distance * distance + 2 * root) :
    Close root (2 * exponent + 1) rest := by
  unfold Close at close ⊢
  have power : 2 ^ (2 * exponent + 1) = 2 * (2 ^ exponent * 2 ^ exponent) := by ring
  have least : 4 ≤ 2 ^ exponent := Nat.pow_le_pow_right Nat.two_pos two
  rw [power]
  generalize 2 ^ exponent = K at close least ⊢
  have squared : K * distance * (K * distance) ≤ (root + 2 * K) * (root + 2 * K) :=
    Nat.mul_le_mul close close
  have scaled : 2 * rest * root * (K * K) ≤
      (root + 2 * K) * (root + 2 * K) + 2 * root * (K * K) := by
    calc 2 * rest * root * (K * K) ≤ 2 * rest * (root + distance) * (K * K) := by
          apply Nat.mul_le_mul_right
          exact Nat.mul_le_mul_left _ (Nat.le_add_right _ _)
      _ ≤ (distance * distance + 2 * root) * (K * K) := Nat.mul_le_mul_right _ shrinks
      _ = K * distance * (K * distance) + 2 * root * (K * K) := by ring
      _ ≤ _ := Nat.add_le_add_right squared _
  have first : 4 * (K * root) ≤ K * (K * root) := Nat.mul_le_mul_right _ least
  have second : K * K * 4 ≤ K * K * root := Nat.mul_le_mul_left _ four
  have whole : root * (2 * (K * K) * rest) ≤ root * (root + 2 * (2 * (K * K))) := by
    nlinarith
  exact Nat.le_of_mul_le_mul_left whole (by omega)

private theorem loop_succ_eq {turns exponent : Nat} (two : 2 ≤ exponent) (four : 4 ≤ Nat.sqrt n)
    (rest : ∀ y, Nat.sqrt n ≤ y → Close (Nat.sqrt n) (2 * exponent + 1) (y - Nat.sqrt n) →
      loop n turns y = Nat.sqrt n)
    {x : Nat} (above : Nat.sqrt n ≤ x)
    (close : Close (Nat.sqrt n) exponent (x - Nat.sqrt n)) :
    loop n (turns + 1) x = Nat.sqrt n := by
  have positive : 0 < x := by omega
  have next := @sqrt_le_step n x positive
  rw [loop]
  split
  next decreases =>
      apply rest _ next
      apply close_next two four close
      have apart : x = Nat.sqrt n + (x - Nat.sqrt n) := by omega
      exact step_distance apart (by omega)
  next stops =>
      by_contra different
      exact stops (step_lt (by omega))

/-- Started at most twice the root, the iteration finds the root of a number
below `2 ^ 766` in eleven turns. -/
theorem loop_eq_sqrt {extra : Nat} (above : Nat.sqrt n ≤ x) (double : x ≤ 2 * Nat.sqrt n)
    (positive : 0 < x) (small : Nat.sqrt n < 2 ^ 383) : loop n (extra + 11) x = Nat.sqrt n := by
  rcases Nat.lt_or_ge (Nat.sqrt n) 4 with tiny | four
  · exact loop_eq_of_lt above positive (by omega)
  have last : ∀ y, Nat.sqrt n ≤ y → Close (Nat.sqrt n) 383 (y - Nat.sqrt n) →
      loop n (extra + 3) y = Nat.sqrt n := by
    intro y yAbove close
    apply loop_eq_of_lt yAbove (by omega)
    unfold Close at close
    generalize 2 ^ 383 = K at small close
    have few : y - Nat.sqrt n < 3 := by
      by_contra many
      have product : K * 3 ≤ K * (y - Nat.sqrt n) := Nat.mul_le_mul_left _ (by omega)
      omega
    omega
  have turn4 := fun y yAbove => @loop_succ_eq n (extra + 3) 191 (by omega) four last y yAbove
  have turn5 := fun y yAbove => @loop_succ_eq n (extra + 4) 95 (by omega) four turn4 y yAbove
  have turn6 := fun y yAbove => @loop_succ_eq n (extra + 5) 47 (by omega) four turn5 y yAbove
  have turn7 := fun y yAbove => @loop_succ_eq n (extra + 6) 23 (by omega) four turn6 y yAbove
  have turn8 := fun y yAbove => @loop_succ_eq n (extra + 7) 11 (by omega) four turn7 y yAbove
  have turn9 := fun y yAbove => @loop_succ_eq n (extra + 8) 5 (by omega) four turn8 y yAbove
  have turn10 := fun y yAbove => @loop_succ_eq n (extra + 9) 2 (by omega) four turn9 y yAbove
  have next := @sqrt_le_step n x positive
  rw [loop]
  split
  next decreases =>
      apply turn10 _ next
      apply close_first (show 0 < Nat.sqrt n by omega)
        (show x - Nat.sqrt n ≤ Nat.sqrt n by omega)
      have apart : x = Nat.sqrt n + (x - Nat.sqrt n) := by omega
      exact step_distance apart (by omega)
  next stops =>
      by_contra different
      exact stops (step_lt (by omega))

end CudaMpqs.NewtonSqrt
