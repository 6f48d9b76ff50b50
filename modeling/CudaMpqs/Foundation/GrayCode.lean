import Mathlib.Data.Nat.Bitwise
import Mathlib.Order.Nat

/-! # Reflected Gray codes

The code of `index` is `index ^ (index >> 1)`. Neighbouring codes, and the last
and first code of a power-of-two block, differ in one bit, which is the lowest
set bit of the later index. -/

namespace CudaMpqs.GrayCode

def grayCode (index : Nat) : Nat := index ^^^ (index >>> 1)

structure LowestBit (number bit : Nat) : Prop where
  set : number.testBit bit = true
  clear : ∀ lower < bit, number.testBit lower = false

theorem LowestBit.unique {number left right : Nat} (leftLowest : LowestBit number left)
    (rightLowest : LowestBit number right) : left = right := by
  rcases Nat.lt_trichotomy left right with below | equal | above
  · simpa [leftLowest.set] using rightLowest.clear left below
  · exact equal
  · simpa [rightLowest.set] using leftLowest.clear right above

theorem exists_lowestBit {number : Nat} (positive : 0 < number) : ∃ bit, LowestBit number bit := by
  have exists_set : ∃ bit, number.testBit bit = true :=
    Nat.exists_testBit_of_ne_zero positive.ne'
  refine ⟨Nat.find exists_set, Nat.find_spec exists_set, ?_⟩
  intro lower below
  simpa using Nat.find_min exists_set below

variable {number bit : Nat}

theorem LowestBit.two_pow_le (lowest : LowestBit number bit) : 2 ^ bit ≤ number :=
  Nat.ge_two_pow_of_testBit lowest.set

theorem LowestBit.eq_mul_two_pow (lowest : LowestBit number bit) :
    number = 2 ^ bit * (number / 2 ^ bit) ∧ (number / 2 ^ bit) % 2 = 1 := by
  have low : number % 2 ^ bit = 0 := by
    apply Nat.eq_of_testBit_eq
    intro index
    rw [Nat.testBit_mod_two_pow, Nat.zero_testBit]
    by_cases below : index < bit
    · rw [lowest.clear index below, Bool.and_false]
    · simp [below]
  constructor
  · have division := Nat.div_add_mod number (2 ^ bit)
    omega
  · have odd := lowest.set
    rw [Nat.testBit_eq_decide_div_mod_eq] at odd
    simpa using odd

theorem LowestBit.xor_pred (lowest : LowestBit number bit) :
    number ^^^ (number - 1) = 2 ^ (bit + 1) - 1 := by
  rcases lowest.eq_mul_two_pow with ⟨multiple, odd⟩
  have split : number - 1 =
      2 ^ bit * (number / 2 ^ bit - 1) + (2 ^ bit - 1) := by
    have factor : number / 2 ^ bit = number / 2 ^ bit - 1 + 1 := by
      generalize number / 2 ^ bit = quotient at odd
      omega
    have expanded : number = 2 ^ bit * (number / 2 ^ bit - 1) + 2 ^ bit := by
      rw [← Nat.mul_add_one, ← factor]
      exact multiple
    have positive := Nat.two_pow_pos bit
    omega
  have small : 2 ^ bit - 1 < 2 ^ bit := by
    have positive := Nat.two_pow_pos bit
    omega
  apply Nat.eq_of_testBit_eq
  intro index
  rw [Nat.testBit_xor, split, Nat.testBit_two_pow_mul_add _ small,
    Nat.testBit_two_pow_sub_one, Nat.testBit_two_pow_sub_one]
  rcases Nat.lt_trichotomy index bit with below | rfl | above
  · rw [lowest.clear index below]
    simp [below, Nat.lt_succ_of_lt below]
  · have even : (number / 2 ^ index - 1).testBit 0 = false := by
      rw [Nat.testBit_zero]
      have parity : (number / 2 ^ index - 1) % 2 = 0 := by omega
      simp [parity]
    simp [lowest.set, even]
  · have shifted : (number / 2 ^ bit - 1).testBit (index - bit) =
        number.testBit index := by
      have position : index - bit = index - bit - 1 + 1 := by omega
      have halves : (number / 2 ^ bit - 1) / 2 = number / 2 ^ bit / 2 := by
        generalize number / 2 ^ bit = quotient at odd
        omega
      have same : number.testBit index =
          (number / 2 ^ bit).testBit (index - bit) := by
        rw [Nat.testBit_div_two_pow]
        congr 1
        omega
      rw [same, position, Nat.testBit_add_one, Nat.testBit_add_one, halves]
    have outside : ¬ index < bit := by omega
    have outsideSucc : ¬ index < bit + 1 := by omega
    simp [outside, outsideSucc, shifted]

theorem testBit_grayCode (index bit : Nat) : (grayCode index).testBit bit =
      (index.testBit bit ^^ index.testBit (bit + 1)) := by
  rw [grayCode, Nat.testBit_xor, Nat.testBit_shiftRight, Nat.add_comm]

theorem grayCode_xor (left right : Nat) :
    grayCode (left ^^^ right) = grayCode left ^^^ grayCode right := by
  apply Nat.eq_of_testBit_eq
  intro bit
  simp only [testBit_grayCode, Nat.testBit_xor]
  cases left.testBit bit <;> cases left.testBit (bit + 1) <;>
    cases right.testBit bit <;> cases right.testBit (bit + 1) <;> rfl

theorem grayCode_ones (bit : Nat) : grayCode (2 ^ (bit + 1) - 1) = 2 ^ bit := by
  apply Nat.eq_of_testBit_eq
  intro index
  rw [testBit_grayCode, Nat.testBit_two_pow_sub_one, Nat.testBit_two_pow_sub_one,
    Nat.testBit_two_pow]
  rcases Nat.lt_trichotomy index bit with below | rfl | above
  · have distinct : bit ≠ index := by omega
    simp [below, Nat.lt_succ_of_lt below, distinct]
  · simp
  · have outside : ¬ index < bit + 1 := by omega
    have outsideNext : ¬ index < bit := by omega
    have distinct : bit ≠ index := by omega
    simp [outside, outsideNext, distinct]

theorem LowestBit.grayCode_eq (lowest : LowestBit number bit) :
    grayCode number = grayCode (number - 1) ^^^ 2 ^ bit := by
  have change : grayCode number ^^^ grayCode (number - 1) = 2 ^ bit := by
    rw [← grayCode_xor, lowest.xor_pred, grayCode_ones]
  rw [← change, Nat.xor_comm (grayCode number), Nat.xor_xor_cancel_left]

@[simp] theorem grayCode_zero : grayCode 0 = 0 := rfl

theorem grayCode_lt {index width : Nat} (bound : index < 2 ^ width) :
    grayCode index < 2 ^ width := by
  apply Nat.xor_lt_two_pow bound
  exact Nat.lt_of_le_of_lt (Nat.shiftRight_le index 1) bound

theorem grayCode_injective : Function.Injective grayCode := by
  intro left right equal
  have zero : grayCode (left ^^^ right) = 0 := by
    rw [grayCode_xor, equal, Nat.xor_self]
  have same : left ^^^ right = (left ^^^ right) >>> 1 := Nat.xor_eq_zero_iff.mp zero
  rw [Nat.shiftRight_eq_div_pow] at same
  exact Nat.xor_eq_zero_iff.mp (by omega)

/-- The lowest set bit of an index below `2 ^ (width + 1)` is not changed by
setting bit `width`; the index 0 then gets that bit. -/
theorem lowestBit_or_half {index width bit : Nat} (bound : index < 2 ^ (width + 1))
    (lowest : LowestBit (index ||| 2 ^ width) bit) :
    (index = 0 → bit = width) ∧ (0 < index → LowestBit index bit) := by
  constructor
  · rintro rfl
    apply lowest.unique
    constructor
    · simp
    · intro lower below
      simp [Nat.testBit_two_pow_of_ne (Nat.ne_of_gt below)]
  · intro positive
    rcases exists_lowestBit positive with ⟨own, ownLowest⟩
    have ownBound : own < width + 1 :=
      (Nat.pow_lt_pow_iff_right (by decide)).mp
        (Nat.lt_of_le_of_lt ownLowest.two_pow_le bound)
    have both : LowestBit (index ||| 2 ^ width) own := by
      constructor
      · simp [ownLowest.set]
      · intro lower below
        have distinct : width ≠ lower := by omega
        simp [ownLowest.clear lower below, Nat.testBit_two_pow_of_ne distinct]
    rwa [lowest.unique both]

private theorem mod_succ_cases (index : Nat) {size : Nat} (positive : 0 < size) :
    ((index + 1) % size = 0 ∧ index % size = size - 1) ∨ (index + 1) % size = index % size + 1 := by
  have bound := Nat.mod_lt index positive
  have remainder : (index + 1) % size = (index % size + 1) % size := by
    rw [Nat.mod_add_mod]
  rcases Nat.lt_or_ge (index % size + 1) size with inside | last
  · exact Or.inr (remainder.trans (Nat.mod_eq_of_lt inside))
  · have full : index % size + 1 = size := by omega
    refine Or.inl ⟨?_, by omega⟩
    rw [remainder, full, Nat.mod_self]

/-- The cyclic walk over a block of `2 ^ (width + 1)` codes. -/
theorem grayCode_cyclic {index width bit : Nat}
    (lowest : LowestBit ((index + 1) % 2 ^ (width + 1) ||| 2 ^ width) bit) :
    grayCode ((index + 1) % 2 ^ (width + 1)) = grayCode (index % 2 ^ (width + 1)) ^^^ 2 ^ bit := by
  have bound := Nat.mod_lt (index + 1) (Nat.two_pow_pos (width + 1))
  rcases lowestBit_or_half bound lowest with ⟨wraps, advances⟩
  rcases mod_succ_cases index (Nat.two_pow_pos (width + 1)) with wrapped | inside
  · rw [wrapped.1, wrapped.2, wraps wrapped.1, grayCode_ones, Nat.xor_self, grayCode_zero]
  · have nonzero : 0 < (index + 1) % 2 ^ (width + 1) := by omega
    rw [(advances nonzero).grayCode_eq, inside, Nat.add_sub_cancel]

end CudaMpqs.GrayCode
