import CudaMpqs.Foundation.GrayCode

/-! # Gray-code helpers of `graycode.cuh` -/

namespace CudaMpqs

open GrayCode

def gray (index : BitVec 32) : BitVec 32 := index ^^^ (index >>> 1)

def ctz32 (word : BitVec 32) : BitVec 32 := word.ctz

def advanceGray (index : BitVec 32) : BitVec 32 :=
  ctz32 (gray (index + 1) ^^^ gray index)

structure GrayFlip where
  bit : BitVec 32
  nowSet : Bool

def advanceGrayCyclic (walkIndex blockMask blockHalf grayCode : BitVec 32) : GrayFlip × BitVec 32 :=
  let bit := ctz32 ((walkIndex &&& blockMask) ||| blockHalf)
  let grayCode := grayCode ^^^ ((1 : BitVec 32) <<< bit)
  (⟨bit, (grayCode >>> bit) &&& 1 != 0⟩, grayCode)

@[simp] theorem toNat_gray (index : BitVec 32) : (gray index).toNat = grayCode index.toNat := by
  rw [gray, BitVec.toNat_xor, BitVec.toNat_ushiftRight, grayCode]

theorem lowestBit_ctz32 {word : BitVec 32} (nonzero : word ≠ 0) :
    LowestBit word.toNat (ctz32 word).toNat := by
  constructor
  · exact BitVec.getLsbD_true_ctz_of_ne_zero nonzero
  · intro lower below
    exact BitVec.getLsbD_false_of_lt_ctz below

theorem toNat_one_shiftLeft {bit : BitVec 32} (bound : bit.toNat < 32) :
    ((1 : BitVec 32) <<< bit).toNat = 2 ^ bit.toNat := by
  have small : 2 ^ bit.toNat < 2 ^ 32 := Nat.pow_lt_pow_right (by decide) bound
  rw [BitVec.shiftLeft_eq', BitVec.toNat_shiftLeft, Nat.shiftLeft_eq,
    Nat.mod_eq_of_lt (by simpa using small)]
  simp

private theorem shiftRight_and_one (word bit : BitVec 32) :
    ((word >>> bit) &&& 1 != 0) = word.toNat.testBit bit.toNat := by
  have value : ((word >>> bit) &&& 1).toNat = word.toNat / 2 ^ bit.toNat % 2 := by
    rw [BitVec.toNat_and, BitVec.ushiftRight_eq', BitVec.toNat_ushiftRight,
      Nat.shiftRight_eq_div_pow]
    exact Nat.and_one_is_mod _
  rw [Nat.testBit_eq_decide_div_mod_eq, Bool.eq_iff_iff, bne_iff_ne, ne_eq,
    ← BitVec.toNat_inj, value, decide_eq_true_iff]
  exact Nat.mod_two_ne_zero

/-- The walk visits the Gray codes of the block, one flip a step. -/
theorem advanceGrayCyclic_spec {width : Nat} (fits : width < 31)
    {walkIndex code : BitVec 32} {index : Nat}
    (walk : walkIndex.toNat % 2 ^ (width + 1) = (index + 1) % 2 ^ (width + 1))
    (current : code.toNat = grayCode (index % 2 ^ (width + 1))) :
    let step := advanceGrayCyclic walkIndex (BitVec.ofNat 32 (2 ^ (width + 1) - 1))
      (BitVec.ofNat 32 (2 ^ width)) code
    step.1.bit.toNat ≤ width ∧ step.2.toNat = grayCode ((index + 1) % 2 ^ (width + 1)) ∧
      step.2.toNat = code.toNat ^^^ 2 ^ step.1.bit.toNat ∧
      step.1.nowSet = step.2.toNat.testBit step.1.bit.toNat := by
  intro step
  have halfFits : 2 ^ width < 2 ^ 32 := Nat.pow_lt_pow_right (by decide) (by omega)
  have blockFits : 2 ^ (width + 1) < 2 ^ 32 := Nat.pow_lt_pow_right (by decide) (by omega)
  have selector : ((walkIndex &&& BitVec.ofNat 32 (2 ^ (width + 1) - 1)) |||
      BitVec.ofNat 32 (2 ^ width)).toNat =
        (index + 1) % 2 ^ (width + 1) ||| 2 ^ width := by
    rw [BitVec.toNat_or, BitVec.toNat_and, BitVec.toNat_ofNat, BitVec.toNat_ofNat,
      Nat.mod_eq_of_lt halfFits, Nat.mod_eq_of_lt (by omega),
      Nat.and_two_pow_sub_one_eq_mod, walk]
  have nonzero : (walkIndex &&& BitVec.ofNat 32 (2 ^ (width + 1) - 1)) |||
      BitVec.ofNat 32 (2 ^ width) ≠ 0 := by
    intro zero
    have half : ((index + 1) % 2 ^ (width + 1) ||| 2 ^ width).testBit width = true := by
      simp
    rw [← selector, zero] at half
    simp at half
  have lowest := lowestBit_ctz32 nonzero
  rw [selector] at lowest
  have bitBound : step.1.bit.toNat ≤ width := by
    have top : ((index + 1) % 2 ^ (width + 1) ||| 2 ^ width) < 2 ^ (width + 1) :=
      Nat.or_lt_two_pow (Nat.mod_lt _ (Nat.two_pow_pos _))
        (Nat.pow_lt_pow_right (by decide) (Nat.lt_succ_self width))
    have below := Nat.lt_of_le_of_lt lowest.two_pow_le top
    exact Nat.lt_succ_iff.mp ((Nat.pow_lt_pow_iff_right (by decide)).mp below)
  have moved : step.2.toNat = code.toNat ^^^ 2 ^ step.1.bit.toNat := by
    rw [← toNat_one_shiftLeft (Nat.lt_of_le_of_lt bitBound (by omega)),
      ← BitVec.toNat_xor]
    rfl
  refine ⟨bitBound, ?_, moved, shiftRight_and_one step.2 step.1.bit⟩
  rw [moved, current]
  exact (grayCode_cyclic lowest).symm

end CudaMpqs
