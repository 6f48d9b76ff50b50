import Mathlib.Data.Int.ModEq
import CudaMpqs.Foundation.Limbs

/-! # The 512-bit integers of `uint512.cuh`

Sixteen little-endian 32-bit limbs. Every operation is the source's limb loop
at the source's word widths; the theorem beside it says what number it
computes, so that later modules never look at limbs again. -/

namespace CudaMpqs

open Limbs

structure UInt512 where
  limbs : List (BitVec 32)
  size : limbs.length = 16
deriving DecidableEq

namespace UInt512

/-- `2 ^ 512`, where arithmetic wraps. It is irreducible so that no tactic
expands the power. -/
@[irreducible] def cardinality : Nat := 2 ^ (32 * 16)

theorem two_pow_eq_cardinality {exponent : Nat} (equal : exponent = 32 * 16) :
    2 ^ exponent = cardinality := by
  subst equal
  unfold cardinality
  rfl

theorem cardinality_pos : 0 < cardinality := by
  rw [← two_pow_eq_cardinality rfl]
  exact Nat.two_pow_pos _

def toNat (number : UInt512) : Nat := value number.limbs

theorem toNat_lt (number : UInt512) : number.toNat < cardinality := by
  have bound := value_lt number.limbs
  rwa [two_pow_eq_cardinality (congrArg (32 * ·) number.size)] at bound

theorem toNat_injective : Function.Injective toNat := by
  intro left right equal
  have limbsEqual := value_injective (left.size.trans right.size.symm) equal
  cases left
  cases right
  simpa using limbsEqual

theorem toNat_inj {left right : UInt512} :
    left.toNat = right.toNat ↔ left = right := toNat_injective.eq_iff

def ofNat (number : Nat) : UInt512 := ⟨Limbs.ofNat 32 16 number, by simp⟩

@[simp] theorem toNat_ofNat (number : Nat) : (ofNat number).toNat = number % cardinality := by
  have digits := value_ofNat 32 16 number
  rwa [two_pow_eq_cardinality rfl] at digits

theorem toNat_ofNat_of_lt {number : Nat} (bound : number < cardinality) :
    (ofNat number).toNat = number := by
  rw [toNat_ofNat, Nat.mod_eq_of_lt bound]

def ofUInt32 (word : BitVec 32) : UInt512 :=
  ⟨word :: List.replicate 15 0, by simp⟩

@[simp] theorem toNat_ofUInt32 (word : BitVec 32) : (ofUInt32 word).toNat = word.toNat := by
  simp [toNat, ofUInt32, List.replicate]

def ofUInt128 (word : BitVec 128) : UInt512 :=
  ⟨word.setWidth 32 :: (word >>> 32).setWidth 32 :: (word >>> 64).setWidth 32 ::
    (word >>> 96).setWidth 32 :: List.replicate 12 0, by simp⟩

@[simp] theorem toNat_ofUInt128 (word : BitVec 128) : (ofUInt128 word).toNat = word.toNat := by
  have bound := word.isLt
  simp [toNat, ofUInt128, List.replicate, Nat.shiftRight_eq_div_pow]
  omega

/-! ## Addition, subtraction, comparison -/

def addStep (limbs : BitVec 32 × BitVec 32) (carry : BitVec 64) : BitVec 32 × BitVec 64 :=
  let res := limbs.1.setWidth 64 + limbs.2.setWidth 64 + carry
  (res.setWidth 32, res >>> 32)

def add (self other : UInt512) : UInt512 :=
  ⟨(carryLoop addStep (self.limbs.zip other.limbs) 0#64).1, by simp [self.size, other.size]⟩

def subStep (limbs : BitVec 32 × BitVec 32) (borrow : BitVec 32) : BitVec 32 × BitVec 32 :=
  (limbs.1 - limbs.2 - borrow,
    if limbs.1 < limbs.2 ∨ (borrow ≠ 0 ∧ limbs.1 = limbs.2) then 1 else 0)

def sub (self other : UInt512) : UInt512 :=
  ⟨(carryLoop subStep (self.limbs.zip other.limbs) 0#32).1, by simp [self.size, other.size]⟩

def less (self other : UInt512) : Bool :=
  compareLoop self.limbs other.limbs == .lt

def isZero (self : UInt512) : Bool := self.limbs.all (· == 0)

theorem addStep_conserves (limbs : BitVec 32 × BitVec 32) (carry : BitVec 64)
    (small : carry.toNat ≤ 1) :
    ((addStep limbs carry).1.toNat : Int) + 2 ^ 32 * ((addStep limbs carry).2.toNat : Int) =
        ((limbs.1.toNat : Int) + limbs.2.toNat) + carry.toNat ∧
      (addStep limbs carry).2.toNat ≤ 1 := by
  have leftBound := limbs.1.isLt
  have rightBound := limbs.2.isLt
  simp only [addStep, BitVec.toNat_setWidth, BitVec.toNat_add,
    BitVec.toNat_ushiftRight, Nat.shiftRight_eq_div_pow]
  omega

theorem zip_size (self other : UInt512) : 32 * (self.limbs.zip other.limbs).length = 32 * 16 := by
  simp [self.size, other.size]

theorem toNat_add (self other : UInt512) :
    (self.add other).toNat = (self.toNat + other.toNat) % cardinality := by
  have lengths := self.size.trans other.size.symm
  have total := (carryLoop_value addStep
    (fun limbs => (limbs.1.toNat : Int) + limbs.2.toNat)
    (fun carry => carry.toNat) (fun carry => carry.toNat ≤ 1)
    addStep_conserves (self.limbs.zip other.limbs) 0#64 (by simp)).1
  rw [weigh_add, weigh_zip_fst 32 (fun limb => (limb.toNat : Int)) lengths,
    weigh_zip_snd 32 (fun limb => (limb.toNat : Int)) lengths, weigh_toNat,
    weigh_toNat, two_pow_eq_cardinality (zip_size self other),
    BitVec.toNat_zero, Nat.cast_zero, add_zero] at total
  rw [← Nat.mod_eq_of_lt (self.add other).toNat_lt]
  apply Int.natCast_modEq_iff.mp
  refine Int.modEq_iff_dvd.mpr
    ⟨(carryLoop addStep (self.limbs.zip other.limbs) 0#64).2.toNat, ?_⟩
  simp only [toNat, add]
  push_cast
  linear_combination -total

theorem subStep_conserves (limbs : BitVec 32 × BitVec 32) (borrow : BitVec 32)
    (small : borrow.toNat ≤ 1) :
    ((subStep limbs borrow).1.toNat : Int) + 2 ^ 32 * (-((subStep limbs borrow).2.toNat : Int)) =
        ((limbs.1.toNat : Int) - limbs.2.toNat) + -(borrow.toNat : Int) ∧
      (subStep limbs borrow).2.toNat ≤ 1 := by
  have leftBound := limbs.1.isLt
  have rightBound := limbs.2.isLt
  have borrowZero : borrow = 0 ↔ borrow.toNat = 0 :=
    ⟨fun zero => by simp [zero], fun zero => BitVec.eq_of_toNat_eq (by simpa)⟩
  have sameLimbs : limbs.1 = limbs.2 ↔ limbs.1.toNat = limbs.2.toNat :=
    BitVec.toNat_inj.symm
  simp only [subStep, BitVec.toNat_sub, BitVec.lt_def, ne_eq, borrowZero, sameLimbs]
  split <;> simp <;> omega

theorem toNat_sub (self other : UInt512) : (self.sub other).toNat =
      (self.toNat + (cardinality - other.toNat)) % cardinality := by
  have lengths := self.size.trans other.size.symm
  have total := (carryLoop_value subStep
    (fun limbs => (limbs.1.toNat : Int) - limbs.2.toNat)
    (fun borrow => -borrow.toNat) (fun borrow => borrow.toNat ≤ 1)
    subStep_conserves (self.limbs.zip other.limbs) 0#32 (by simp)).1
  rw [weigh_sub, weigh_zip_fst 32 (fun limb => (limb.toNat : Int)) lengths,
    weigh_zip_snd 32 (fun limb => (limb.toNat : Int)) lengths, weigh_toNat,
    weigh_toNat, two_pow_eq_cardinality (zip_size self other),
    BitVec.toNat_zero, Nat.cast_zero, neg_zero, add_zero] at total
  rw [← Nat.mod_eq_of_lt (self.sub other).toNat_lt]
  apply Int.natCast_modEq_iff.mp
  refine Int.modEq_iff_dvd.mpr
    ⟨1 - (carryLoop subStep (self.limbs.zip other.limbs) 0#32).2.toNat, ?_⟩
  rw [Nat.cast_add, Nat.cast_sub other.toNat_lt.le]
  simp only [toNat, sub]
  linear_combination -total

theorem toNat_sub_of_le {self other : UInt512} (le : other.toNat ≤ self.toNat) :
    (self.sub other).toNat = self.toNat - other.toNat := by
  have bound := self.toNat_lt
  have otherBound := other.toNat_lt
  rw [toNat_sub, show self.toNat + (cardinality - other.toNat) =
    self.toNat - other.toNat + cardinality by omega, Nat.add_mod_right,
    Nat.mod_eq_of_lt (by omega)]

@[simp] theorem less_iff (self other : UInt512) :
    self.less other = true ↔ self.toNat < other.toNat := by
  rw [less, compareLoop_eq (self.size.trans other.size.symm), beq_iff_eq, Nat.compare_eq_lt]
  rfl

@[simp] theorem less_eq_false_iff (self other : UInt512) :
    self.less other = false ↔ other.toNat ≤ self.toNat := by
  rw [← Bool.not_eq_true, less_iff, Nat.not_lt]

@[simp] theorem isZero_iff (self : UInt512) : self.isZero = true ↔ self.toNat = 0 := by
  simp [isZero, toNat, value_eq_zero_iff]

end UInt512

end CudaMpqs
