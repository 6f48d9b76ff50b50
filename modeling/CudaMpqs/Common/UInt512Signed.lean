import CudaMpqs.Common.UInt512Product
import CudaMpqs.Common.UInt512Sqrt

/-! # Signed values of a candidate

The square root `|ax + b|` of a candidate and its value `|(ax + b)^2 - N|`, with their
signs. The first is formed in 512-bit two's complement, the second from a 1024-bit
square. -/

namespace CudaMpqs.UInt512

open Limbs

/-! ## Two's complement -/

def toInt (self : UInt512) : Int := (self.toNat : Int).bmod cardinality

def absTwosComplement (self : UInt512) : UInt512 × BitVec 8 :=
  if self.isZero then (self, 0)
  else if ¬ self.msbIsSet then (self, 1)
  else ((ofUInt32 0).sub self, -1)

def calculateSqrtOfQX (a b : UInt512) (x : BitVec 32) : UInt512 × BitVec 8 :=
  let absX := if x.slt 0 then -x else x
  let ax := a.multUInt32 absX
  if ¬ x.slt 0 then (ax.add b).absTwosComplement else (b.sub ax).absTwosComplement

theorem cardinality_eq_double : ∃ half, cardinality = 2 * half ∧ 0 < half := by
  have even : 2 ∣ cardinality := by
    rw [← two_pow_eq_cardinality rfl]
    exact dvd_pow_self 2 (by decide)
  rcases even with ⟨half, double⟩
  have positive := cardinality_pos
  exact ⟨half, double, by omega⟩

theorem toInt_of_small {self : UInt512} (small : 2 * self.toNat < cardinality) :
    self.toInt = self.toNat := by
  rcases cardinality_eq_double with ⟨half, double, _⟩
  apply Int.bmod_eq_of_le
  · omega
  · omega

theorem toInt_of_large {self : UInt512} (large : cardinality ≤ 2 * self.toNat) :
    self.toInt = self.toNat - cardinality := by
  rcases cardinality_eq_double with ⟨half, double, positive⟩
  have bound := self.toNat_lt
  apply (Int.bmod_eq_iff cardinality_pos).mpr
  refine ⟨by omega, by omega, ⟨-1, by ring⟩⟩

theorem toInt_modEq (self : UInt512) : self.toInt ≡ self.toNat [ZMOD cardinality] :=
  Int.bmod_emod

theorem toNat_absTwosComplement (self : UInt512) :
    self.absTwosComplement.1.toNat = self.toInt.natAbs := by
  have bound := self.toNat_lt
  have top := self.msbIsSet_iff
  unfold absTwosComplement
  split
  next zero =>
    rw [isZero_iff] at zero
    have small : 2 * self.toNat < cardinality := by
      rw [zero]
      exact cardinality_pos
    rw [toInt_of_small small, Int.natAbs_natCast]
  next nonzero =>
    rw [isZero_iff] at nonzero
    split
    next clear =>
      rw [top, Nat.not_le] at clear
      rw [toInt_of_small clear, Int.natAbs_natCast]
    next set =>
      rw [top, not_not] at set
      have zero : (ofUInt32 0).toNat = 0 := toNat_ofUInt32 0
      rw [toInt_of_large set, toNat_sub, zero, Nat.zero_add, Nat.mod_eq_of_lt (by omega)]
      omega

/-! ## The square root of a candidate -/

theorem toNat_add_modEq (self other : UInt512) :
    ((self.add other).toNat : Int) ≡ self.toNat + other.toNat [ZMOD cardinality] := by
  rw [toNat_add, Int.natCast_mod, Nat.cast_add]
  exact Int.mod_modEq _ _

theorem toNat_sub_modEq (self other : UInt512) :
    ((self.sub other).toNat : Int) ≡ self.toNat - other.toNat [ZMOD cardinality] := by
  have bound := other.toNat_lt
  rw [toNat_sub, Int.natCast_mod, Nat.cast_add, Nat.cast_sub bound.le]
  refine (Int.mod_modEq _ _).trans (Int.modEq_iff_dvd.mpr ⟨-1, ?_⟩)
  ring

theorem toNat_multUInt32_modEq (self : UInt512) (v : BitVec 32) :
    ((self.multUInt32 v).toNat : Int) ≡ self.toNat * v.toNat [ZMOD cardinality] := by
  rw [toNat_multUInt32, Int.natCast_mod, Nat.cast_mul]
  exact Int.mod_modEq _ _

def axb (a b : UInt512) (x : BitVec 32) : Int := a.toNat * x.toInt + b.toInt

private theorem bmod_eq_of_modEq {word : UInt512} {exact : Int}
    (congruent : (word.toNat : Int) ≡ exact [ZMOD cardinality]) :
    word.toInt = exact.bmod cardinality := by
  rw [toInt, ← Int.emod_bmod, congruent, Int.emod_bmod]

theorem toNat_calculateSqrtOfQX (a b : UInt512) (x : BitVec 32) :
    (calculateSqrtOfQX a b x).1.toNat = ((axb a b x).bmod cardinality).natAbs := by
  have signed := b.toInt_modEq
  unfold calculateSqrtOfQX axb
  cases negative : x.slt 0 with
  | false =>
    have positive : (x.toInt : Int) = x.toNat := by
      have sign : 0 ≤ x.toInt := by simpa [BitVec.slt] using negative
      rw [BitVec.toInt_eq_toNat_cond] at sign ⊢
      split at sign <;> split <;> omega
    simp only [Bool.false_eq_true, if_false, not_false_eq_true, if_true]
    rw [toNat_absTwosComplement, positive]
    apply congrArg Int.natAbs
    apply bmod_eq_of_modEq
    refine (toNat_add_modEq _ b).trans ?_
    exact (toNat_multUInt32_modEq a x).add signed.symm
  | true =>
    have magnitude : ((-x).toNat : Int) = -x.toInt := by
      have sign : x.toInt < 0 := by simpa [BitVec.slt] using negative
      have bound := x.isLt
      rw [BitVec.toInt_eq_toNat_cond] at sign ⊢
      rw [BitVec.toNat_neg]
      split at sign <;> split <;> omega
    simp only [not_true_eq_false, if_true, if_false]
    rw [toNat_absTwosComplement]
    apply congrArg Int.natAbs
    apply bmod_eq_of_modEq
    refine (toNat_sub_modEq b _).trans ?_
    have product := (toNat_multUInt32_modEq a (-x)).neg
    have sum := signed.symm.add product
    rw [magnitude, ← sub_eq_add_neg] at sum
    have shape : b.toInt + -(a.toNat * -x.toInt) = a.toNat * x.toInt + b.toInt := by ring
    rwa [shape] at sum

/-! ## The value of a candidate -/

def diffStep (limbs : BitVec 32 × BitVec 32) (borrow : BitVec 32) : BitVec 32 × BitVec 32 :=
  let ai := limbs.1.setWidth 64
  let bi := limbs.2.setWidth 64 + borrow.setWidth 64
  ((ai - bi).setWidth 32, if ai < bi then 1 else 0)

def diff (self other : UInt512) : UInt512 :=
  ⟨(carryLoop diffStep (self.limbs.zip other.limbs) 0#32).1, by simp [self.size, other.size]⟩

def low (s : UInt512) : UInt512 := ⟨(s.mulWide s).take 16, by simp [mulWide_length]⟩

def absSquareMinusN (s N : UInt512) : UInt512 × BitVec 8 :=
  let pGeN := ((s.mulWide s).drop 16).any (· != 0) || compareLoop s.low.limbs N.limbs != .lt
  if pGeN then (s.low.diff N, 1) else (N.diff s.low, -1)

private theorem diffStep_eq (limbs : BitVec 32 × BitVec 32) {borrow : BitVec 32}
    (small : borrow.toNat ≤ 1) : diffStep limbs borrow = subStep limbs borrow := by
  have leftBound := limbs.1.isLt
  have rightBound := limbs.2.isLt
  have borrowZero : borrow = 0 ↔ borrow.toNat = 0 :=
    ⟨fun zero => by simp [zero], fun zero => BitVec.eq_of_toNat_eq (by simpa)⟩
  have sameLimbs : limbs.1 = limbs.2 ↔ limbs.1.toNat = limbs.2.toNat := BitVec.toNat_inj.symm
  have sum : (limbs.2.setWidth 64 + borrow.setWidth 64).toNat =
      limbs.2.toNat + borrow.toNat := by
    rw [BitVec.toNat_add, BitVec.toNat_setWidth, BitVec.toNat_setWidth]
    omega
  apply Prod.ext
  · apply BitVec.eq_of_toNat_eq
    simp only [diffStep, subStep, BitVec.toNat_setWidth, BitVec.toNat_sub, sum]
    omega
  · simp only [diffStep, subStep, BitVec.lt_def, sum, BitVec.toNat_setWidth, ne_eq, borrowZero,
      sameLimbs]
    congr 1
    apply propext
    omega

theorem diff_eq_sub (self other : UInt512) : self.diff other = self.sub other := by
  have loop : ∀ (elements : List (BitVec 32 × BitVec 32)) (borrow : BitVec 32),
      borrow.toNat ≤ 1 → carryLoop diffStep elements borrow =
        carryLoop subStep elements borrow := by
    intro elements
    induction elements with
    | nil => exact fun _ _ => rfl
    | cons limbs rest induction =>
      intro borrow small
      rw [carryLoop, carryLoop, diffStep_eq limbs small,
        induction _ (subStep_conserves limbs borrow small).2]
  unfold diff sub
  simp only [loop _ 0#32 (Nat.zero_le 1)]

theorem toNat_low (s : UInt512) : s.low.toNat = s.toNat * s.toNat % cardinality := by
  have inside : 16 ≤ (s.mulWide s).length := by
    rw [mulWide_length]
    decide
  rw [toNat, low, value_take _ inside, value_mulWide, two_pow_eq_cardinality rfl]

theorem squareGe_iff (s N : UInt512) :
    (((s.mulWide s).drop 16).any (· != 0) || compareLoop s.low.limbs N.limbs != .lt) = true ↔
      N.toNat ≤ s.toNat * s.toNat := by
  have inside : 16 ≤ (s.mulWide s).length := by
    rw [mulWide_length]
    decide
  have high : value ((s.mulWide s).drop 16) = s.toNat * s.toNat / cardinality := by
    rw [value_drop _ inside, value_mulWide, two_pow_eq_cardinality rfl]
  have compared : (compareLoop s.low.limbs N.limbs != .lt) = true ↔
      N.toNat ≤ s.toNat * s.toNat % cardinality := by
    rw [compareLoop_eq (s.low.size.trans N.size.symm), bne_iff_ne, ne_eq, Nat.compare_eq_lt,
      Nat.not_lt, ← toNat_low]
    rfl
  have bound := N.toNat_lt
  rw [Bool.or_eq_true, compared]
  cases nonzero : ((s.mulWide s).drop 16).any (· != 0) with
  | true =>
    have notZero : value ((s.mulWide s).drop 16) ≠ 0 := by
      rw [ne_eq, value_eq_zero_iff]
      intro zero
      rw [List.any_eq_true] at nonzero
      rcases nonzero with ⟨limb, member, differs⟩
      exact absurd (zero limb member) (bne_iff_ne.mp differs)
    rw [high] at notZero
    have reaches : cardinality ≤ s.toNat * s.toNat := by
      by_contra below
      exact notZero (Nat.div_eq_of_lt (Nat.not_le.mp below))
    exact iff_of_true (Or.inl rfl) (bound.le.trans reaches)
  | false =>
    have zero : value ((s.mulWide s).drop 16) = 0 := by
      rw [value_eq_zero_iff]
      intro limb member
      have every := List.any_eq_false.mp nonzero limb member
      simpa using every
    rw [high] at zero
    have below : s.toNat * s.toNat < cardinality := by
      rcases Nat.div_eq_zero_iff.mp zero with empty | below
      · exact absurd empty cardinality_pos.ne'
      · exact below
    rw [Nat.mod_eq_of_lt below]
    simp

theorem absSquareMinusN_of_le {s N : UInt512} (le : N.toNat ≤ s.toNat * s.toNat) :
    (absSquareMinusN s N).2 = 1 ∧
      (absSquareMinusN s N).1.toNat = (s.toNat * s.toNat - N.toNat) % cardinality := by
  have bound := N.toNat_lt
  rw [absSquareMinusN, if_pos ((squareGe_iff s N).mpr le)]
  refine ⟨rfl, ?_⟩
  rw [diff_eq_sub, toNat_sub, toNat_low]
  have split : s.toNat * s.toNat - N.toNat + cardinality =
      s.toNat * s.toNat + (cardinality - N.toNat) := by
    omega
  rw [Nat.mod_add_mod, ← split, Nat.add_mod_right]

theorem absSquareMinusN_of_lt {s N : UInt512} (lt : s.toNat * s.toNat < N.toNat) :
    (absSquareMinusN s N).2 = -1 ∧ (absSquareMinusN s N).1.toNat = N.toNat - s.toNat * s.toNat := by
  have bound := N.toNat_lt
  have same : s.low.toNat = s.toNat * s.toNat := by
    rw [toNat_low, Nat.mod_eq_of_lt (lt.trans bound)]
  rw [absSquareMinusN, if_neg fun ge => absurd ((squareGe_iff s N).mp ge) (Nat.not_le.mpr lt)]
  refine ⟨rfl, ?_⟩
  rw [diff_eq_sub, toNat_sub_of_le (by rw [same]; exact lt.le), same]

/-- Where the difference fits, it is exact, also where the square does not fit. -/
theorem absSquareMinusN_exact (s N : UInt512)
    (fits : ((s.toNat : Int) ^ 2 - N.toNat).natAbs < cardinality) :
    ((absSquareMinusN s N).1.toNat : Int) = |(s.toNat : Int) ^ 2 - N.toNat| ∧
      (absSquareMinusN s N).2.toInt = if (s.toNat : Int) ^ 2 < N.toNat then -1 else 1 := by
  have square : (s.toNat : Int) ^ 2 = (s.toNat * s.toNat : Nat) := by
    rw [pow_two, Nat.cast_mul]
  rw [square] at fits ⊢
  rcases Nat.lt_or_ge (s.toNat * s.toNat) N.toNat with lt | le
  · have below : ((s.toNat * s.toNat : Nat) : Int) < N.toNat := Int.ofNat_lt.mpr lt
    rcases absSquareMinusN_of_lt lt with ⟨sign, magnitude⟩
    rw [if_pos below, sign, magnitude, abs_of_neg (by omega), Int.ofNat_sub lt.le, neg_sub]
    exact ⟨rfl, rfl⟩
  · have above : ¬ ((s.toNat * s.toNat : Nat) : Int) < N.toNat := by omega
    have small : s.toNat * s.toNat - N.toNat < cardinality := by omega
    rcases absSquareMinusN_of_le le with ⟨sign, magnitude⟩
    rw [if_neg above, sign, magnitude, Nat.mod_eq_of_lt small, abs_of_nonneg (by omega),
      Int.ofNat_sub le]
    exact ⟨rfl, rfl⟩

/-- `s ^ 2` is `2 ^ 512` and `N` is one less. -/
theorem absSquareMinusN_exact_wide :
    ((absSquareMinusN (ofNat (2 ^ 256)) (ofNat (2 ^ 512 - 1))).1.toNat : Int) = 1 ∧
      (absSquareMinusN (ofNat (2 ^ 256)) (ofNat (2 ^ 512 - 1))).2.toInt = 1 := by
  have fits : (((ofNat (2 ^ 256)).toNat : Int) ^ 2 - (ofNat (2 ^ 512 - 1)).toNat).natAbs <
      cardinality := by decide +kernel
  have exact := absSquareMinusN_exact (ofNat (2 ^ 256)) (ofNat (2 ^ 512 - 1)) fits
  have difference : |((ofNat (2 ^ 256)).toNat : Int) ^ 2 - (ofNat (2 ^ 512 - 1)).toNat| = 1 := by
    decide +kernel
  have sign : ¬ ((ofNat (2 ^ 256)).toNat : Int) ^ 2 < (ofNat (2 ^ 512 - 1)).toNat := by
    decide +kernel
  rwa [difference, if_neg sign] at exact

end CudaMpqs.UInt512
