import Mathlib.Data.Nat.Bitwise
import CudaMpqs.Common.UInt512Modular
import CudaMpqs.Common.UInt512Small
import CudaMpqs.Foundation.NewtonSqrt

/-! # Square roots of `uint512`

The integer square root, and `isqrt_2N`, which scales the root of `N` by a
fixed-point `sqrt(2)` where `2N` does not fit. -/

namespace CudaMpqs.UInt512

open Limbs

/-! ## The square root -/

def seed (b : Nat) : UInt512 :=
  ⟨(ofUInt32 0).limbs.set (b / 32) (1#32 <<< (b % 32)), by rw [List.length_set, (ofUInt32 0).size]⟩

def sqrtLoop (self : UInt512) : Nat → UInt512 → UInt512
  | 0, x => x
  | turns + 1, x =>
    let t := ((self.div x).add x).rshift 1
    if t.less x then sqrtLoop self turns t else x

def sqrt (self : UInt512) : UInt512 :=
  if self.isZero then ofUInt32 0 else sqrtLoop self 32 (seed (self.msb / 2 + 1))

theorem toNat_seed {b : Nat} (inside : b < 512) : (seed b).toNat = 2 ^ b := by
  have zero : (ofUInt32 0).limbs.getD (b / 32) 0 = 0#32 := by
    have replicate : (ofUInt32 0).limbs = List.replicate 16 0 := rfl
    rw [replicate, List.getD_eq_getElem?_getD, List.getElem?_replicate]
    split
    next => rfl
    next => rfl
  have same : seed b = (ofUInt32 0).setBit b := by
    simp only [seed, setBit, zero, BitVec.zero_or]
  have none : (ofUInt32 0).toNat = 0 := by simp
  rw [same, toNat_setBit _ inside (by rw [none]; exact dvd_zero _), none, Nat.zero_add]

def sqrtTurn (self x : UInt512) : UInt512 := ((self.div x).add x).rshift 1

structure Above (number x : UInt512) : Prop where
  root : Nat.sqrt number.toNat ≤ x.toNat
  some : 0 < Nat.sqrt number.toNat
  fits : Nat.sqrt number.toNat + 2 + x.toNat < cardinality

section Turns

variable {self x : UInt512}

theorem Above.sum_lt (above : Above self x) : (self.div x).toNat + x.toNat < cardinality := by
  have positive := Nat.lt_of_lt_of_le above.some above.root
  have square := Nat.sqrt_le_add self.toNat
  have quotient : self.toNat / x.toNat ≤ Nat.sqrt self.toNat + 2 := by
    calc self.toNat / x.toNat ≤ self.toNat / Nat.sqrt self.toNat :=
          Nat.div_le_div_left above.root above.some
      _ ≤ Nat.sqrt self.toNat + 2 := by
          apply Nat.div_le_of_le_mul
          nlinarith
  rw [toNat_div self positive.ne']
  have fits := above.fits
  omega

theorem Above.toNat_sqrtTurn (above : Above self x) :
    (sqrtTurn self x).toNat = NewtonSqrt.step self.toNat x.toNat := by
  have positive := Nat.lt_of_lt_of_le above.some above.root
  have sum := above.sum_lt
  rw [toNat_div self positive.ne'] at sum
  rw [sqrtTurn, toNat_rshift, toNat_add, toNat_div self positive.ne', Nat.pow_one,
    Nat.mod_eq_of_lt sum, NewtonSqrt.step]

theorem Above.less_iff (above : Above self x) : (sqrtTurn self x).less x = true ↔
    NewtonSqrt.step self.toNat x.toNat < x.toNat := by
  rw [UInt512.less_iff, above.toNat_sqrtTurn]

theorem Above.sqrtTurn (above : Above self x)
    (decreases : NewtonSqrt.step self.toNat x.toNat < x.toNat) :
    Above self (sqrtTurn self x) where
  root := by
    rw [above.toNat_sqrtTurn]
    exact NewtonSqrt.sqrt_le_step (Nat.lt_of_lt_of_le above.some above.root)
  some := above.some
  fits := by
    have fits := above.fits
    rw [above.toNat_sqrtTurn]
    omega

theorem toNat_sqrtLoop {turns : Nat} (above : Above self x) :
    (sqrtLoop self turns x).toNat = NewtonSqrt.loop self.toNat turns x.toNat := by
  induction turns generalizing x with
  | zero => rfl
  | succ turns induction =>
    rw [sqrtLoop, ← UInt512.sqrtTurn, NewtonSqrt.loop]
    by_cases decreases : NewtonSqrt.step self.toNat x.toNat < x.toNat
    · have next := induction (above.sqrtTurn decreases)
      rw [above.toNat_sqrtTurn] at next
      rw [if_pos decreases, if_pos (above.less_iff.mpr decreases), next]
    · rw [if_neg decreases, if_neg (mt above.less_iff.mp decreases)]

/-- The guard of the loop ends it within one turn of the root. -/
theorem sqrtLoop_stops {turns : Nat} (above : Above self x)
    (reaches : NewtonSqrt.loop self.toNat turns x.toNat = Nat.sqrt self.toNat) :
    ∃ last ≤ turns, sqrtLoop self (turns + 1) x = (UInt512.sqrtTurn self)^[last] x ∧
      (∀ i < last, ((UInt512.sqrtTurn self)^[i + 1] x).less ((UInt512.sqrtTurn self)^[i] x) =
        true) ∧
      ((UInt512.sqrtTurn self)^[last + 1] x).less ((UInt512.sqrtTurn self)^[last] x) = false ∧
      ∀ i ≤ last, Above self ((UInt512.sqrtTurn self)^[i] x) := by
  induction turns generalizing x with
  | zero =>
    have root : x.toNat = Nat.sqrt self.toNat := reaches
    have stops : (UInt512.sqrtTurn self x).less x = false := by
      rw [Bool.eq_false_iff, ne_eq, above.less_iff, Nat.not_lt, root]
      exact NewtonSqrt.sqrt_le_step above.some
    refine ⟨0, Nat.le_refl 0, ?_, fun i early => absurd early (Nat.not_lt_zero i), stops, ?_⟩
    · rw [sqrtLoop, ← UInt512.sqrtTurn, stops]
      rfl
    · intro i early
      rwa [Nat.le_zero.mp early]
  | succ turns induction =>
    rw [NewtonSqrt.loop] at reaches
    by_cases decreases : NewtonSqrt.step self.toNat x.toNat < x.toNat
    · have less := above.less_iff.mpr decreases
      rw [if_pos decreases, ← above.toNat_sqrtTurn] at reaches
      rcases induction (above.sqrtTurn decreases) reaches with
        ⟨last, inside, result, earlier, stops, iterates⟩
      refine ⟨last + 1, Nat.succ_le_succ inside, ?_, ?_, stops, ?_⟩
      · rw [sqrtLoop, ← UInt512.sqrtTurn, if_pos less, result]
        rfl
      · intro i early
        cases i with
        | zero => exact less
        | succ i => exact earlier i (Nat.lt_of_succ_lt_succ early)
      · intro i early
        cases i with
        | zero => exact above
        | succ i => exact iterates i (Nat.le_of_succ_le_succ early)
    · have stops : (UInt512.sqrtTurn self x).less x = false :=
        Bool.eq_false_iff.mpr (mt above.less_iff.mp decreases)
      refine ⟨0, Nat.zero_le _, ?_, fun i early => absurd early (Nat.not_lt_zero i), stops, ?_⟩
      · rw [sqrtLoop, ← UInt512.sqrtTurn, stops]
        rfl
      · intro i early
        rwa [Nat.le_zero.mp early]

end Turns

theorem sqrt_lt (self : UInt512) : Nat.sqrt self.toNat < 2 ^ 256 := by
  rw [Nat.sqrt_lt', ← Nat.pow_mul, two_pow_eq_cardinality rfl]
  exact self.toNat_lt

theorem seed_above (self : UInt512) (nonzero : self.toNat ≠ 0) :
    Above self (seed (self.msb / 2 + 1)) ∧
      (seed (self.msb / 2 + 1)).toNat ≤ 2 * Nat.sqrt self.toNat := by
  have low : 2 ^ self.msb ≤ self.toNat := by
    rw [msb_eq_log2]
    exact Nat.log2_self_le nonzero
  have high : self.toNat < 2 ^ (self.msb + 1) := by
    rw [msb_eq_log2]
    exact Nat.lt_log2_self
  have bits : self.msb < 512 := by
    by_contra many
    have wide := Nat.pow_le_pow_right Nat.two_pos (Nat.not_lt.mp many)
    rw [two_pow_eq_cardinality (show 512 = 32 * 16 from rfl)] at wide
    exact absurd (low.trans_lt self.toNat_lt) (Nat.not_lt.mpr wide)
  have below : 2 ^ (self.msb / 2) ≤ Nat.sqrt self.toNat := by
    rw [Nat.le_sqrt', ← Nat.pow_mul]
    exact (Nat.pow_le_pow_right Nat.two_pos (by omega)).trans low
  have above : Nat.sqrt self.toNat < 2 ^ (self.msb / 2 + 1) := by
    rw [Nat.sqrt_lt', ← Nat.pow_mul]
    exact high.trans_le (Nat.pow_le_pow_right Nat.two_pos (by omega))
  have seedLe : 2 ^ (self.msb / 2 + 1) ≤ 2 ^ 256 :=
    Nat.pow_le_pow_right Nat.two_pos (by omega)
  have wide : 2 ^ 256 * 8 ≤ cardinality := by
    rw [← two_pow_eq_cardinality rfl, show 8 = 2 ^ 3 from rfl, ← Nat.pow_add]
    exact Nat.pow_le_pow_right Nat.two_pos (by omega)
  have small := self.sqrt_lt
  have start := toNat_seed (show self.msb / 2 + 1 < 512 by omega)
  constructor
  · constructor
    · rw [start]
      exact above.le
    · exact (Nat.two_pow_pos _).trans_le below
    · rw [start]
      generalize 2 ^ 256 = half at seedLe wide small
      omega
  · rw [start, Nat.pow_succ']
    exact Nat.mul_le_mul_left 2 below

theorem loop_seed {self : UInt512} (nonzero : self.toNat ≠ 0) (extra : Nat) :
    NewtonSqrt.loop self.toNat (extra + 11) (seed (self.msb / 2 + 1)).toNat =
      Nat.sqrt self.toNat := by
  rcases self.seed_above nonzero with ⟨above, double⟩
  have roomy : Nat.sqrt self.toNat < 2 ^ 383 :=
    self.sqrt_lt.trans_le (Nat.pow_le_pow_right Nat.two_pos (by omega))
  exact NewtonSqrt.loop_eq_sqrt above.root double (Nat.lt_of_lt_of_le above.some above.root) roomy

theorem toNat_sqrt (self : UInt512) : self.sqrt.toNat = Nat.sqrt self.toNat := by
  rw [sqrt]
  split
  next zero =>
      rw [isZero_iff] at zero
      simp [zero]
  next nonzero =>
      rw [isZero_iff] at nonzero
      rw [toNat_sqrtLoop (self.seed_above nonzero).1]
      exact loop_seed nonzero 21

def sqrtIterate (self : UInt512) (i : Nat) : UInt512 :=
  (sqrtTurn self)^[i] (seed (self.msb / 2 + 1))

/-- The guard ends the loop before its 32 turns are spent, with the root, and no sum that was
formed on the way overflows. -/
theorem sqrt_converges (self : UInt512) : self.sqrt.toNat = Nat.sqrt self.toNat ∧
    (self.toNat ≠ 0 → ∃ last < 32, self.sqrt = self.sqrtIterate last ∧
      (∀ i < last, (self.sqrtIterate (i + 1)).less (self.sqrtIterate i) = true) ∧
      (self.sqrtIterate (last + 1)).less (self.sqrtIterate last) = false ∧
      ∀ i ≤ last, (self.div (self.sqrtIterate i)).toNat + (self.sqrtIterate i).toNat <
        cardinality) := by
  refine ⟨self.toNat_sqrt, fun nonzero => ?_⟩
  have isNonzero : ¬ self.isZero = true := mt (isZero_iff self).mp nonzero
  rcases sqrtLoop_stops (self.seed_above nonzero).1 (loop_seed nonzero 20) with
    ⟨last, inside, result, earlier, stops, iterates⟩
  refine ⟨last, Nat.lt_succ_of_le inside, ?_, earlier, stops, fun i early =>
    (iterates i early).sum_lt⟩
  rw [sqrt, if_neg isNonzero]
  exact result

/-! ## The square root of `2N` -/

def multStep64 (v : BitVec 64) (limb : BitVec 32) (carry : BitVec 64) : BitVec 32 × BitVec 64 :=
  let prod := limb.setWidth 128 * v.setWidth 128 + carry.setWidth 128
  (prod.setWidth 32, (prod >>> 32).setWidth 64)

def mulUInt64Inplace (self : UInt512) (v : BitVec 64) : UInt512 :=
  ⟨(carryLoop (multStep64 v) self.limbs 0#64).1, by simp [self.size]⟩

def msbIsSet (self : UInt512) : Bool := self.limbs.getD 15 0 &&& 0x80000000#32 != 0

def isqrt2N (N : UInt512) : UInt512 :=
  if !N.msbIsSet then (N.lshift 1).sqrt
  else (N.sqrt.mulUInt64Inplace 6074001001#64).rshift 32

private theorem multStep64_conserves (v : BitVec 64) (limb : BitVec 32) (carry : BitVec 64) :
    ((multStep64 v limb carry).1.toNat : Int) + 2 ^ 32 * ((multStep64 v limb carry).2.toNat : Int) =
      v.toNat * (limb.toNat : Int) + carry.toNat := by
  have product : limb.toNat * v.toNat ≤ (2 ^ 32 - 1) * (2 ^ 64 - 1) :=
    Nat.mul_le_mul (Nat.le_sub_one_of_lt limb.isLt) (Nat.le_sub_one_of_lt v.isLt)
  have carryLt := carry.isLt
  have limbLt := limb.isLt
  have vLt := v.isLt
  rw [mul_comm (v.toNat : Int), ← Nat.cast_mul]
  simp only [multStep64, BitVec.toNat_setWidth, BitVec.toNat_add, BitVec.toNat_mul,
    BitVec.toNat_ushiftRight, Nat.shiftRight_eq_div_pow]
  rw [Nat.mod_eq_of_lt (show limb.toNat < 2 ^ 128 by omega),
    Nat.mod_eq_of_lt (show v.toNat < 2 ^ 128 by omega),
    Nat.mod_eq_of_lt (show carry.toNat < 2 ^ 128 by omega)]
  generalize limb.toNat * v.toNat = prod at product ⊢
  omega

theorem toNat_mulUInt64Inplace (self : UInt512) (v : BitVec 64)
    (fits : self.toNat * v.toNat < cardinality) :
    (self.mulUInt64Inplace v).toNat = self.toNat * v.toNat := by
  have total := (carryLoop_value (multStep64 v)
    (fun limb => v.toNat * (limb.toNat : Int)) (fun carry => carry.toNat)
    (fun _ => True) (fun limb carry _ => ⟨multStep64_conserves v limb carry, trivial⟩)
    self.limbs 0#64 trivial).1
  rw [weigh_mul, weigh_toNat, two_pow_eq_cardinality (congrArg (32 * ·) self.size),
    BitVec.toNat_zero, Nat.cast_zero, add_zero] at total
  have conserved : value (carryLoop (multStep64 v) self.limbs 0#64).1 +
      cardinality * (carryLoop (multStep64 v) self.limbs 0#64).2.toNat =
        v.toNat * value self.limbs := by
    exact_mod_cast total
  have bound := value_lt (carryLoop (multStep64 v) self.limbs 0#64).1
  rw [carryLoop_length, two_pow_eq_cardinality (congrArg (32 * ·) self.size)] at bound
  rw [← Nat.mod_eq_of_lt fits, Nat.mul_comm, toNat, toNat, ← conserved,
    Nat.add_mul_mod_self_left, Nat.mod_eq_of_lt bound]
  rfl

theorem msbIsSet_iff (self : UInt512) : self.msbIsSet = true ↔ cardinality ≤ 2 * self.toNat := by
  rw [← cardinality_le_double_iff, msbIsSet, bne_iff_ne, bne_iff_ne]
  apply not_congr
  generalize self.limbs.getD 15 0 = limb
  have bound := limb.isLt
  have mask : (limb &&& 0x80000000#32).toNat = limb.toNat / 2 ^ 31 % 2 * 2 ^ 31 := by
    rw [BitVec.toNat_and, show (0x80000000#32).toNat = 2 ^ 31 from rfl, Nat.and_two_pow,
      Nat.testBit_eq_decide_div_mod_eq]
    rcases Nat.mod_two_eq_zero_or_one (limb.toNat / 2 ^ 31) with even | odd
    · rw [even]
      rfl
    · rw [odd]
      rfl
  rw [← BitVec.toNat_inj, ← BitVec.toNat_inj, mask, BitVec.toNat_ushiftRight,
    Nat.shiftRight_eq_div_pow, show (0 : BitVec 32).toNat = 0 from rfl]
  omega

theorem toNat_isqrt2N_of_lt (N : UInt512) (fits : 2 * N.toNat < cardinality) :
    N.isqrt2N.toNat = Nat.sqrt (2 * N.toNat) := by
  have clear : N.msbIsSet = false := by
    rw [← Bool.not_eq_true, msbIsSet_iff]
    omega
  rw [isqrt2N, clear]
  simp only [Bool.not_false, if_true]
  rw [toNat_sqrt, toNat_lshift, Nat.pow_one, Nat.mul_comm, Nat.mod_eq_of_lt fits]

section Scaled

variable {N : UInt512}

theorem toNat_isqrt2N_of_le (large : cardinality ≤ 2 * N.toNat) :
    N.isqrt2N.toNat = Nat.sqrt N.toNat * 6074001001 / 2 ^ 32 := by
  have set : N.msbIsSet = true := (msbIsSet_iff N).mpr large
  have wide : 2 ^ 256 * 2 ^ 64 ≤ cardinality := by
    rw [← two_pow_eq_cardinality rfl, ← Nat.pow_add]
    exact Nat.pow_le_pow_right Nat.two_pos (by omega)
  have fits : N.sqrt.toNat * (6074001001#64).toNat < cardinality := by
    rw [toNat_sqrt]
    apply lt_of_lt_of_le _ wide
    exact Nat.mul_lt_mul'' N.sqrt_lt (by decide)
  rw [isqrt2N, set]
  simp only [Bool.not_true, Bool.false_eq_true, if_false]
  rw [toNat_rshift, toNat_mulUInt64Inplace _ _ fits, toNat_sqrt]
  rfl

theorem le_sqrt (large : cardinality ≤ 2 * N.toNat) : 2 ^ 255 ≤ Nat.sqrt N.toNat := by
  have squares : cardinality = 2 ^ 2 * (2 ^ 255 * 2 ^ 255) := by
    rw [← two_pow_eq_cardinality rfl, ← Nat.pow_add, ← Nat.pow_add]
  rw [squares] at large
  rw [Nat.le_sqrt]
  generalize 2 ^ 255 * 2 ^ 255 = square at large ⊢
  omega

theorem le_toNat_isqrt2N (N : UInt512) (large : cardinality ≤ 2 * N.toNat) :
    2 ^ 256 ≤ N.isqrt2N.toNat := by
  rw [toNat_isqrt2N_of_le large, Nat.le_div_iff_mul_le (Nat.two_pow_pos _)]
  have root := Nat.lt_succ_sqrt N.toNat
  have squares : cardinality = 2 ^ 256 * 2 ^ 256 := by
    rw [← two_pow_eq_cardinality rfl, ← Nat.pow_add]
  have least : 2 ^ 64 ≤ 2 ^ 256 := Nat.pow_le_pow_right Nat.two_pos (by omega)
  rw [squares] at large
  generalize 2 ^ 256 = X at *
  generalize Nat.sqrt N.toNat = r at *
  rw [Nat.succ_eq_add_one] at root
  by_contra short
  have short' : r * 6074001001 < X * 2 ^ 32 := Nat.not_le.mp short
  nlinarith

theorem sqrt_lt_toNat_isqrt2N (large : cardinality ≤ 2 * N.toNat) :
    Nat.sqrt (2 * N.toNat) < N.isqrt2N.toNat := by
  have wide := le_sqrt large
  have least : 2 ^ 64 ≤ 2 ^ 255 := Nat.pow_le_pow_right Nat.two_pos (by omega)
  have root := Nat.lt_succ_sqrt N.toNat
  have exact := Nat.sqrt_le (2 * N.toNat)
  rw [toNat_isqrt2N_of_le large, Nat.lt_iff_add_one_le, Nat.le_div_iff_mul_le (Nat.two_pow_pos _)]
  generalize Nat.sqrt N.toNat = q at *
  generalize Nat.sqrt (2 * N.toNat) = s at *
  rw [Nat.succ_eq_add_one] at root
  have square : s * s ≤ 2 * (q * q) + 4 * q := by nlinarith
  have double : s ≤ 2 * q := by
    by_contra above
    nlinarith
  by_contra short
  have short' : q * 6074001001 < (s + 1) * 2 ^ 32 := Nat.not_le.mp short
  have squared := Nat.mul_lt_mul'' short' short'
  nlinarith

/-- The scaled root is within `2 ^ -32` of the exact one. -/
theorem toNat_isqrt2N_le (large : cardinality ≤ 2 * N.toNat) :
    N.isqrt2N.toNat * 2 ^ 32 ≤ Nat.sqrt (2 * N.toNat) * (2 ^ 32 + 1) := by
  have wide := le_sqrt large
  have least : 2 ^ 64 ≤ 2 ^ 255 := Nat.pow_le_pow_right Nat.two_pos (by omega)
  have root := Nat.sqrt_le N.toNat
  have exact := Nat.lt_succ_sqrt (2 * N.toNat)
  have rootAbove := Nat.lt_succ_sqrt N.toNat
  have exactBelow := Nat.sqrt_le (2 * N.toNat)
  have scaled := Nat.div_mul_le_self (Nat.sqrt N.toNat * 6074001001) (2 ^ 32)
  rw [← toNat_isqrt2N_of_le large] at scaled
  apply scaled.trans
  generalize Nat.sqrt N.toNat = q at *
  generalize Nat.sqrt (2 * N.toNat) = s at *
  rw [Nat.succ_eq_add_one] at exact rootAbove
  have double : s ≤ 2 * q := by
    have square : s * s ≤ 2 * (q * q) + 4 * q := by nlinarith
    by_contra above
    nlinarith
  by_contra short
  have short' : s * (2 ^ 32 + 1) < q * 6074001001 := Nat.not_le.mp short
  have squared := Nat.mul_lt_mul'' short' short'
  nlinarith

end Scaled

/-- Below `2 ^ 511` the root is exact, above it is a target within `2 ^ -32` of the root. -/
theorem isqrt2N_target (N : UInt512) :
    (N.toNat < 2 ^ 511 → N.isqrt2N.toNat = Nat.sqrt (2 * N.toNat)) ∧ (2 ^ 511 ≤ N.toNat →
        2 ^ 32 * N.isqrt2N.toNat ≤ 2 ^ 32 * Nat.sqrt (2 * N.toNat) + Nat.sqrt (2 * N.toNat) ∧
        2 ^ 32 * Nat.sqrt (2 * N.toNat) ≤ 2 ^ 32 * N.isqrt2N.toNat + Nat.sqrt (2 * N.toNat)) := by
  have double : 2 * 2 ^ 511 = cardinality := by
    rw [← Nat.pow_succ', two_pow_eq_cardinality rfl]
  constructor
  · intro small
    exact toNat_isqrt2N_of_lt N (by omega)
  · intro large
    have large' : cardinality ≤ 2 * N.toNat := by omega
    have upper := toNat_isqrt2N_le large'
    have lower := sqrt_lt_toNat_isqrt2N large'
    omega

/-- At `2 ^ 511` the target is not the root of `2 ^ 512`. -/
theorem isqrt2N_topBit : topBit.isqrt2N.toNat ≠ Nat.sqrt (2 * topBit.toNat) := by
  have large : cardinality ≤ 2 * topBit.toNat := by decide +kernel
  exact (sqrt_lt_toNat_isqrt2N large).ne'

end CudaMpqs.UInt512
