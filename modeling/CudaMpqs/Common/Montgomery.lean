import Mathlib.Data.BitVec
import Mathlib.Data.Nat.Prime.Basic
import CudaMpqs.Common.UInt512Modular

/-! # Montgomery arithmetic

The CIOS multiplication of `montgomery.cuh` over `R = 2 ^ 512`. The accumulator
is the sixteen limbs of `T` and one `extra` limb; one row adds a digit's multiple
of `b`, cancels the lowest limb with a multiple of `N`, and drops it. -/

namespace CudaMpqs

open Limbs

structure Montgomery where
  N : UInt512
  R2 : UInt512
  nPrime : BitVec 32
deriving DecidableEq

namespace Montgomery

/-! ## Construction -/

def newtonStep (n0 inv : BitVec 32) : BitVec 32 := inv * (2 - n0 * inv)

def negInverse (n0 : BitVec 32) : BitVec 32 :=
  -((newtonStep n0)^[5] 1)

def topBit : UInt512 :=
  ⟨List.replicate 15 0 ++ [0x80000000#32], by simp⟩

def ofModulus (modulus : UInt512) : Montgomery :=
  let val := (topBit.mod modulus).doubleMod modulus
  { N := modulus
    R2 := val.mulMod val modulus
    nPrime := negInverse (modulus.limbs.getD 0 0) }

/-! ## Multiplication -/

def rowStep (digit u : BitVec 32)
    (limbs : (BitVec 32 × BitVec 32) × BitVec 32) (carry : BitVec 128) :
    BitVec 32 × BitVec 128 :=
  let sum := limbs.1.1.setWidth 128 +
    digit.setWidth 128 * limbs.1.2.setWidth 128 +
    u.setWidth 128 * limbs.2.setWidth 128 + carry
  (sum.setWidth 32, sum >>> 32)

def reductionFactor (context : Montgomery) (T b : UInt512) (digit : BitVec 32) : BitVec 32 :=
  (T.limbs.getD 0 0 + digit * b.limbs.getD 0 0) * context.nPrime

def rowLoop (context : Montgomery) (b T : UInt512) (digit : BitVec 32) :
    List (BitVec 32) × BitVec 128 :=
  carryLoop (rowStep digit (context.reductionFactor T b digit))
    ((T.limbs.zip b.limbs).zip context.N.limbs) 0#128

theorem rowLoop_length (context : Montgomery) (b T : UInt512)
    (digit : BitVec 32) : (context.rowLoop b T digit).1.length = 16 := by
  simp [rowLoop, T.size, b.size, context.N.size]

def mulRow (context : Montgomery) (b : UInt512)
    (accumulator : UInt512 × BitVec 32) (digit : BitVec 32) :
    UInt512 × BitVec 32 :=
  let row := context.rowLoop b accumulator.1 digit
  let sumTop := accumulator.2.setWidth 128 + row.2
  (⟨row.1.tail ++ [sumTop.setWidth 32], by
      simp [row, rowLoop_length]⟩, (sumTop >>> 32).setWidth 32)

def mul (context : Montgomery) (a b : UInt512) : UInt512 :=
  let result := a.limbs.foldl (context.mulRow b) (UInt512.ofUInt32 0, 0)
  if result.2 != 0 || !result.1.less context.N then
    result.1.sub context.N
  else
    result.1

def transform (context : Montgomery) (a : UInt512) : UInt512 :=
  context.mul a context.R2

def reduce (context : Montgomery) (a : UInt512) : UInt512 :=
  context.mul a (UInt512.ofUInt32 1)

def sqr (context : Montgomery) (a : UInt512) : UInt512 :=
  context.mul a a

def powStep (context : Montgomery) (res baseMont exp : UInt512) : UInt512 :=
  if exp.limbs.getD 0 0 &&& 1 != 0 then context.mul res baseMont else res

def powLoop (context : Montgomery) (res baseMont exp : UInt512) : UInt512 :=
  if exp.isZero then res
  else
    context.powLoop (context.powStep res baseMont exp) (context.sqr baseMont)
      (exp.rshift 1)
termination_by exp.toNat
decreasing_by
  rw [UInt512.toNat_rshift]
  have nonzero : exp.toNat ≠ 0 := by simp_all
  omega

def pow (context : Montgomery) (baseMont exp : UInt512) : UInt512 :=
  context.powLoop (context.transform (UInt512.ofUInt32 1)) baseMont exp

/-! ## The constants -/

def Inverts (context : Montgomery) : Prop :=
  context.N.limbs.getD 0 0 * context.nPrime = -1

private theorem newtonStep_error (n0 inv : BitVec 32) :
    1 - n0 * newtonStep n0 inv = (1 - n0 * inv) ^ 2 := by
  rw [newtonStep]
  ring

theorem newtonStep_iterate_error (n0 inv : BitVec 32) (steps : Nat) :
    1 - n0 * (newtonStep n0)^[steps] inv = (1 - n0 * inv) ^ 2 ^ steps := by
  induction steps with
  | zero => simp
  | succ steps induction =>
    rw [Function.iterate_succ_apply', newtonStep_error, induction, ← pow_mul, Nat.pow_succ]

private theorem even_pow_eq_zero {word : BitVec 32} (even : word.toNat % 2 = 0) :
    word ^ 32 = 0 := by
  have factored : word = 2#32 * BitVec.ofNat 32 (word.toNat / 2) := by
    apply BitVec.eq_of_toNat_eq
    have bound := word.isLt
    simp only [BitVec.toNat_mul, BitVec.toNat_ofNat]
    omega
  have vanishes : (2#32) ^ 32 = 0 := by decide
  rw [factored, mul_pow, vanishes, zero_mul]

theorem mul_negInverse {n0 : BitVec 32} (odd : n0.toNat % 2 = 1) : n0 * negInverse n0 = -1 := by
  have even : (1 - n0 * 1).toNat % 2 = 0 := by
    have bound := n0.isLt
    rw [mul_one, BitVec.toNat_sub, show (1 : BitVec 32).toNat = 1 from rfl]
    omega
  have error := newtonStep_iterate_error n0 1 5
  rw [show 2 ^ 5 = 32 from rfl, even_pow_eq_zero even, sub_eq_zero] at error
  rw [negInverse, mul_neg, ← error]

theorem toNat_getD_zero (number : UInt512) :
    (number.limbs.getD 0 0).toNat = number.toNat % 2 ^ 32 := by
  rw [toNat_getD, Nat.mul_zero, Nat.pow_zero, Nat.div_one]
  rfl

theorem ofModulus_inverts {modulus : UInt512} (odd : modulus.toNat % 2 = 1) :
    (ofModulus modulus).Inverts := by
  apply mul_negInverse
  have low := toNat_getD_zero modulus
  simp only [ofModulus]
  omega

private theorem toNat_topBit : 2 * topBit.toNat = UInt512.cardinality := by
  have high : value [0x80000000#32] = 2 ^ 31 := by decide
  rw [topBit, UInt512.toNat, value_append, high, List.length_replicate,
    show value (List.replicate 15 (0 : BitVec 32)) = 0 from
      value_replicate_zero 32 15, Nat.zero_add, ← Nat.pow_add, ← Nat.pow_succ']
  exact UInt512.two_pow_eq_cardinality rfl

theorem ofModulus_R2 {modulus : UInt512} (nonzero : modulus.toNat ≠ 0) :
    (ofModulus modulus).R2.toNat = UInt512.cardinality * UInt512.cardinality % modulus.toNat := by
  have halved : (topBit.mod modulus).toNat < modulus.toNat := by
    rw [UInt512.toNat_mod _ nonzero]
    exact Nat.mod_lt _ (Nat.pos_of_ne_zero nonzero)
  simp only [ofModulus]
  rw [UInt512.toNat_mulMod _ _ nonzero, UInt512.toNat_doubleMod halved,
    UInt512.toNat_mod _ nonzero, Nat.mul_mod_mod 2, toNat_topBit, ← Nat.mul_mod]

/-! ## One row -/

def accumulated (accumulator : UInt512 × BitVec 32) : Nat :=
  accumulator.1.toNat + UInt512.cardinality * accumulator.2.toNat

theorem rowStep_conserves (digit u : BitVec 32)
    (limbs : (BitVec 32 × BitVec 32) × BitVec 32) (carry : BitVec 128)
    (small : carry.toNat ≤ 2 ^ 33) :
    ((rowStep digit u limbs carry).1.toNat : Int) +
          2 ^ 32 * ((rowStep digit u limbs carry).2.toNat : Int) =
        (((limbs.1.1.toNat : Int) + digit.toNat * (limbs.1.2.toNat : Int)) +
          u.toNat * (limbs.2.toNat : Int)) + carry.toNat ∧
      (rowStep digit u limbs carry).2.toNat ≤ 2 ^ 33 := by
  have limbBound := limbs.1.1.isLt
  have productBound (left right : BitVec 32) :
      left.toNat * right.toNat ≤ (2 ^ 32 - 1) * (2 ^ 32 - 1) := by
    have leftBound := left.isLt
    have rightBound := right.isLt
    exact Nat.mul_le_mul (by omega) (by omega)
  have addend := productBound digit limbs.1.2
  have cancel := productBound u limbs.2
  have widened (word : BitVec 32) :
      (word.setWidth 128).toNat = word.toNat := by
    rw [BitVec.toNat_setWidth, Nat.mod_eq_of_lt (word.isLt.trans (by decide))]
  rw [← Int.natCast_mul, ← Int.natCast_mul]
  simp only [rowStep, BitVec.toNat_setWidth, BitVec.toNat_add, BitVec.toNat_mul,
    BitVec.toNat_ushiftRight, Nat.shiftRight_eq_div_pow, widened]
  omega

theorem rowLoop_value (context : Montgomery) (b T : UInt512) (digit : BitVec 32) :
    value (context.rowLoop b T digit).1 +
          UInt512.cardinality * (context.rowLoop b T digit).2.toNat =
        T.toNat + digit.toNat * b.toNat +
          (context.reductionFactor T b digit).toNat * context.N.toNat ∧
      (context.rowLoop b T digit).2.toNat ≤ 2 ^ 33 := by
  have inner := T.size.trans b.size.symm
  have outer : (T.limbs.zip b.limbs).length = context.N.limbs.length := by
    simp [T.size, b.size, context.N.size]
  have total := carryLoop_value
    (rowStep digit (context.reductionFactor T b digit)) _
    (fun carry => carry.toNat) (fun carry => carry.toNat ≤ 2 ^ 33)
    (rowStep_conserves digit _)
    ((T.limbs.zip b.limbs).zip context.N.limbs) 0#128 (by simp)
  rw [weigh_add, weigh_add, weigh_mul 32 _ fun limbs : (BitVec 32 × BitVec 32) ×
      BitVec 32 => (limbs.1.2.toNat : Int), weigh_mul 32 _ fun limbs : (BitVec 32 × BitVec 32) ×
      BitVec 32 => (limbs.2.toNat : Int),
    weigh_zip_fst 32 (fun limbs : BitVec 32 × BitVec 32 => (limbs.1.toNat : Int)) outer,
    weigh_zip_fst 32 (fun limbs : BitVec 32 × BitVec 32 => (limbs.2.toNat : Int)) outer,
    weigh_zip_snd 32 (fun limb => (limb.toNat : Int)) outer,
    weigh_zip_fst 32 (fun limb => (limb.toNat : Int)) inner,
    weigh_zip_snd 32 (fun limb => (limb.toNat : Int)) inner,
    weigh_toNat, weigh_toNat, weigh_toNat,
    UInt512.two_pow_eq_cardinality (by simp [T.size, b.size, context.N.size]),
    BitVec.toNat_zero, Nat.cast_zero, add_zero] at total
  exact ⟨by exact_mod_cast total.1, total.2⟩

private theorem natCast_toNat (number : UInt512) :
    (number.toNat : BitVec 32) = number.limbs.getD 0 0 := by
  apply BitVec.eq_of_toNat_eq
  rw [toNat_getD_zero]
  exact BitVec.toNat_ofNat _ _

variable {context : Montgomery}

private theorem reductionFactor_clears (inverts : context.Inverts) (T b : UInt512)
    (digit : BitVec 32) :
    2 ^ 32 ∣ T.toNat + digit.toNat * b.toNat +
      (context.reductionFactor T b digit).toNat * context.N.toNat := by
  have castZero : ((T.toNat + digit.toNat * b.toNat +
      (context.reductionFactor T b digit).toNat * context.N.toNat : Nat) :
        BitVec 32) = 0 := by
    have castWord (word : BitVec 32) : ((word.toNat : Nat) : BitVec 32) = word :=
      BitVec.ofNat_toNat _ _
    have inverse : context.N.limbs.getD 0 0 * context.nPrime = -1 := inverts
    rw [Nat.cast_add, Nat.cast_add, Nat.cast_mul, Nat.cast_mul, castWord,
      castWord, natCast_toNat, natCast_toNat, natCast_toNat, reductionFactor]
    linear_combination (T.limbs.getD 0 0 + digit * b.limbs.getD 0 0) * inverse
  apply Nat.dvd_of_mod_eq_zero
  have toNatZero := congrArg BitVec.toNat castZero
  rwa [BitVec.natCast_eq_ofNat, BitVec.toNat_ofNat] at toNatZero

theorem mulRow_accumulated (inverts : context.Inverts) (b : UInt512)
    (accumulator : UInt512 × BitVec 32) (digit : BitVec 32) :
    2 ^ 32 * accumulated (context.mulRow b accumulator digit) =
      accumulated accumulator + digit.toNat * b.toNat +
        (context.reductionFactor accumulator.1 b digit).toNat * context.N.toNat := by
  rcases context.rowLoop_value b accumulator.1 digit with ⟨total, carryBound⟩
  have clears := reductionFactor_clears inverts accumulator.1 b digit
  have length := context.rowLoop_length b accumulator.1 digit
  have extraBound := accumulator.2.isLt
  have split : UInt512.cardinality = 2 ^ 32 * 2 ^ (32 * 15) := by
    rw [← UInt512.two_pow_eq_cardinality rfl, ← Nat.pow_add]
  cases row : (context.rowLoop b accumulator.1 digit).1 with
  | nil => simp [row] at length
  | cons low high =>
    have highLength : high.length = 15 := by simpa [row] using length
    have lowZero : low.toNat = 0 := by
      have lowBound := low.isLt
      rw [← total, row, value_cons, split, Nat.mul_assoc, Nat.add_assoc, ← Nat.mul_add] at clears
      rcases clears with ⟨quotient, equal⟩
      omega
    have sumTop : (accumulator.2.setWidth 128 + (context.rowLoop b accumulator.1 digit).2).toNat =
          accumulator.2.toNat +
            (context.rowLoop b accumulator.1 digit).2.toNat := by
      rw [BitVec.toNat_add, BitVec.toNat_setWidth]
      omega
    rw [row, value_cons, lowZero, Nat.zero_add] at total
    simp only [mulRow, accumulated, UInt512.toNat, row, List.tail_cons,
      value_append, highLength, value_cons, value_nil, BitVec.toNat_setWidth,
      BitVec.toNat_ushiftRight, Nat.shiftRight_eq_div_pow, sumTop]
    have parts := Nat.mod_add_div (accumulator.2.toNat +
      (context.rowLoop b accumulator.1 digit).2.toNat) (2 ^ 32)
    have extraFits : (accumulator.2.toNat +
        (context.rowLoop b accumulator.1 digit).2.toNat) / 2 ^ 32 % 2 ^ 32 =
          (accumulator.2.toNat +
            (context.rowLoop b accumulator.1 digit).2.toNat) / 2 ^ 32 :=
      Nat.mod_eq_of_lt (by omega)
    rw [extraFits]
    simp only [UInt512.toNat] at total
    rw [split] at total ⊢
    linear_combination total + 2 ^ 32 * 2 ^ (32 * 15) * parts

/-! ## Multiplication -/

/-- The rows together divide exactly by a power of the radix, and the
accumulator stays below `2 * N`. -/
theorem foldl_mulRow (inverts : context.Inverts) {b : UInt512} (bound : b.toNat ≤ context.N.toNat) :
    ∀ (digits : List (BitVec 32)) (accumulator : UInt512 × BitVec 32),
      accumulated accumulator < 2 * context.N.toNat →
        accumulated (digits.foldl (context.mulRow b) accumulator) < 2 * context.N.toNat ∧
          ∃ multiple, 2 ^ (32 * digits.length) *
              accumulated (digits.foldl (context.mulRow b) accumulator) =
            accumulated accumulator + value digits * b.toNat + multiple * context.N.toNat
  | [], accumulator, small => ⟨small, 0, by simp⟩
  | digit :: digits, accumulator, small => by
    have row := mulRow_accumulated inverts b accumulator digit
    have digitBound := digit.isLt
    have factorBound :=
      (context.reductionFactor accumulator.1 b digit).isLt
    have addend : digit.toNat * b.toNat ≤
        (2 ^ 32 - 1) * context.N.toNat := Nat.mul_le_mul (by omega) bound
    have cancel : (context.reductionFactor accumulator.1 b digit).toNat *
        context.N.toNat ≤ (2 ^ 32 - 1) * context.N.toNat :=
      Nat.mul_le_mul_right _ (by omega)
    rcases foldl_mulRow inverts bound digits
      (context.mulRow b accumulator digit) (by omega) with
      ⟨finalSmall, multiple, total⟩
    refine ⟨finalSmall, (context.reductionFactor accumulator.1 b digit).toNat +
      2 ^ 32 * multiple, ?_⟩
    rw [List.foldl_cons, List.length_cons, Nat.mul_add, Nat.mul_one, Nat.pow_add, value_cons]
    linear_combination 2 ^ 32 * total + row

private theorem toNat_sub_final {result : UInt512 × BitVec 32}
    (small : accumulated result < 2 * context.N.toNat) :
    (if result.2 != 0 || !result.1.less context.N then
        result.1.sub context.N else result.1).toNat =
      accumulated result % context.N.toNat := by
  have modulusBound := context.N.toNat_lt
  have resultBound := result.1.toNat_lt
  have low : result.1.toNat = accumulated result % UInt512.cardinality := by
    rw [accumulated, Nat.add_mul_mod_self_left, Nat.mod_eq_of_lt resultBound]
  by_cases extra : result.2 = 0
  · have value : accumulated result = result.1.toNat := by
      simp [accumulated, extra]
    rw [value] at small ⊢
    by_cases below : result.1.toNat < context.N.toNat
    · rw [if_neg (by simp [extra, below]), Nat.mod_eq_of_lt below]
    · rw [if_pos (by simp [extra, Nat.le_of_not_lt below])]
      exact UInt512.toNat_sub_of_carry (value ▸ low) (Nat.le_of_not_lt below)
        (by omega)
  · have positive : 0 < result.2.toNat :=
      Nat.pos_of_ne_zero fun zero => extra (BitVec.eq_of_toNat_eq zero)
    have wraps : UInt512.cardinality ≤ accumulated result :=
      (Nat.le_mul_of_pos_right _ positive).trans (Nat.le_add_left _ _)
    rw [if_pos (by
      rw [Bool.or_eq_true, bne_iff_ne]
      exact .inl extra)]
    exact UInt512.toNat_sub_of_carry low (by omega) (by omega)

theorem mul_spec (inverts : context.Inverts) (nonzero : context.N.toNat ≠ 0) (a : UInt512)
    {b : UInt512} (bound : b.toNat ≤ context.N.toNat) :
    (context.mul a b).toNat < context.N.toNat ∧
      UInt512.cardinality * (context.mul a b).toNat ≡ a.toNat * b.toNat
        [MOD context.N.toNat] := by
  have start : accumulated (UInt512.ofUInt32 0, 0) = 0 := by
    simp [accumulated]
  rcases foldl_mulRow inverts bound a.limbs (UInt512.ofUInt32 0, 0)
    (by rw [start]; omega) with ⟨small, multiple, total⟩
  rw [UInt512.two_pow_eq_cardinality (congrArg (32 * ·) a.size), start, Nat.zero_add] at total
  have final := toNat_sub_final small
  rw [mul, final]
  refine ⟨Nat.mod_lt _ (Nat.pos_of_ne_zero nonzero), ?_⟩
  calc UInt512.cardinality * (accumulated (a.limbs.foldl (context.mulRow b)
        (UInt512.ofUInt32 0, 0)) % context.N.toNat)
      ≡ UInt512.cardinality * accumulated (a.limbs.foldl (context.mulRow b)
        (UInt512.ofUInt32 0, 0)) [MOD context.N.toNat] :=
          (Nat.mod_modEq _ _).mul_left _
    _ = a.toNat * b.toNat + multiple * context.N.toNat := total
    _ ≡ a.toNat * b.toNat [MOD context.N.toNat] := Nat.add_mul_mod_self_right _ _ _

/-! ## Conversions and powers -/

structure Valid (context : Montgomery) : Prop where
  odd : context.N.toNat % 2 = 1
  inverts : context.Inverts
  square : context.R2.toNat = UInt512.cardinality * UInt512.cardinality % context.N.toNat

theorem ofModulus_valid {modulus : UInt512} (odd : modulus.toNat % 2 = 1) :
    (ofModulus modulus).Valid where
  odd := odd
  inverts := ofModulus_inverts odd
  square := ofModulus_R2 (by omega)

section

variable (valid : context.Valid)

include valid

theorem Valid.nonzero : context.N.toNat ≠ 0 := by
  have odd := valid.odd
  omega

theorem Valid.cancel {left right : Nat}
    (equal : UInt512.cardinality * left ≡ UInt512.cardinality * right [MOD context.N.toNat]) :
    left ≡ right [MOD context.N.toNat] := by
  apply Nat.ModEq.cancel_left_of_coprime _ equal
  rw [← UInt512.two_pow_eq_cardinality rfl]
  apply Nat.Coprime.pow_right
  exact Nat.coprime_two_right.mpr (Nat.odd_iff.mpr valid.odd)

theorem Valid.R2_lt : context.R2.toNat < context.N.toNat := by
  rw [valid.square]
  exact Nat.mod_lt _ (Nat.pos_of_ne_zero valid.nonzero)

theorem Valid.toNat_transform (a : UInt512) : (context.transform a).toNat =
      UInt512.cardinality * a.toNat % context.N.toNat := by
  rcases mul_spec valid.inverts valid.nonzero a valid.R2_lt.le with
    ⟨bound, congruent⟩
  rw [transform, ← Nat.mod_eq_of_lt bound]
  apply valid.cancel
  apply congruent.trans
  rw [valid.square, ← Nat.mul_assoc, Nat.mul_comm a.toNat]
  exact (Nat.mod_modEq _ _).mul_right _

theorem Valid.transform_lt (a : UInt512) : (context.transform a).toNat < context.N.toNat :=
  (mul_spec valid.inverts valid.nonzero a valid.R2_lt.le).1

theorem Valid.reduce_spec (a : UInt512) : (context.reduce a).toNat < context.N.toNat ∧
      UInt512.cardinality * (context.reduce a).toNat ≡ a.toNat
        [MOD context.N.toNat] := by
  have one : (UInt512.ofUInt32 1).toNat = 1 := UInt512.toNat_ofUInt32 1
  have spec := mul_spec valid.inverts valid.nonzero a
    (b := UInt512.ofUInt32 1)
    (by rw [one]; exact Nat.pos_of_ne_zero valid.nonzero)
  rwa [one, Nat.mul_one] at spec

theorem Valid.toNat_reduce_of_modEq {a : UInt512} {number : Nat}
    (represents : a.toNat ≡ UInt512.cardinality * number [MOD context.N.toNat]) :
    (context.reduce a).toNat = number % context.N.toNat := by
  rcases valid.reduce_spec a with ⟨bound, congruent⟩
  rw [← Nat.mod_eq_of_lt bound]
  exact valid.cancel (congruent.trans represents)

end

private theorem lowBit_iff (exp : UInt512) :
    (exp.limbs.getD 0 0 &&& 1 != 0) = true ↔ exp.toNat % 2 = 1 := by
  have low := toNat_getD_zero exp
  have masked : (exp.limbs.getD 0 0 &&& 1).toNat = exp.toNat % 2 := by
    rw [BitVec.toNat_and, show (1 : BitVec 32).toNat = 1 from rfl, Nat.and_one_is_mod]
    omega
  have zeroIff : exp.limbs.getD 0 0 &&& 1 = 0 ↔
      (exp.limbs.getD 0 0 &&& 1).toNat = 0 := BitVec.toNat_inj.symm
  rw [bne_iff_ne, ne_eq, zeroIff, masked]
  omega

section

variable (valid : context.Valid)

include valid

/-- A multiplication in Montgomery form carries a factor `R⁻¹`. -/
theorem Valid.powStep_spec {res baseMont : UInt512} (exp : UInt512)
    (resBound : res.toNat < context.N.toNat) (baseBound : baseMont.toNat < context.N.toNat) :
    (context.powStep res baseMont exp).toNat < context.N.toNat ∧
      UInt512.cardinality ^ (exp.toNat % 2) * (context.powStep res baseMont exp).toNat ≡
        res.toNat * baseMont.toNat ^ (exp.toNat % 2) [MOD context.N.toNat] := by
  rw [powStep]
  split
  · next odd =>
      rw [lowBit_iff] at odd
      rw [odd, Nat.pow_one, Nat.pow_one]
      exact mul_spec valid.inverts valid.nonzero res baseBound.le
  · next even =>
      rw [lowBit_iff] at even
      rw [show exp.toNat % 2 = 0 by omega, Nat.pow_zero, Nat.pow_zero,
        Nat.one_mul, Nat.mul_one]
      exact ⟨resBound, Nat.ModEq.refl _⟩

theorem Valid.powLoop_spec (res baseMont exp : UInt512) (resBound : res.toNat < context.N.toNat)
    (baseBound : baseMont.toNat < context.N.toNat) :
    (context.powLoop res baseMont exp).toNat < context.N.toNat ∧ UInt512.cardinality ^ exp.toNat *
          (context.powLoop res baseMont exp).toNat ≡
        res.toNat * baseMont.toNat ^ exp.toNat [MOD context.N.toNat] := by
  fun_induction powLoop context res baseMont exp with
  | case1 res baseMont exp zero =>
    rw [UInt512.isZero_iff] at zero
    rw [zero]
    exact ⟨resBound, by simp [Nat.ModEq.refl]⟩
  | case2 res baseMont exp nonzero induction =>
    rcases valid.powStep_spec exp resBound baseBound with
      ⟨stepBound, step⟩
    rcases mul_spec valid.inverts valid.nonzero baseMont baseBound.le with
      ⟨squareBound, square⟩
    rw [UInt512.toNat_rshift, Nat.pow_one] at induction
    rcases induction stepBound squareBound with ⟨bound, rest⟩
    refine ⟨bound, ?_⟩
    have exponent (number : Nat) : number ^ exp.toNat =
        number ^ (exp.toNat % 2) * (number * number) ^ (exp.toNat / 2) := by
      rw [← Nat.pow_two, ← Nat.pow_mul, ← Nat.pow_add, Nat.mod_add_div]
    rw [exponent, exponent, Nat.mul_pow]
    calc UInt512.cardinality ^ (exp.toNat % 2) * (UInt512.cardinality ^ (exp.toNat / 2) *
            UInt512.cardinality ^ (exp.toNat / 2)) * _
        = UInt512.cardinality ^ (exp.toNat % 2) * UInt512.cardinality ^ (exp.toNat / 2) *
            (UInt512.cardinality ^ (exp.toNat / 2) * _) := by ring
      _ ≡ UInt512.cardinality ^ (exp.toNat % 2) * UInt512.cardinality ^ (exp.toNat / 2) *
            ((context.powStep res baseMont exp).toNat *
              (context.sqr baseMont).toNat ^ (exp.toNat / 2))
            [MOD context.N.toNat] := rest.mul_left _
      _ = UInt512.cardinality ^ (exp.toNat % 2) * (context.powStep res baseMont exp).toNat *
            (UInt512.cardinality * (context.sqr baseMont).toNat) ^
              (exp.toNat / 2) := by rw [Nat.mul_pow]; ring
      _ ≡ res.toNat * baseMont.toNat ^ (exp.toNat % 2) *
            (baseMont.toNat * baseMont.toNat) ^ (exp.toNat / 2)
            [MOD context.N.toNat] := step.mul (square.pow _)
      _ = _ := by ring

theorem Valid.pow_spec {baseMont : UInt512} (exp : UInt512)
    (baseBound : baseMont.toNat < context.N.toNat) :
    (context.pow baseMont exp).toNat < context.N.toNat ∧
      UInt512.cardinality ^ exp.toNat * (context.pow baseMont exp).toNat ≡
        UInt512.cardinality * baseMont.toNat ^ exp.toNat
          [MOD context.N.toNat] := by
  rcases valid.powLoop_spec _ baseMont exp
    (valid.transform_lt (UInt512.ofUInt32 1)) baseBound with ⟨bound, congruent⟩
  refine ⟨bound, congruent.trans ?_⟩
  rw [valid.toNat_transform, show (UInt512.ofUInt32 1).toNat = 1 from
    UInt512.toNat_ofUInt32 1, Nat.mul_one]
  exact (Nat.mod_modEq _ _).mul_right _

theorem Valid.cancel_pow {left right : Nat} (exponent : Nat)
    (equal : UInt512.cardinality ^ exponent * left ≡
      UInt512.cardinality ^ exponent * right [MOD context.N.toNat]) :
    left ≡ right [MOD context.N.toNat] := by
  induction exponent with
  | zero => simpa using equal
  | succ exponent induction =>
    rw [Nat.pow_succ', Nat.mul_assoc, Nat.mul_assoc] at equal
    exact induction (valid.cancel equal)

theorem Valid.pow_transform (base exp : UInt512) :
    (context.pow (context.transform base) exp).toNat ≡
      UInt512.cardinality * base.toNat ^ exp.toNat [MOD context.N.toNat] := by
  apply valid.cancel_pow exp.toNat
  apply ((valid.pow_spec exp (valid.transform_lt base)).2).trans
  rw [valid.toNat_transform]
  calc UInt512.cardinality * (UInt512.cardinality * base.toNat % context.N.toNat) ^ exp.toNat
      ≡ UInt512.cardinality * (UInt512.cardinality * base.toNat) ^ exp.toNat
          [MOD context.N.toNat] :=
            ((Nat.mod_modEq _ _).pow _).mul_left _
    _ = _ := by rw [Nat.mul_pow]; ring

theorem Valid.toNat_reduce_transform (a : UInt512) : (context.reduce (context.transform a)).toNat =
      a.toNat % context.N.toNat := by
  apply valid.toNat_reduce_of_modEq
  rw [valid.toNat_transform]
  exact Nat.mod_modEq _ _

theorem Valid.toNat_reduce_pow (base exp : UInt512) :
    (context.reduce (context.pow (context.transform base) exp)).toNat =
      base.toNat ^ exp.toNat % context.N.toNat :=
  valid.toNat_reduce_of_modEq (valid.pow_transform base exp)

end

/-- For every odd modulus: `mul` returns the one residue congruent to
`a * b * 2 ^ -512`, the conversions are inverse, `pow` is exponentiation, and
neither a limb step nor a row loses a carry. -/
theorem ofModulus_correct {N : UInt512} (odd : N.toNat % 2 = 1) :
    (∀ a b : UInt512, b.toNat < N.toNat → ∀ residue : Nat, residue < N.toNat ∧
          2 ^ 512 * residue ≡ a.toNat * b.toNat [MOD N.toNat] ↔
        residue = ((ofModulus N).mul a b).toNat) ∧
    (∀ a : UInt512, ((ofModulus N).reduce ((ofModulus N).transform a)).toNat = a.toNat % N.toNat) ∧
    (∀ base exp : UInt512, ((ofModulus N).reduce
        ((ofModulus N).pow ((ofModulus N).transform base) exp)).toNat =
      base.toNat ^ exp.toNat % N.toNat) ∧
    (∀ digit u limbs carry, carry.toNat ≤ 2 ^ 33 → (rowStep digit u limbs carry).1.toNat +
            2 ^ 32 * (rowStep digit u limbs carry).2.toNat =
          limbs.1.1.toNat + digit.toNat * limbs.1.2.toNat + u.toNat * limbs.2.toNat + carry.toNat ∧
        (rowStep digit u limbs carry).2.toNat ≤ 2 ^ 33) ∧
    (∀ b accumulator digit, 2 ^ 32 * accumulated ((ofModulus N).mulRow b accumulator digit) =
        accumulated accumulator + digit.toNat * b.toNat +
          ((ofModulus N).reductionFactor accumulator.1 b digit).toNat * N.toNat) := by
  have valid := ofModulus_valid odd
  refine ⟨?_, valid.toNat_reduce_transform, valid.toNat_reduce_pow, ?_,
    mulRow_accumulated valid.inverts⟩
  · intro a b bound residue
    rcases mul_spec valid.inverts valid.nonzero a bound.le with
      ⟨productBound, product⟩
    rw [(UInt512.two_pow_eq_cardinality rfl : 2 ^ 512 = UInt512.cardinality)]
    constructor
    · rintro ⟨residueBound, congruent⟩
      have equal := valid.cancel (congruent.trans product.symm)
      exact Nat.ModEq.eq_of_lt_of_lt equal residueBound productBound
    · rintro rfl
      exact ⟨productBound, product⟩
  · intro digit u limbs carry small
    rcases rowStep_conserves digit u limbs carry small with ⟨equal, carryBound⟩
    exact ⟨by exact_mod_cast equal, carryBound⟩

/-- The largest modulus, with every bit set. -/
theorem ofModulus_correct_allOnes :
    let context := ofModulus ⟨List.replicate 16 0xFFFFFFFF#32, rfl⟩
    (context.reduce (context.pow (context.transform (UInt512.ofUInt32 2))
      (UInt512.ofUInt32 5))).toNat = 32 :=
  ((ofModulus_correct (by decide +kernel)).2.2.1 (UInt512.ofUInt32 2)
    (UInt512.ofUInt32 5)).trans (by decide +kernel)

end Montgomery

end CudaMpqs
