import CudaMpqs.Common.UInt512Shift

/-! # Long division of `uint512`

The long division and the 1024-bit reduction of `mul_mod` run the same bit step:
shift the remainder left, remember the bit that left position 511, inject the
next bit of the dividend, and subtract the divisor once if it fits. -/

namespace CudaMpqs.UInt512

open Limbs

/-! ## The bit step -/

def shiftInStep (limb carry : BitVec 32) : BitVec 32 × BitVec 32 :=
  ((limb <<< 1) ||| carry, limb >>> 31)

def orLow (bit : BitVec 32) : List (BitVec 32) → List (BitVec 32)
  | [] => []
  | low :: high => (low ||| bit) :: high

@[simp] theorem orLow_length (bit : BitVec 32) (limbs : List (BitVec 32)) :
    (orLow bit limbs).length = limbs.length := by
  cases limbs <;> rfl

/-- Shift left by one and inject `bit`; the second component is the overflow
bit. -/
def shiftIn (remainder : UInt512) (bit : BitVec 32) : UInt512 × BitVec 32 :=
  let shifted := carryLoop shiftInStep remainder.limbs 0#32
  (⟨orLow bit shifted.1, by simp [shifted, remainder.size]⟩, shifted.2)

def reduceStep (modulus remainder : UInt512) (bit : BitVec 32) : UInt512 × Bool :=
  let shifted := remainder.shiftIn bit
  let geq := shifted.2 != 0 || !shifted.1.less modulus
  (if geq then shifted.1.sub modulus else shifted.1, geq)

theorem shiftInStep_conserves (limb carry : BitVec 32) (small : carry.toNat ≤ 1) :
    ((shiftInStep limb carry).1.toNat : Int) + 2 ^ 32 * ((shiftInStep limb carry).2.toNat : Int) =
        2 * (limb.toNat : Int) + carry.toNat ∧
      (shiftInStep limb carry).2.toNat ≤ 1 := by
  have bound := limb.isLt
  have even : limb.toNat * 2 ^ 1 % 2 ^ 32 = 2 ^ 1 * (limb.toNat % 2 ^ 31) := by
    omega
  have fits : carry.toNat < 2 ^ 1 := by omega
  simp only [shiftInStep, BitVec.toNat_or, BitVec.toNat_shiftLeft,
    BitVec.toNat_ushiftRight, Nat.shiftLeft_eq, Nat.shiftRight_eq_div_pow, even,
    ← Nat.two_pow_add_eq_or_of_lt fits]
  omega

private theorem value_orLow {bit : BitVec 32} (small : bit.toNat ≤ 1) :
    ∀ {limbs : List (BitVec 32)}, limbs ≠ [] → value limbs % 2 = 0 →
      value (orLow bit limbs) = value limbs + bit.toNat
  | low :: high, _, even => by
    rw [value_cons] at even
    have lowEven : low.toNat = 2 ^ 1 * (low.toNat / 2) := by omega
    have fits : bit.toNat < 2 ^ 1 := by omega
    rw [orLow, value_cons, value_cons, BitVec.toNat_or, lowEven,
      ← Nat.two_pow_add_eq_or_of_lt fits]
    omega

private theorem shiftIn_spec (remainder : UInt512) {bit : BitVec 32} (small : bit.toNat ≤ 1) :
    (remainder.shiftIn bit).1.toNat + cardinality * (remainder.shiftIn bit).2.toNat =
        2 * remainder.toNat + bit.toNat ∧
      (remainder.shiftIn bit).2.toNat ≤ 1 := by
  have total := carryLoop_value shiftInStep (fun limb => 2 * (limb.toNat : Int))
    (fun carry => carry.toNat) (fun carry => carry.toNat ≤ 1)
    shiftInStep_conserves remainder.limbs 0#32 (by simp)
  rw [weigh_mul, weigh_toNat, BitVec.toNat_zero, Nat.cast_zero, add_zero,
    two_pow_eq_cardinality (congrArg (32 * ·) remainder.size)] at total
  have shiftedEqual :
      value (carryLoop shiftInStep remainder.limbs 0#32).1 +
          cardinality * (carryLoop shiftInStep remainder.limbs 0#32).2.toNat =
        2 * remainder.toNat := by exact_mod_cast total.1
  have even : value (carryLoop shiftInStep remainder.limbs 0#32).1 % 2 = 0 := by
    have cardinalityEven : cardinality = 2 * 2 ^ 511 := by
      rw [← two_pow_eq_cardinality rfl, ← Nat.pow_succ']
    rw [cardinalityEven, Nat.mul_assoc] at shiftedEqual
    omega
  have nonempty : (carryLoop shiftInStep remainder.limbs 0#32).1 ≠ [] := by
    intro empty
    have size := congrArg List.length empty
    simp [remainder.size] at size
  refine ⟨?_, total.2⟩
  simp only [shiftIn]
  rw [toNat, value_orLow small nonempty even]
  omega

theorem reduceStep_spec {modulus remainder : UInt512} {bit : BitVec 32}
    (bound : remainder.toNat < modulus.toNat) (small : bit.toNat ≤ 1) :
    (reduceStep modulus remainder bit).1.toNat = (2 * remainder.toNat + bit.toNat) % modulus.toNat ∧
      ((reduceStep modulus remainder bit).2 = true ↔
        modulus.toNat ≤ 2 * remainder.toNat + bit.toNat) := by
  rcases shiftIn_spec remainder small with ⟨shifted, overflowBound⟩
  have modulusBound := modulus.toNat_lt
  have shiftedBound := (remainder.shiftIn bit).1.toNat_lt
  have zeroIff : (remainder.shiftIn bit).2 = 0 ↔
      (remainder.shiftIn bit).2.toNat = 0 :=
    ⟨fun zero => by simp [zero], fun zero => BitVec.eq_of_toNat_eq (by simpa)⟩
  have geqIff : ((remainder.shiftIn bit).2 != 0 || !(remainder.shiftIn bit).1.less modulus) = true ↔
        modulus.toNat ≤ 2 * remainder.toNat + bit.toNat := by
    rw [Bool.or_eq_true, bne_iff_ne, ne_eq, zeroIff, Bool.not_eq_true',
      ← Bool.not_eq_true, less_iff]
    rcases Nat.le_one_iff_eq_zero_or_eq_one.mp overflowBound with zero | one
    · rw [zero] at shifted ⊢
      omega
    · rw [one] at shifted ⊢
      omega
  refine ⟨?_, geqIff⟩
  simp only [reduceStep]
  split
  · next geq =>
      have le := geqIff.mp geq
      have wrapped : (remainder.shiftIn bit).1.toNat + (cardinality - modulus.toNat) ≡
            2 * remainder.toNat + bit.toNat - modulus.toNat [MOD cardinality] := by
        rw [← shifted]
        rcases Nat.le_one_iff_eq_zero_or_eq_one.mp overflowBound with zero | one
        · rw [zero] at shifted ⊢
          rw [show (remainder.shiftIn bit).1.toNat + (cardinality - modulus.toNat) =
            (remainder.shiftIn bit).1.toNat + cardinality * 0 - modulus.toNat +
              cardinality by omega]
          exact Nat.add_modEq_right
        · rw [one, show (remainder.shiftIn bit).1.toNat + (cardinality - modulus.toNat) =
              (remainder.shiftIn bit).1.toNat + cardinality * 1 - modulus.toNat
            by omega]
      rw [toNat_sub, wrapped, Nat.mod_eq_of_lt (by omega), Nat.mod_eq_sub_mod le,
        Nat.mod_eq_of_lt (by omega)]
  · next notGeq =>
      have lt : 2 * remainder.toNat + bit.toNat < modulus.toNat := by
        rw [geqIff] at notGeq
        omega
      have overflowZero : (remainder.shiftIn bit).2.toNat = 0 := by
        by_contra nonzero
        rw [Nat.le_antisymm overflowBound (Nat.one_le_iff_ne_zero.mpr nonzero)]
          at shifted
        omega
      rw [overflowZero, Nat.mul_zero, Nat.add_zero] at shifted
      rw [shifted, Nat.mod_eq_of_lt lt]

/-! ## Single bits -/

def bitAt (limbs : List (BitVec 32)) (index : Nat) : BitVec 32 :=
  (limbs.getD (index / 32) 0 >>> (index % 32)) &&& 1

def setBit (self : UInt512) (index : Nat) : UInt512 :=
  ⟨self.limbs.set (index / 32) (self.limbs.getD (index / 32) 0 ||| (1#32 <<< (index % 32))),
    by simp [self.size]⟩

theorem toNat_bitAt (limbs : List (BitVec 32)) (index : Nat) :
    (bitAt limbs index).toNat = value limbs / 2 ^ index % 2 := by
  have sameBit := value_testBit (by omega) limbs index
  rw [Nat.testBit_eq_decide_div_mod_eq, Nat.testBit_eq_decide_div_mod_eq,
    decide_eq_decide] at sameBit
  rw [bitAt, BitVec.toNat_and, BitVec.toNat_ushiftRight,
    Nat.shiftRight_eq_div_pow, show (1 : BitVec 32).toNat = 1 from rfl,
    Nat.and_one_is_mod]
  omega

theorem toNat_bitAt_le (limbs : List (BitVec 32)) (index : Nat) :
    (bitAt limbs index).toNat ≤ 1 := by
  rw [toNat_bitAt]
  omega

theorem mod_two_pow_succ (limbs : List (BitVec 32)) (index : Nat) : value limbs % 2 ^ (index + 1) =
      2 ^ index * (bitAt limbs index).toNat + value limbs % 2 ^ index := by
  rw [toNat_bitAt, Nat.pow_succ, Nat.mod_mul, Nat.add_comm]

theorem toNat_setBit (self : UInt512) {index : Nat} (inside : index < 512)
    (clear : 2 ^ (index + 1) ∣ self.toNat) :
    (self.setBit index).toNat = self.toNat + 2 ^ index := by
  have split : 32 * (index / 32) + index % 32 = index := Nat.div_add_mod _ _
  have limbClear : 2 ^ (index % 32 + 1) ∣
      (self.limbs.getD (index / 32) 0).toNat := by
    rw [toNat_getD, Nat.dvd_mod_iff (Nat.pow_dvd_pow 2 (by omega))]
    apply Nat.dvd_div_of_mul_dvd
    rwa [← Nat.pow_add, ← Nat.add_assoc, split]
  rcases limbClear with ⟨high, limbEqual⟩
  have bitBound : 2 ^ (index % 32) < 2 ^ (index % 32 + 1) :=
    Nat.pow_lt_pow_right (by omega) (by omega)
  have fits : 2 ^ (index % 32) < 2 ^ 32 :=
    Nat.pow_lt_pow_right (by omega) (by omega)
  have limbSet : (self.limbs.getD (index / 32) 0 ||| (1#32 <<< (index % 32))).toNat =
        (self.limbs.getD (index / 32) 0).toNat + 2 ^ (index % 32) := by
    rw [BitVec.toNat_or, BitVec.toNat_shiftLeft, Nat.shiftLeft_eq, limbEqual,
      show (1#32).toNat = 1 from rfl, Nat.one_mul, Nat.mod_eq_of_lt fits,
      ← Nat.two_pow_add_eq_or_of_lt bitBound]
  have updated := value_set (self.limbs.getD (index / 32) 0 |||
    (1#32 <<< (index % 32))) self.limbs (index / 32) (by rw [self.size]; omega)
  rw [limbSet, Nat.mul_add, ← Nat.pow_add, split] at updated
  simp only [toNat, setBit]
  omega

/-! ## The most significant bit -/

def clz32 (word : BitVec 32) : Nat := word.clz.toNat

def msbFrom (index : Nat) : List (BitVec 32) → Option Nat
  | [] => none
  | low :: high =>
    (msbFrom (index + 1) high).or
      (if low ≠ 0 then some (31 - clz32 low + index * 32) else none)

def msb (self : UInt512) : Nat := (msbFrom 0 self.limbs).getD 0

private theorem clz32_spec {word : BitVec 32} (nonzero : word ≠ 0) :
    2 ^ (31 - clz32 word) ≤ word.toNat ∧
      word.toNat < 2 ^ (31 - clz32 word + 1) := by
  have lower := BitVec.two_pow_sub_clz_le_toNat_of_ne_zero (by omega) nonzero
  have upper := word.toNat_lt_two_pow_sub_clz
  have small : word.clz.toNat < 32 := by
    have lt := BitVec.clz_lt_iff_ne_zero.mpr nonzero
    simpa [BitVec.lt_def] using lt
  rw [clz32]
  refine ⟨?_, ?_⟩
  · rwa [show 31 - word.clz.toNat = 32 - 1 - word.clz.toNat by omega]
  · rwa [show 31 - word.clz.toNat + 1 = 32 - word.clz.toNat by omega]

theorem msbFrom_spec : ∀ (limbs : List (BitVec 32)) (index : Nat), match msbFrom index limbs with
    | none => value limbs = 0
    | some position => ∃ bit, position = bit + 32 * index ∧
        2 ^ bit ≤ value limbs ∧ value limbs < 2 ^ (bit + 1)
  | [], _ => rfl
  | low :: high, index => by
    have lowBound := low.isLt
    have highSpec := msbFrom_spec high (index + 1)
    rw [msbFrom]
    cases scanned : msbFrom (index + 1) high with
    | some position =>
      rw [scanned] at highSpec
      rcases highSpec with ⟨bit, rfl, lower, upper⟩
      refine ⟨bit + 32, by omega, ?_, ?_⟩
      · rw [value_cons, Nat.pow_add]
        omega
      · rw [value_cons, Nat.add_right_comm, Nat.pow_add]
        omega
    | none =>
      rw [scanned] at highSpec
      rw [Option.none_or]
      by_cases zero : low = 0
      · simp [zero, highSpec]
      · rcases clz32_spec zero with ⟨lower, upper⟩
        rw [if_pos zero]
        refine ⟨31 - clz32 low, by rw [Nat.mul_comm index], ?_, ?_⟩
        · simpa [highSpec] using lower
        · simpa [highSpec] using upper

theorem msb_eq_log2 (self : UInt512) : self.msb = Nat.log2 self.toNat := by
  have spec := msbFrom_spec self.limbs 0
  rw [msb]
  cases scanned : msbFrom 0 self.limbs with
  | none =>
    rw [scanned] at spec
    rw [toNat, spec]
    rfl
  | some position =>
    rw [scanned] at spec
    rcases spec with ⟨bit, positionEqual, lower, upper⟩
    have nonzero : self.toNat ≠ 0 := by
      have positive := Nat.two_pow_pos bit
      rw [toNat]
      omega
    rw [Option.getD_some, positionEqual]
    exact ((Nat.log2_eq_iff nonzero).mpr ⟨lower, upper⟩).symm

/-! ## Long division -/

/-- The loop of `div_mod_core` over the low `bits` bits of the dividend; the
state is the quotient and the remainder. -/
def divModLoop (dividend divisor : UInt512) : Nat → UInt512 × UInt512 → UInt512 × UInt512
  | 0, state => state
  | index + 1, (quotient, remainder) =>
    let next := reduceStep divisor remainder (bitAt dividend.limbs index)
    divModLoop dividend divisor index
      (if next.2 then quotient.setBit index else quotient, next.1)

def divModCore (self divisor remainderOut : UInt512) : UInt512 × UInt512 :=
  if divisor.isZero then (self, remainderOut)
  else if self.less divisor then (ofUInt32 0, self)
  else divModLoop self divisor (self.msb + 1) (ofUInt32 0, ofUInt32 0)

def div (self divisor : UInt512) : UInt512 :=
  (self.divModCore divisor (ofUInt32 0)).1

def mod (self divisor : UInt512) : UInt512 :=
  (self.divModCore divisor (ofUInt32 0)).2

theorem divModLoop_spec (dividend divisor : UInt512) :
    ∀ (bits : Nat) (quotient remainder : UInt512), bits ≤ 512 →
      2 ^ bits ∣ quotient.toNat → remainder.toNat < divisor.toNat →
      quotient.toNat * divisor.toNat + 2 ^ bits * remainder.toNat +
        dividend.toNat % 2 ^ bits = dividend.toNat →
      let result := divModLoop dividend divisor bits (quotient, remainder)
      result.1.toNat * divisor.toNat + result.2.toNat = dividend.toNat ∧
        result.2.toNat < divisor.toNat
  | 0, quotient, remainder, _, _, bound, invariant => by
    refine ⟨?_, bound⟩
    simpa [divModLoop, Nat.mod_one] using invariant
  | index + 1, quotient, remainder, inside, clear, bound, invariant => by
    have small := toNat_bitAt_le dividend.limbs index
    rcases reduceStep_spec bound small with ⟨remainderNext, subtracted⟩
    have low := mod_two_pow_succ dividend.limbs index
    have positive : 0 < divisor.toNat := by omega
    rw [← toNat] at low
    rw [low, Nat.pow_succ] at invariant
    rw [divModLoop]
    refine divModLoop_spec dividend divisor index _ _ (by omega) ?_ ?_ ?_
    · have halfClear : 2 ^ index ∣ quotient.toNat :=
        (Nat.pow_dvd_pow 2 (Nat.le_succ index)).trans clear
      split
      · rw [toNat_setBit _ (by omega) clear]
        exact Nat.dvd_add halfClear (Nat.dvd_refl _)
      · exact halfClear
    · rw [remainderNext]
      exact Nat.mod_lt _ positive
    · split
      · next taken =>
          have le := subtracted.mp taken
          rw [toNat_setBit _ (by omega) clear, remainderNext,
            Nat.mod_eq_sub_mod le, Nat.mod_eq_of_lt (by omega)]
          have difference : 2 * remainder.toNat +
              (bitAt dividend.limbs index).toNat - divisor.toNat +
                divisor.toNat = 2 * remainder.toNat +
                  (bitAt dividend.limbs index).toNat := by omega
          linear_combination invariant + 2 ^ index * difference
      · next kept =>
          rw [subtracted, Nat.not_le] at kept
          rw [remainderNext, Nat.mod_eq_of_lt kept]
          linear_combination invariant

theorem divModCore_spec (self remainderOut : UInt512) {divisor : UInt512}
    (nonzero : divisor.toNat ≠ 0) :
    (self.divModCore divisor remainderOut).1.toNat = self.toNat / divisor.toNat ∧
      (self.divModCore divisor remainderOut).2.toNat = self.toNat % divisor.toNat := by
  rw [divModCore, if_neg (by simpa using nonzero)]
  split
  · next below =>
      rw [less_iff] at below
      refine ⟨?_, (Nat.mod_eq_of_lt below).symm⟩
      rw [Nat.div_eq_of_lt below, toNat_ofUInt32]
      rfl
  · next reaches =>
      rw [less_iff, Nat.not_lt] at reaches
      have selfNonzero : self.toNat ≠ 0 := by omega
      have bitsBound : self.msb + 1 ≤ 512 := by
        rw [msb_eq_log2]
        apply (Nat.log2_lt selfNonzero).mpr
        have bound := self.toNat_lt
        rwa [← two_pow_eq_cardinality rfl] at bound
      have zero : (ofUInt32 0).toNat = 0 := toNat_ofUInt32 0
      have run := divModLoop_spec self divisor (self.msb + 1) (ofUInt32 0)
        (ofUInt32 0) bitsBound (by rw [zero]; exact Nat.dvd_zero _)
        (by omega) (by
          rw [zero, Nat.zero_mul, Nat.mul_zero, Nat.zero_add,
            msb_eq_log2, Nat.mod_eq_of_lt Nat.lt_log2_self])
      rcases run with ⟨total, bound⟩
      rw [Nat.add_comm, Nat.mul_comm] at total
      have unique := (Nat.div_mod_unique (by omega)).mpr ⟨total, bound⟩
      exact ⟨unique.1.symm, unique.2.symm⟩

theorem toNat_div (self : UInt512) {divisor : UInt512} (nonzero : divisor.toNat ≠ 0) :
    (self.div divisor).toNat = self.toNat / divisor.toNat :=
  (self.divModCore_spec _ nonzero).1

theorem toNat_mod (self : UInt512) {divisor : UInt512} (nonzero : divisor.toNat ≠ 0) :
    (self.mod divisor).toNat = self.toNat % divisor.toNat :=
  (self.divModCore_spec _ nonzero).2

end CudaMpqs.UInt512
