import CudaMpqs.Common.UInt512Division

/-! # Modular arithmetic of `uint512`

`mul_mod` forms the exact 1024-bit product and reduces it bit by bit. -/

namespace CudaMpqs.UInt512

open Limbs


def doubleMod (self modulus : UInt512) : UInt512 :=
  let carry := self.limbs.getD 15 0 >>> 31
  let doubled := self.lshift 1
  if carry != 0 || !doubled.less modulus then doubled.sub modulus else doubled

def negateModInplace (self modulus : UInt512) : UInt512 :=
  if self.isZero then self else modulus.sub self

theorem toNat_sub_of_carry {sum modulus : UInt512} {total : Nat}
    (congruent : sum.toNat = total % cardinality)
    (reaches : modulus.toNat ≤ total) (once : total < modulus.toNat + modulus.toNat) :
    (sum.sub modulus).toNat = total % modulus.toNat := by
  have bound := modulus.toNat_lt
  rw [toNat_sub, congruent, Nat.mod_add_mod, show total + (cardinality - modulus.toNat) =
      total - modulus.toNat + cardinality by omega, Nat.add_mod_right,
    Nat.mod_eq_of_lt (by omega), Nat.mod_eq_sub_mod reaches,
    Nat.mod_eq_of_lt (by omega)]

theorem cardinality_le_double_iff (self : UInt512) : (self.limbs.getD 15 0 >>> 31 != 0) = true ↔
      cardinality ≤ 2 * self.toNat := by
  have halves : cardinality = 2 * (2 ^ (32 * 15) * 2 ^ 31) := by
    rw [← two_pow_eq_cardinality rfl, ← Nat.pow_add, ← Nat.pow_succ']
  have bound := self.toNat_lt
  have limbBound : self.toNat / 2 ^ (32 * 15) < 2 ^ 32 := by
    apply Nat.div_lt_of_lt_mul
    rwa [← Nat.pow_add, two_pow_eq_cardinality rfl]
  have carry : (self.limbs.getD 15 0 >>> 31).toNat =
      self.toNat / (2 ^ (32 * 15) * 2 ^ 31) := by
    rw [BitVec.toNat_ushiftRight, Nat.shiftRight_eq_div_pow, toNat_getD, ← toNat,
      Nat.mod_eq_of_lt limbBound, Nat.div_div_eq_div_mul]
  have zeroIff : self.limbs.getD 15 0 >>> 31 = 0 ↔
      (self.limbs.getD 15 0 >>> 31).toNat = 0 := BitVec.toNat_inj.symm
  have halfPositive : 0 < 2 ^ (32 * 15) * 2 ^ 31 :=
    Nat.mul_pos (Nat.two_pow_pos _) (Nat.two_pow_pos _)
  rw [bne_iff_ne, ne_eq, zeroIff, carry, halves, Nat.div_eq_zero_iff_lt halfPositive, Nat.not_lt]
  exact (Nat.mul_le_mul_left_iff (by decide)).symm

theorem toNat_doubleMod {self modulus : UInt512} (bound : self.toNat < modulus.toNat) :
    (self.doubleMod modulus).toNat = 2 * self.toNat % modulus.toNat := by
  have doubled := toNat_lshift self 1
  have modulusBound := modulus.toNat_lt
  have carryIff := cardinality_le_double_iff self
  rw [Nat.pow_one, Nat.mul_comm] at doubled
  rw [doubleMod]
  by_cases wraps : cardinality ≤ 2 * self.toNat
  · rw [if_pos (by rw [Bool.or_eq_true]; exact .inl (carryIff.mpr wraps))]
    exact toNat_sub_of_carry doubled (by omega) (by omega)
  · have noCarry := mt carryIff.mp wraps
    have exact' := doubled
    rw [Nat.mod_eq_of_lt (by omega)] at exact'
    by_cases reaches : modulus.toNat ≤ 2 * self.toNat
    · have notLess : (self.lshift 1).less modulus = false := by
        rw [← Bool.not_eq_true, less_iff]
        omega
      rw [if_pos (by simp [notLess])]
      exact toNat_sub_of_carry doubled reaches (by omega)
    · have isLess : (self.lshift 1).less modulus = true := by
        rw [less_iff]
        omega
      rw [if_neg (by rw [isLess, Bool.not_true, Bool.or_false]; exact noCarry),
        exact', Nat.mod_eq_of_lt (by omega)]

theorem toNat_negateModInplace {self modulus : UInt512} (bound : self.toNat < modulus.toNat) :
    (self.negateModInplace modulus).toNat = (modulus.toNat - self.toNat) % modulus.toNat := by
  rw [negateModInplace]
  split
  · next zero =>
      rw [isZero_iff] at zero
      rw [zero, Nat.sub_zero, Nat.mod_self]
  · next nonzero =>
      rw [isZero_iff] at nonzero
      rw [toNat_sub_of_le bound.le, Nat.mod_eq_of_lt (by omega)]

/-! ## The wide product -/

def mulStep (factor : BitVec 32) (limbs : BitVec 32 × BitVec 32)
    (carry : BitVec 64) : BitVec 32 × BitVec 64 :=
  let term := factor.setWidth 64 * limbs.1.setWidth 64 +
    limbs.2.setWidth 64 + carry
  (term.setWidth 32, term >>> 32)

def addCarry (carry : BitVec 64) : List (BitVec 32) → List (BitVec 32)
  | [] => []
  | low :: high => (low + carry.setWidth 32) :: high

/-- One row of the product: add `factor * other` to the product's words from
the row's own position up. -/
def mulRow (other : UInt512) (factor : BitVec 32) (product : List (BitVec 32)) : List (BitVec 32) :=
  if factor = 0 then product
  else
    let row := carryLoop (mulStep factor)
      (other.limbs.zip (product.take 16)) 0#64
    row.1 ++ addCarry row.2 (product.drop 16)

def mulRows (other : UInt512) : List (BitVec 32) → List (BitVec 32) → List (BitVec 32)
  | [], product => product
  | factor :: factors, product =>
    match mulRow other factor product with
    | [] => []
    | low :: high => low :: mulRows other factors high

def mulWide (self other : UInt512) : List (BitVec 32) :=
  mulRows other self.limbs (List.replicate 32 0#32)

theorem mulStep_conserves (factor : BitVec 32) (limbs : BitVec 32 × BitVec 32)
    (carry : BitVec 64) (small : carry.toNat < 2 ^ 32) :
    ((mulStep factor limbs carry).1.toNat : Int) +
          2 ^ 32 * ((mulStep factor limbs carry).2.toNat : Int) =
        (factor.toNat * (limbs.1.toNat : Int) + limbs.2.toNat) + carry.toNat ∧
      (mulStep factor limbs carry).2.toNat < 2 ^ 32 := by
  have factorBound := factor.isLt
  have leftBound := limbs.1.isLt
  have rightBound := limbs.2.isLt
  have productBound : factor.toNat * limbs.1.toNat ≤
      (2 ^ 32 - 1) * (2 ^ 32 - 1) := Nat.mul_le_mul (by omega) (by omega)
  rw [← Int.natCast_mul]
  simp only [mulStep, BitVec.toNat_setWidth, BitVec.toNat_add, BitVec.toNat_mul,
    BitVec.toNat_ushiftRight, Nat.shiftRight_eq_div_pow,
    Nat.mod_eq_of_lt (factorBound.trans (show 2 ^ 32 < 2 ^ 64 by decide)),
    Nat.mod_eq_of_lt (leftBound.trans (show 2 ^ 32 < 2 ^ 64 by decide))]
  omega

theorem mulRow_length (other : UInt512) (factor : BitVec 32)
    {product : List (BitVec 32)} (long : 16 < product.length) :
    (mulRow other factor product).length = product.length := by
  rw [mulRow]
  split
  · rfl
  · cases high : product.drop 16 with
    | nil =>
      have short := List.drop_eq_nil_iff.mp high
      omega
    | cons top rest =>
      have lengths := congrArg List.length high
      simp [addCarry, other.size] at lengths ⊢
      omega

theorem value_mulRow (other : UInt512) (factor : BitVec 32)
    {product : List (BitVec 32)} (long : 16 < product.length)
    (bound : value product < cardinality) :
    value (mulRow other factor product) = value product + factor.toNat * other.toNat := by
  rw [mulRow]
  split
  · next zero => simp [zero]
  · have windowLength : (product.take 16).length = 16 := by simp; omega
    have lengths := other.size.trans windowLength.symm
    have total := carryLoop_value (mulStep factor)
      (fun limbs => factor.toNat * (limbs.1.toNat : Int) + limbs.2.toNat)
      (fun carry => carry.toNat) (fun carry => carry.toNat < 2 ^ 32)
      (mulStep_conserves factor) (other.limbs.zip (product.take 16)) 0#64
      (by simp)
    rw [weigh_add, weigh_mul 32 _ fun limbs : BitVec 32 × BitVec 32 => (limbs.1.toNat : Int),
      weigh_zip_fst 32 (fun limb => (limb.toNat : Int)) lengths,
      weigh_zip_snd 32 (fun limb => (limb.toNat : Int)) lengths, weigh_toNat,
      weigh_toNat, two_pow_eq_cardinality (by simp [other.size]; omega),
      BitVec.toNat_zero, Nat.cast_zero, add_zero] at total
    rcases total with ⟨rowEqual, carryBound⟩
    have split := value_take_add_drop product long.le
    rw [two_pow_eq_cardinality rfl] at split
    have highZero : value (product.drop 16) = 0 := by
      rw [value_drop product long.le, two_pow_eq_cardinality rfl, Nat.div_eq_of_lt bound]
    cases high : product.drop 16 with
    | nil =>
      have short := List.drop_eq_nil_iff.mp high
      omega
    | cons top rest =>
      rw [high, value_cons] at highZero
      have topZero : top = 0 := BitVec.eq_of_toNat_eq (by simp; omega)
      have restZero : value rest = 0 := by omega
      have carryWord : (top + (carryLoop (mulStep factor)
          (other.limbs.zip (product.take 16)) 0#64).2.setWidth 32).toNat =
            (carryLoop (mulStep factor)
              (other.limbs.zip (product.take 16)) 0#64).2.toNat := by
        rw [topZero, BitVec.toNat_add, BitVec.toNat_setWidth, Nat.mod_eq_of_lt carryBound]
        exact (congrArg (· % 2 ^ 32) (Nat.zero_add _)).trans
          (Nat.mod_eq_of_lt carryBound)
      have rowTotal :
          value (carryLoop (mulStep factor) (other.limbs.zip (product.take 16)) 0#64).1 +
            cardinality * (carryLoop (mulStep factor)
              (other.limbs.zip (product.take 16)) 0#64).2.toNat =
          factor.toNat * other.toNat + value (product.take 16) := by
        exact_mod_cast rowEqual
      rw [high, value_cons, highZero] at split
      simp only [addCarry, value_append, value_cons, restZero, carryWord,
        carryLoop_length, Nat.mul_zero, Nat.add_zero]
      rw [two_pow_eq_cardinality (by simp [other.size]; omega)]
      omega

theorem mulRows_length (other : UInt512) : ∀ (factors product : List (BitVec 32)),
      factors.length + 16 ≤ product.length → (mulRows other factors product).length = product.length
  | [], _, _ => rfl
  | factor :: factors, product, long => by
    rw [List.length_cons] at long
    have rowLength := mulRow_length other factor
      (show 16 < product.length by omega)
    rw [mulRows]
    cases row : mulRow other factor product with
    | nil => simpa [row] using rowLength
    | cons low high =>
      rw [row, List.length_cons] at rowLength
      have tail := mulRows_length other factors high (by omega)
      simp only [List.length_cons, tail, rowLength]

/-- The window invariant: once a row is done its lowest word is final and the
words above it again fit in 512 bits. -/
theorem value_mulRows (other : UInt512) : ∀ (factors product : List (BitVec 32)),
      factors.length + 16 ≤ product.length → value product < cardinality →
        value (mulRows other factors product) = value product + value factors * other.toNat
  | [], _, _, _ => by simp [mulRows]
  | factor :: factors, product, long, bound => by
    rw [List.length_cons] at long
    have rowLength := mulRow_length other factor
      (show 16 < product.length by omega)
    have rowValue := value_mulRow other factor (by omega) bound
    have factorBound := factor.isLt
    have otherBound := other.toNat_lt
    rw [mulRows]
    cases row : mulRow other factor product with
    | nil =>
      rw [row, List.length_nil] at rowLength
      omega
    | cons low high =>
      rw [row, List.length_cons] at rowLength
      rw [row, value_cons] at rowValue
      have highBound : value high < cardinality := by
        have grown : factor.toNat * other.toNat ≤
            (2 ^ 32 - 1) * cardinality :=
          Nat.mul_le_mul (by omega) otherBound.le
        omega
      have tail := value_mulRows other factors high (by omega) highBound
      rw [value_cons, value_cons, tail]
      linear_combination rowValue

theorem mulWide_length (self other : UInt512) : (self.mulWide other).length = 32 := by
  rw [mulWide, mulRows_length _ _ _ (by simp [self.size]), List.length_replicate]

theorem value_mulWide (self other : UInt512) :
    value (self.mulWide other) = self.toNat * other.toNat := by
  rw [mulWide, value_mulRows _ _ _ (by simp [self.size])
    (by rw [value_replicate_zero]; exact cardinality_pos), value_replicate_zero,
    Nat.zero_add]
  rfl

/-! ## Reduction -/

def effectiveBits (product : List (BitVec 32)) : Nat → Nat
  | 0 => 0
  | index + 1 =>
    if bitAt product index = 0#32 then effectiveBits product index
    else index + 1

def reduceLoop (modulus : UInt512) (product : List (BitVec 32)) : Nat → UInt512 → UInt512
  | 0, remainder => remainder
  | index + 1, remainder =>
    reduceLoop modulus product index
      (reduceStep modulus remainder (bitAt product index)).1

def mulMod (self other modulus : UInt512) : UInt512 :=
  if modulus.isZero then self
  else
    let product := self.mulWide other
    reduceLoop modulus product (effectiveBits product 1024) (ofUInt32 0)

theorem lt_two_pow_effectiveBits (product : List (BitVec 32)) :
    ∀ bits : Nat, value product < 2 ^ bits → value product < 2 ^ effectiveBits product bits
  | 0, bound => bound
  | index + 1, bound => by
    rw [effectiveBits]
    split
    · next clear =>
        apply lt_two_pow_effectiveBits product index
        have low := mod_two_pow_succ product index
        rw [Nat.mod_eq_of_lt bound, clear, BitVec.toNat_zero, Nat.mul_zero, Nat.zero_add] at low
        rw [low]
        exact Nat.mod_lt _ (Nat.two_pow_pos _)
    · exact bound

private theorem toNat_reduceLoop (modulus : UInt512) (product : List (BitVec 32))
    (nonzero : modulus.toNat ≠ 0) :
    ∀ (bits : Nat) (remainder : UInt512),
      remainder.toNat = value product / 2 ^ bits % modulus.toNat →
        (reduceLoop modulus product bits remainder).toNat = value product % modulus.toNat
  | 0, remainder, invariant => by
    rw [reduceLoop, invariant, Nat.pow_zero, Nat.div_one]
  | index + 1, remainder, invariant => by
    have bound : remainder.toNat < modulus.toNat := by
      rw [invariant]
      exact Nat.mod_lt _ (Nat.pos_of_ne_zero nonzero)
    have step := (reduceStep_spec bound (toNat_bitAt_le product index)).1
    rw [reduceLoop]
    apply toNat_reduceLoop modulus product nonzero index
    have quotient : value product / 2 ^ index = 2 * (value product / 2 ^ (index + 1)) +
          (bitAt product index).toNat := by
      rw [toNat_bitAt, Nat.pow_succ, ← Nat.div_div_eq_div_mul]
      omega
    rw [step, invariant, quotient, Nat.add_mod, Nat.mul_mod, Nat.mod_mod,
      ← Nat.mul_mod, ← Nat.add_mod]

theorem toNat_mulMod (self other : UInt512) {modulus : UInt512} (nonzero : modulus.toNat ≠ 0) :
    (self.mulMod other modulus).toNat = self.toNat * other.toNat % modulus.toNat := by
  have bound : value (self.mulWide other) < 2 ^ 1024 := by
    have limbs := value_lt (self.mulWide other)
    rwa [mulWide_length] at limbs
  have effective := lt_two_pow_effectiveBits _ 1024 bound
  rw [mulMod, if_neg (by simpa using nonzero)]
  rw [toNat_reduceLoop modulus _ nonzero, value_mulWide]
  rw [Nat.div_eq_of_lt effective, Nat.zero_mod, toNat_ofUInt32]
  rfl

/-- Division and the modular product are exact; nothing is asked of the
operands beyond a divisor that is not zero. -/
theorem divModCore_mulMod_exact (self other remainderOut : UInt512)
    {divisor : UInt512} (nonzero : divisor.toNat ≠ 0) :
    (self.divModCore divisor remainderOut).1.toNat * divisor.toNat +
          (self.divModCore divisor remainderOut).2.toNat = self.toNat ∧
      (self.divModCore divisor remainderOut).2.toNat < divisor.toNat ∧
      (self.mulMod other divisor).toNat = self.toNat * other.toNat % divisor.toNat := by
  have division := self.divModCore_spec remainderOut nonzero
  rw [division.1, division.2]
  exact ⟨Nat.div_add_mod' _ _, Nat.mod_lt _ (Nat.pos_of_ne_zero nonzero),
    toNat_mulMod self other nonzero⟩

def topBit : UInt512 := ⟨List.replicate 15 0#32 ++ [0x80000000#32], rfl⟩

theorem divModCore_mulMod_exact_topBit : topBit.toNat ≠ 0 ∧
      ((ofUInt32 7).divModCore topBit (ofUInt32 0)).1.toNat * topBit.toNat +
          ((ofUInt32 7).divModCore topBit (ofUInt32 0)).2.toNat = (ofUInt32 7).toNat ∧
      ((ofUInt32 7).divModCore topBit (ofUInt32 0)).2.toNat < topBit.toNat ∧
      ((ofUInt32 7).mulMod topBit topBit).toNat =
        (ofUInt32 7).toNat * topBit.toNat % topBit.toNat := by
  have nonzero : topBit.toNat ≠ 0 := by
    rw [ne_eq, ← isZero_iff]
    decide
  exact ⟨nonzero, divModCore_mulMod_exact (ofUInt32 7) topBit (ofUInt32 0) nonzero⟩

end CudaMpqs.UInt512
