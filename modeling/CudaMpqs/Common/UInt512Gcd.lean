import CudaMpqs.Common.UInt512Product

/-! # Greatest common divisors of `uint512`

`gcd` of `math_utils.cuh`, with the modular sum that the square root step forms before it. -/

namespace CudaMpqs.UInt512

def isOne (self : UInt512) : Bool :=
  self.limbs.getD 0 0 == 1 && (self.limbs.drop 1).all (· == 0)

def addMod (self other N : UInt512) : UInt512 :=
  let sum := self.add other
  if sum.less self || !sum.less N then sum.sub N else sum

def gcdLoop : Nat → UInt512 → UInt512 → UInt512
  | 0, a, _ => a
  | turns + 1, a, b => if b.isZero then a else gcdLoop turns b (a.mod b)

def gcd (a b : UInt512) : UInt512 := gcdLoop (b.toNat + 1) a b

@[simp] theorem isOne_iff (self : UInt512) : self.isOne = true ↔ self.toNat = 1 := by
  have size := self.size
  rw [isOne, Bool.and_eq_true, toNat]
  cases limbs : self.limbs with
  | nil => simp [limbs] at size
  | cons low high =>
    have bound := low.isLt
    have word : low = 1 ↔ low.toNat = 1 := BitVec.toNat_inj.symm
    rw [Limbs.value_cons, List.getD_cons_zero, List.drop_one, List.tail_cons, beq_iff_eq, word,
      List.all_eq_true]
    simp only [beq_iff_eq]
    rw [← Limbs.value_eq_zero_iff]
    omega

theorem toNat_addMod {self other N : UInt512} (left : self.toNat < N.toNat)
    (right : other.toNat < N.toNat) :
    (self.addMod other N).toNat = (self.toNat + other.toNat) % N.toNat := by
  have sum := toNat_add self other
  have bound := N.toNat_lt
  rw [addMod]
  by_cases wraps : cardinality ≤ self.toNat + other.toNat
  · have wrapped : (self.add other).toNat = self.toNat + other.toNat - cardinality := by
      rw [sum, Nat.mod_eq_sub_mod wraps, Nat.mod_eq_of_lt (by omega)]
    have less : (self.add other).less self = true := (less_iff _ _).mpr (by omega)
    rw [if_pos (by rw [less, Bool.true_or])]
    exact toNat_sub_of_carry sum (by omega) (by omega)
  · have whole : (self.add other).toNat = self.toNat + other.toNat := by
      rw [sum, Nat.mod_eq_of_lt (by omega)]
    have notLess : (self.add other).less self = false :=
      (less_eq_false_iff _ _).mpr (by omega)
    by_cases reaches : N.toNat ≤ self.toNat + other.toNat
    · have notBelow : (self.add other).less N = false :=
        (less_eq_false_iff _ _).mpr (by omega)
      rw [if_pos (by rw [notBelow, Bool.not_false, Bool.or_true])]
      exact toNat_sub_of_carry sum reaches (by omega)
    · have below : (self.add other).less N = true := (less_iff _ _).mpr (by omega)
      rw [if_neg (by rw [notLess, below]; decide), whole, Nat.mod_eq_of_lt (by omega)]

private theorem toNat_gcdLoop {turns : Nat} {a b : UInt512} (enough : b.toNat < turns) :
    (gcdLoop turns a b).toNat = a.toNat.gcd b.toNat := by
  induction turns generalizing a b with
  | zero => exact absurd enough (Nat.not_lt_zero _)
  | succ turns induction =>
    rw [gcdLoop]
    by_cases last : b.toNat = 0
    · rw [if_pos ((isZero_iff b).mpr last), last, Nat.gcd_zero_right]
    · have remainder := toNat_mod a last
      have falls : a.toNat % b.toNat < b.toNat := Nat.mod_lt _ (Nat.pos_of_ne_zero last)
      rw [if_neg (mt (isZero_iff b).mp last), induction (by omega), remainder, Nat.gcd_comm,
        ← Nat.gcd_rec, Nat.gcd_comm]

@[simp] theorem toNat_gcd (a b : UInt512) : (a.gcd b).toNat = a.toNat.gcd b.toNat :=
  toNat_gcdLoop (Nat.lt_succ_self _)

theorem toNat_mul_div (self : UInt512) {divisor : UInt512} (positive : 0 < self.toNat)
    (divides : divisor.toNat ∣ self.toNat) :
    divisor.toNat * (self.div divisor).toNat = self.toNat := by
  rw [toNat_div self (Nat.pos_of_dvd_of_pos divides positive).ne', Nat.mul_div_cancel' divides]

theorem mult_div (self : UInt512) {divisor : UInt512} (positive : 0 < self.toNat)
    (divides : divisor.toNat ∣ self.toNat) : divisor.mult (self.div divisor) = self := by
  apply toNat_injective
  rw [toNat_mult, toNat_mul_div self positive divides, Nat.mod_eq_of_lt self.toNat_lt]

end CudaMpqs.UInt512
