import CudaMpqs.Common.UInt512Modular
import CudaMpqs.Common.UInt512Small

/-! # Truncated products of `uint512`

The product of two numbers, and of a number and a `uint32_t`, modulo
`2 ^ 512`. -/

namespace CudaMpqs.UInt512

open Limbs

/-! ## Product with a word -/

def multStep (v limb : BitVec 32) (carry : BitVec 64) : BitVec 32 × BitVec 64 :=
  let prod := limb.setWidth 64 * v.setWidth 64 + carry
  (prod.setWidth 32, prod >>> 32)

def multUInt32 (self : UInt512) (v : BitVec 32) : UInt512 :=
  if v = 0 then ofUInt32 0
  else if v = 1 then self
  else ⟨(carryLoop (multStep v) self.limbs 0#64).1, by simp [self.size]⟩

def divUInt32Const (self : UInt512) (divisor : BitVec 32) : UInt512 :=
  if divisor = 0 then ofUInt32 0
  else ⟨(descendLoop (divStep divisor) self.limbs 0#64).1, self.length_divLoop divisor⟩

private theorem multStep_conserves (v limb : BitVec 32) (carry : BitVec 64)
    (small : carry.toNat < 2 ^ 32) :
    ((multStep v limb carry).1.toNat : Int) + 2 ^ 32 * ((multStep v limb carry).2.toNat : Int) =
        v.toNat * (limb.toNat : Int) + carry.toNat ∧
      (multStep v limb carry).2.toNat < 2 ^ 32 := by
  have same : multStep v limb carry = mulStep v (limb, 0) carry := by
    simp only [multStep, mulStep, BitVec.mul_comm (limb.setWidth 64)]
    simp
  have conserved := mulStep_conserves v (limb, 0) carry small
  rw [same]
  simpa using conserved

theorem toNat_multUInt32 (self : UInt512) (v : BitVec 32) :
    (self.multUInt32 v).toNat = self.toNat * v.toNat % cardinality := by
  rw [multUInt32]
  split
  · next zero => simp [zero]
  · split
    · next one =>
        rw [one]
        exact (Nat.mod_eq_of_lt (by simpa using self.toNat_lt)).symm.trans
          (by simp)
    · have total := (carryLoop_value (multStep v)
        (fun limb => v.toNat * (limb.toNat : Int)) (fun carry => carry.toNat)
        (fun carry => carry.toNat < 2 ^ 32) (multStep_conserves v) self.limbs 0#64
        (by simp)).1
      rw [weigh_mul, weigh_toNat, two_pow_eq_cardinality (congrArg (32 * ·) self.size),
        BitVec.toNat_zero, Nat.cast_zero, add_zero] at total
      have conserved : value (carryLoop (multStep v) self.limbs 0#64).1 +
          cardinality * (carryLoop (multStep v) self.limbs 0#64).2.toNat =
            v.toNat * value self.limbs := by
        exact_mod_cast total
      have bound := value_lt (carryLoop (multStep v) self.limbs 0#64).1
      rw [carryLoop_length, two_pow_eq_cardinality (congrArg (32 * ·) self.size)] at bound
      rw [Nat.mul_comm, toNat, toNat, ← conserved, Nat.add_mul_mod_self_left,
        Nat.mod_eq_of_lt bound]

theorem toNat_divUInt32Const (self : UInt512) {divisor : BitVec 32} (nonzero : divisor ≠ 0) :
    (self.divUInt32Const divisor).toNat = self.toNat / divisor.toNat := by
  rw [divUInt32Const, if_neg nonzero]
  exact (self.divLoop_spec nonzero).1

/-! ## Product of two numbers -/

/-- One row of `mult`: add `factor * other` to the words from the row's position
up, dropping the carry out of the top. -/
def multRow (other : UInt512) (factor : BitVec 32) (res : List (BitVec 32)) : List (BitVec 32) :=
  if factor = 0 then res
  else (carryLoop (mulStep factor) (other.limbs.zip res) 0#64).1

def multRows (other : UInt512) : List (BitVec 32) → List (BitVec 32) → List (BitVec 32)
  | [], res => res
  | factor :: factors, res =>
    match multRow other factor res with
    | [] => []
    | low :: high => low :: multRows other factors high

theorem multRow_length (other : UInt512) (factor : BitVec 32) {res : List (BitVec 32)}
    (short : res.length ≤ 16) : (multRow other factor res).length = res.length := by
  rw [multRow]
  split
  · rfl
  · simp [other.size, short]

private theorem multRows_length (other : UInt512) (factors res : List (BitVec 32))
    (short : res.length ≤ 16) : (multRows other factors res).length = res.length := by
  induction factors generalizing res with
  | nil => rfl
  | cons factor factors induction =>
    have rowLength := multRow_length other factor short
    rw [multRows]
    cases row : multRow other factor res with
    | nil => simpa [row] using rowLength
    | cons low high =>
      rw [row, List.length_cons] at rowLength
      rw [List.length_cons, induction high (by omega), rowLength]

def mult (self other : UInt512) : UInt512 :=
  ⟨multRows other self.limbs (List.replicate 16 0#32), by
    rw [multRows_length _ _ _ (by simp), List.length_replicate]⟩

theorem multRow_modEq (other : UInt512) (factor : BitVec 32) {res : List (BitVec 32)}
    (short : res.length ≤ 16) :
    value (multRow other factor res) ≡ value res + factor.toNat * other.toNat
      [MOD 2 ^ (32 * res.length)] := by
  rw [multRow]
  split
  · next zero => simp [zero, Nat.ModEq.refl]
  · have inside : res.length ≤ other.limbs.length := by
      rw [other.size]
      exact short
    have lengths : (other.limbs.take res.length).length = res.length :=
      List.length_take_of_le inside
    have window : other.limbs.zip res = (other.limbs.take res.length).zip res := by
      rw [List.zip_eq_zip_take_min, Nat.min_eq_right inside, List.take_length]
    have total := (carryLoop_value (mulStep factor)
      (fun limbs => factor.toNat * (limbs.1.toNat : Int) + limbs.2.toNat)
      (fun carry => carry.toNat) (fun carry => carry.toNat < 2 ^ 32)
      (mulStep_conserves factor) (other.limbs.zip res) 0#64 (by simp)).1
    have zipped : (other.limbs.zip res).length = res.length := by
      rw [List.length_zip, Nat.min_eq_right inside]
    rw [zipped, window,
      weigh_add, weigh_mul 32 _ fun limbs : BitVec 32 × BitVec 32 => (limbs.1.toNat : Int),
      weigh_zip_fst 32 (fun limb => (limb.toNat : Int)) lengths,
      weigh_zip_snd 32 (fun limb => (limb.toNat : Int)) lengths, weigh_toNat,
      weigh_toNat, BitVec.toNat_zero, Nat.cast_zero, add_zero, ← window] at total
    have conserved : value (carryLoop (mulStep factor) (other.limbs.zip res) 0#64).1 +
        2 ^ (32 * res.length) * (carryLoop (mulStep factor) (other.limbs.zip res) 0#64).2.toNat =
        factor.toNat * value (other.limbs.take res.length) + value res := by
      exact_mod_cast total
    have low : value (other.limbs.take res.length) ≡ other.toNat
        [MOD 2 ^ (32 * res.length)] := by
      rw [value_take other.limbs inside]
      exact Nat.mod_modEq _ _
    calc value (carryLoop (mulStep factor) (other.limbs.zip res) 0#64).1
        ≡ factor.toNat * value (other.limbs.take res.length) + value res
          [MOD 2 ^ (32 * res.length)] := by
          rw [← conserved]
          exact (Nat.add_mul_mod_self_left _ _ _).symm
      _ ≡ factor.toNat * other.toNat + value res [MOD 2 ^ (32 * res.length)] :=
          (low.mul_left _).add_right _
      _ = value res + factor.toNat * other.toNat := Nat.add_comm _ _

theorem multRows_modEq (other : UInt512) (factors res : List (BitVec 32))
    (short : res.length ≤ 16) :
    value (multRows other factors res) ≡ value res + value factors * other.toNat
      [MOD 2 ^ (32 * res.length)] := by
  induction factors generalizing res with
  | nil => simp [multRows, Nat.ModEq.refl]
  | cons factor factors induction =>
    have rowLength := multRow_length other factor short
    have rowValue := multRow_modEq other factor short
    rw [multRows]
    cases row : multRow other factor res with
    | nil =>
      rw [row, List.length_nil] at rowLength
      rw [← rowLength]
      exact Nat.modEq_one
    | cons low high =>
      rw [row, List.length_cons] at rowLength
      rw [row, value_cons] at rowValue
      have tail := (induction high (by omega)).mul_left' (2 ^ 32)
      have modulus : 2 ^ 32 * 2 ^ (32 * high.length) = 2 ^ (32 * res.length) := by
        rw [← rowLength, ← Nat.pow_add]
        congr 1
        omega
      rw [modulus] at tail
      calc low.toNat + 2 ^ 32 * value (multRows other factors high)
          ≡ low.toNat + 2 ^ 32 * (value high + value factors * other.toNat)
            [MOD 2 ^ (32 * res.length)] := tail.add_left _
        _ = low.toNat + 2 ^ 32 * value high +
            2 ^ 32 * value factors * other.toNat := by ring
        _ ≡ value res + factor.toNat * other.toNat +
            2 ^ 32 * value factors * other.toNat [MOD 2 ^ (32 * res.length)] :=
            rowValue.add_right _
        _ = value res + (factor.toNat + 2 ^ 32 * value factors) * other.toNat := by
            ring

theorem toNat_mult (self other : UInt512) :
    (self.mult other).toNat = self.toNat * other.toNat % cardinality := by
  have product := multRows_modEq other self.limbs (List.replicate 16 0#32) (by simp)
  rw [value_replicate_zero, Nat.zero_add, List.length_replicate,
    two_pow_eq_cardinality rfl] at product
  exact (Nat.mod_eq_of_lt (self.mult other).toNat_lt).symm.trans product

end CudaMpqs.UInt512
