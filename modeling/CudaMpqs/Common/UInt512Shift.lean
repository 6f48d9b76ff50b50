import CudaMpqs.Common.UInt512

/-! # Shifts of `uint512`

A shift moves whole limbs first and the remaining bits second. -/

namespace CudaMpqs.UInt512

open Limbs

/-! ## Left shift -/

def lshiftStep (bitShift : Nat) (limb below : BitVec 32) : BitVec 32 × BitVec 32 :=
  ((limb <<< bitShift) ||| (below >>> (32 - bitShift)), limb)

def lshiftLimbs (self : UInt512) (limbShift : Nat) : UInt512 :=
  ⟨(List.replicate limbShift 0#32 ++ self.limbs).take 16, by simp [self.size]⟩

def lshiftBits (self : UInt512) (bitShift : Nat) : UInt512 :=
  ⟨(carryLoop (lshiftStep bitShift) self.limbs 0#32).1, by simp [self.size]⟩

def lshift (self : UInt512) (bits : Nat) : UInt512 :=
  if bits = 0 then self
  else if 512 ≤ bits then ofUInt32 0
  else
    let moved := self.lshiftLimbs (bits / 32)
    if bits % 32 = 0 then moved else moved.lshiftBits (bits % 32)

theorem lshiftStep_conserves {bitShift : Nat} (small : bitShift < 32)
    (limb below : BitVec 32) (_ : True) :
    ((lshiftStep bitShift limb below).1.toNat : Int) +
          2 ^ 32 * (((lshiftStep bitShift limb below).2.toNat / 2 ^ (32 - bitShift) : Nat) : Int) =
        2 ^ bitShift * (limb.toNat : Int) +
          ((below.toNat / 2 ^ (32 - bitShift) : Nat) : Int) ∧ True := by
  refine ⟨?_, trivial⟩
  have split : 2 ^ 32 = 2 ^ bitShift * 2 ^ (32 - bitShift) := by
    rw [← Nat.pow_add, Nat.add_sub_cancel' small.le]
  have belowBound : below.toNat / 2 ^ (32 - bitShift) < 2 ^ bitShift := by
    apply Nat.div_lt_of_lt_mul
    rw [Nat.mul_comm, ← split]
    exact below.isLt
  have shifted : limb.toNat * 2 ^ bitShift % 2 ^ 32 =
      2 ^ bitShift * (limb.toNat % 2 ^ (32 - bitShift)) := by
    rw [split, Nat.mul_comm limb.toNat, Nat.mul_mod_mul_left]
  simp only [lshiftStep, BitVec.toNat_or, BitVec.toNat_shiftLeft,
    BitVec.toNat_ushiftRight, Nat.shiftLeft_eq, Nat.shiftRight_eq_div_pow,
    shifted, ← Nat.two_pow_add_eq_or_of_lt belowBound]
  have division := Nat.mod_add_div limb.toNat (2 ^ (32 - bitShift))
  have splitInt : (2 : Int) ^ 32 = 2 ^ bitShift * 2 ^ (32 - bitShift) := by
    exact_mod_cast split
  rw [splitInt]
  have divisionInt : ((limb.toNat % 2 ^ (32 - bitShift) : Nat) : Int) +
      2 ^ (32 - bitShift) * ((limb.toNat / 2 ^ (32 - bitShift) : Nat) : Int) =
        limb.toNat := by exact_mod_cast division
  rw [Nat.cast_add, Nat.cast_mul, Nat.cast_pow, Nat.cast_ofNat]
  linear_combination (2 : Int) ^ bitShift * divisionInt

theorem toNat_lshiftBits (self : UInt512) {bitShift : Nat} (small : bitShift < 32) :
    (self.lshiftBits bitShift).toNat = self.toNat * 2 ^ bitShift % cardinality := by
  have total := (carryLoop_value (lshiftStep bitShift)
    (fun limb => 2 ^ bitShift * (limb.toNat : Int))
    (fun below => ((below.toNat / 2 ^ (32 - bitShift) : Nat) : Int))
    (fun _ => True) (lshiftStep_conserves small) self.limbs 0#32 trivial).1
  rw [weigh_mul, weigh_toNat, BitVec.toNat_zero, Nat.zero_div, Nat.cast_zero,
    add_zero, two_pow_eq_cardinality (congrArg (32 * ·) self.size)] at total
  rw [← Nat.mod_eq_of_lt (self.lshiftBits bitShift).toNat_lt]
  apply Int.natCast_modEq_iff.mp
  refine Int.modEq_iff_dvd.mpr
    ⟨(((carryLoop (lshiftStep bitShift) self.limbs 0#32).2.toNat /
      2 ^ (32 - bitShift) : Nat) : Int), ?_⟩
  rw [Nat.cast_mul self.toNat, Nat.cast_pow 2 bitShift, Nat.cast_ofNat]
  simp only [toNat, lshiftBits]
  linear_combination -total

private theorem toNat_lshiftLimbs (self : UInt512) (limbShift : Nat) :
    (self.lshiftLimbs limbShift).toNat =
      self.toNat * 2 ^ (32 * limbShift) % cardinality := by
  rw [toNat, lshiftLimbs, value_take _ (by simp [self.size]), value_append,
    value_replicate_zero, List.length_replicate, Nat.zero_add, Nat.mul_comm,
    two_pow_eq_cardinality rfl, toNat]

theorem toNat_lshift (self : UInt512) (bits : Nat) :
    (self.lshift bits).toNat = self.toNat * 2 ^ bits % cardinality := by
  unfold lshift
  split
  · next none =>
      rw [none, Nat.pow_zero, Nat.mul_one, Nat.mod_eq_of_lt self.toNat_lt]
  split
  · next large =>
      have divides : cardinality ∣ self.toNat * 2 ^ bits := by
        rw [← two_pow_eq_cardinality rfl]
        exact Dvd.dvd.mul_left (Nat.pow_dvd_pow 2 (show 32 * 16 ≤ bits from large)) _
      rw [toNat_ofUInt32, Nat.mod_eq_zero_of_dvd divides]
      rfl
  · dsimp only
    split
    · next aligned =>
        rw [toNat_lshiftLimbs, show 32 * (bits / 32) = bits by omega]
    · rw [toNat_lshiftBits _ (by omega), toNat_lshiftLimbs, Nat.mod_mul_mod,
        Nat.mul_assoc, ← Nat.pow_add, Nat.div_add_mod]

/-! ## Right shift -/

def rshiftBits (bitShift : Nat) : List (BitVec 32) → List (BitVec 32)
  | [] => []
  | [limb] => [limb >>> bitShift]
  | limb :: above :: rest =>
    ((limb >>> bitShift) ||| (above <<< (32 - bitShift))) :: rshiftBits bitShift (above :: rest)

@[simp] theorem rshiftBits_length (bitShift : Nat) :
    ∀ limbs, (rshiftBits bitShift limbs).length = limbs.length
  | [] => rfl
  | [_] => rfl
  | _ :: above :: rest => by
    simp [rshiftBits, rshiftBits_length bitShift (above :: rest)]

def rshiftLimbs (self : UInt512) (limbShift : Nat) : UInt512 :=
  ⟨(self.limbs ++ List.replicate limbShift 0#32).drop limbShift, by simp [self.size]⟩

def rshift (self : UInt512) (bits : Nat) : UInt512 :=
  if bits = 0 then self
  else if 512 ≤ bits then ofUInt32 0
  else
    let moved := self.rshiftLimbs (bits / 32)
    if bits % 32 = 0 then moved
    else ⟨rshiftBits (bits % 32) moved.limbs, by simp [moved.size]⟩

private theorem rshift_limb {bitShift : Nat} (small : bitShift < 32) (limb above : BitVec 32) :
    ((limb >>> bitShift) ||| (above <<< (32 - bitShift))).toNat = limb.toNat / 2 ^ bitShift +
        2 ^ (32 - bitShift) * (above.toNat % 2 ^ bitShift) := by
  have split : 2 ^ 32 = 2 ^ (32 - bitShift) * 2 ^ bitShift := by
    rw [← Nat.pow_add, Nat.sub_add_cancel small.le]
  have limbBound : limb.toNat / 2 ^ bitShift < 2 ^ (32 - bitShift) := by
    apply Nat.div_lt_of_lt_mul
    rw [Nat.mul_comm, ← split]
    exact limb.isLt
  have shifted : above.toNat * 2 ^ (32 - bitShift) % 2 ^ 32 =
      2 ^ (32 - bitShift) * (above.toNat % 2 ^ bitShift) := by
    rw [split, Nat.mul_comm above.toNat, Nat.mul_mod_mul_left]
  rw [BitVec.toNat_or, BitVec.toNat_shiftLeft, BitVec.toNat_ushiftRight,
    Nat.shiftLeft_eq, Nat.shiftRight_eq_div_pow, shifted, Nat.or_comm,
    ← Nat.two_pow_add_eq_or_of_lt limbBound, Nat.add_comm]

theorem value_rshiftBits {bitShift : Nat} (small : bitShift < 32) : ∀ limbs : List (BitVec 32),
      value (rshiftBits bitShift limbs) = value limbs / 2 ^ bitShift
  | [] => by simp [rshiftBits]
  | [limb] => by
    simp [rshiftBits, BitVec.toNat_ushiftRight, Nat.shiftRight_eq_div_pow]
  | limb :: above :: rest => by
    have split : 2 ^ 32 = 2 ^ bitShift * 2 ^ (32 - bitShift) := by
      rw [← Nat.pow_add, Nat.add_sub_cancel' small.le]
    have tail := value_rshiftBits small (above :: rest)
    have low : above.toNat % 2 ^ bitShift =
        value (above :: rest) % 2 ^ bitShift := by
      rw [value_cons, split, Nat.mul_assoc, Nat.add_mul_mod_self_left]
    rw [rshiftBits, value_cons, tail, rshift_limb small, low,
      value_cons limb, split, Nat.mul_assoc (2 ^ bitShift),
      Nat.mul_assoc (2 ^ bitShift),
      Nat.add_mul_div_left _ _ (Nat.two_pow_pos _)]
    have division := Nat.mod_add_div (value (above :: rest)) (2 ^ bitShift)
    linear_combination 2 ^ (32 - bitShift) * division

private theorem toNat_rshiftLimbs (self : UInt512) (limbShift : Nat) :
    (self.rshiftLimbs limbShift).toNat =
      self.toNat / 2 ^ (32 * limbShift) := by
  rw [toNat, rshiftLimbs, value_drop _ (by simp), value_append,
    value_replicate_zero, Nat.mul_zero, Nat.add_zero, toNat]

theorem toNat_rshift (self : UInt512) (bits : Nat) :
    (self.rshift bits).toNat = self.toNat / 2 ^ bits := by
  unfold rshift
  split
  · next none => rw [none, Nat.pow_zero, Nat.div_one]
  split
  · next large =>
      have below : self.toNat < 2 ^ bits := by
        refine self.toNat_lt.trans_le ?_
        rw [← two_pow_eq_cardinality rfl]
        exact Nat.pow_le_pow_right (by omega) (show 32 * 16 ≤ bits from large)
      rw [toNat_ofUInt32, Nat.div_eq_of_lt below]
      rfl
  · dsimp only
    split
    · next aligned =>
        rw [toNat_rshiftLimbs, show 32 * (bits / 32) = bits by omega]
    · rw [toNat, value_rshiftBits (by omega), ← toNat, toNat_rshiftLimbs,
        Nat.div_div_eq_div_mul, ← Nat.pow_add, Nat.div_add_mod]

end CudaMpqs.UInt512
