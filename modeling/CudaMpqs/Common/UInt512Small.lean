import CudaMpqs.Common.UInt512Division

/-! # Small operands of `uint512`

Division and remainder by a `uint32_t`, multiplication by one, and the count of
trailing zeros. -/

namespace CudaMpqs.UInt512

open Limbs

def divStep (divisor limb : BitVec 32) (rem : BitVec 64) : BitVec 32 × BitVec 64 :=
  let cur := (rem <<< 32) ||| limb.setWidth 64
  ((cur / divisor.setWidth 64).setWidth 32, cur % divisor.setWidth 64)

theorem length_divLoop (self : UInt512) (divisor : BitVec 32) :
    (descendLoop (divStep divisor) self.limbs 0#64).1.length = 16 := by
  simp [self.size]

def divUInt32Inplace (self : UInt512) (divisor : BitVec 32) : UInt512 × BitVec 32 :=
  if divisor = 0 then (self, 0)
  else
    let result := descendLoop (divStep divisor) self.limbs 0#64
    (⟨result.1, self.length_divLoop divisor⟩, result.2.setWidth 32)

def modUInt32 (self : UInt512) (divisor : BitVec 32) : BitVec 32 :=
  if divisor = 0 then 0
  else
    (self.limbs.foldr (fun limb rem => (divStep divisor limb rem).2) 0#64).setWidth 32

variable {divisor : BitVec 32}

private theorem divStep_divides (limb : BitVec 32) (rem : BitVec 64)
    (bound : rem.toNat < divisor.toNat) :
    (divStep divisor limb rem).1.toNat * divisor.toNat + (divStep divisor limb rem).2.toNat =
        rem.toNat * 2 ^ 32 + limb.toNat ∧
      (divStep divisor limb rem).2.toNat < divisor.toNat := by
  have limbBound := limb.isLt
  have divisorBound := divisor.isLt
  have cur : ((rem <<< 32) ||| limb.setWidth 64).toNat =
      rem.toNat * 2 ^ 32 + limb.toNat := by
    have shifted : rem.toNat * 2 ^ 32 % 2 ^ 64 = 2 ^ 32 * rem.toNat := by omega
    have widened : limb.toNat % 2 ^ 64 = limb.toNat := by omega
    rw [BitVec.toNat_or, BitVec.toNat_shiftLeft, Nat.shiftLeft_eq, shifted,
      BitVec.toNat_setWidth, widened, ← Nat.two_pow_add_eq_or_of_lt limbBound,
      Nat.mul_comm]
  have wide : (divisor.setWidth 64).toNat = divisor.toNat := by
    rw [BitVec.toNat_setWidth]
    omega
  have quotientBound : (rem.toNat * 2 ^ 32 + limb.toNat) / divisor.toNat < 2 ^ 32 := by
    apply Nat.div_lt_of_lt_mul
    calc rem.toNat * 2 ^ 32 + limb.toNat
        < (rem.toNat + 1) * 2 ^ 32 := by omega
      _ ≤ divisor.toNat * 2 ^ 32 := Nat.mul_le_mul_right _ bound
  simp only [divStep, BitVec.toNat_setWidth, BitVec.toNat_udiv,
    BitVec.toNat_umod, cur, Nat.mod_eq_of_lt (divisorBound.trans
      (show 2 ^ 32 < 2 ^ 64 by decide)), Nat.mod_eq_of_lt quotientBound]
  exact ⟨Nat.div_add_mod' _ _, Nat.mod_lt _ (by omega)⟩

theorem divLoop_spec (self : UInt512) (nonzero : divisor ≠ 0) :
    value (descendLoop (divStep divisor) self.limbs 0#64).1 = self.toNat / divisor.toNat ∧
      (descendLoop (divStep divisor) self.limbs 0#64).2.toNat = self.toNat % divisor.toNat := by
  have positive : 0 < divisor.toNat :=
    Nat.pos_of_ne_zero fun zero => nonzero (BitVec.eq_of_toNat_eq zero)
  rcases descendLoop_divide (fun limb rem => divStep_divides limb rem)
    self.limbs 0#64 (by simpa using positive) with ⟨total, bound⟩
  rw [BitVec.toNat_zero, Nat.zero_mul, Nat.zero_add, Nat.add_comm, Nat.mul_comm] at total
  have unique := (Nat.div_mod_unique positive).mpr ⟨total, bound⟩
  exact ⟨unique.1.symm, unique.2.symm⟩

theorem toNat_divUInt32Inplace (self : UInt512) (nonzero : divisor ≠ 0) :
    (self.divUInt32Inplace divisor).1.toNat = self.toNat / divisor.toNat := by
  rw [divUInt32Inplace, if_neg nonzero]
  exact (self.divLoop_spec nonzero).1

theorem toNat_modUInt32 (self : UInt512) (nonzero : divisor ≠ 0) :
    (self.modUInt32 divisor).toNat = self.toNat % divisor.toNat := by
  have remainder := (self.divLoop_spec nonzero).2
  have bound : self.toNat % divisor.toNat < 2 ^ 32 :=
    (Nat.mod_lt _ (Nat.pos_of_ne_zero fun zero =>
      nonzero (BitVec.eq_of_toNat_eq zero))).trans divisor.isLt
  rw [descendLoop_snd] at remainder
  rw [modUInt32, if_neg nonzero, BitVec.toNat_setWidth, remainder, Nat.mod_eq_of_lt bound]

/-! ## Trailing zeros -/

/-- The scan of `countr_zero`, from the lowest limb up; an all-zero number
gives its width. -/
def countrZeroFrom : List (BitVec 32) → Nat
  | [] => 0
  | low :: high =>
    if low ≠ 0 then low.ctz.toNat else 32 + countrZeroFrom high

def countrZero (self : UInt512) : Nat := countrZeroFrom self.limbs

private theorem countrZeroFrom_le :
    ∀ limbs : List (BitVec 32), countrZeroFrom limbs ≤ 32 * limbs.length
  | [] => Nat.le_refl _
  | low :: high => by
    have rest := countrZeroFrom_le high
    have ctzBound : low.ctz.toNat ≤ 32 := by
      have le := BitVec.clz_le (x := low.reverse)
      rw [BitVec.ctz]
      simpa [BitVec.le_def] using le
    rw [countrZeroFrom, List.length_cons]
    split <;> omega

theorem countrZero_le (self : UInt512) : self.countrZero ≤ 512 := by
  have bound := countrZeroFrom_le self.limbs
  rwa [self.size] at bound

end CudaMpqs.UInt512
