import CudaMpqs.Common.Relation
import CudaMpqs.Common.UInt512Small

/-! # Trial division of a sieve candidate

`processCandidate` strips the hinted factor-base primes from `Q`, with an 8-bit
counter for each, and classifies what is left. -/

namespace CudaMpqs

open SortedMerge

namespace DenseCandidate

/-- `while (Q.mod_uint32(p) == 0) { Q.div_uint32_inplace(p); cnt++; }`. The conditions on
`p` and on `Q ≠ 0` are not in the source, whose loop does not end there; no non-square `N`
produces `Q = 0`. -/
def strip (p : BitVec 32) (Q : UInt512) (cnt : BitVec 8) : UInt512 × BitVec 8 :=
  if 1 < p.toNat ∧ Q.toNat ≠ 0 ∧ Q.modUInt32 p = 0 then
    strip p (Q.divUInt32Inplace p).1 (cnt + 1)
  else (Q, cnt)
termination_by Q.toNat
decreasing_by
  rename_i divides
  have nonzero : p ≠ 0 := by
    intro zero
    simp [zero] at divides
  rw [UInt512.toNat_divUInt32Inplace Q nonzero]
  exact Nat.div_lt_self (Nat.pos_of_ne_zero divides.2.1) divides.1

def trialStep (factorBase : Nat → BitVec 32) (state : UInt512 × List Factor)
    (fbIdx : Nat) : UInt512 × List Factor :=
  let p := factorBase fbIdx
  if 1 < p.toNat then
    let stripped := strip p state.1 0
    (stripped.1, if stripped.2 ≠ 0 ∧ state.2.length < 64 then
        state.2 ++ [(fbIdx, stripped.2)]
      else state.2)
  else state

inductive Classification where
  | full
  | partialRelation
  | discarded
deriving DecidableEq

def remainder (Q : UInt512) : BitVec 128 :=
  if Q ≠ UInt512.ofUInt32 1 ∧ (Q.limbs.drop 4).all (· == 0) then
    BitVec.ofNat 128 Q.toNat
  else 0

def classify (lp1Bound : Nat) (Q : UInt512) : Classification :=
  if Q = UInt512.ofUInt32 1 then .full
  else if (Q.limbs.drop 4).all (· == 0) ∧ (remainder Q).toNat < lp1Bound then
    .partialRelation
  else .discarded

/-! ## The emitted factor list -/

theorem modUInt32_eq_zero_iff {p : BitVec 32} (proper : 1 < p.toNat)
    (Q : UInt512) : Q.modUInt32 p = 0 ↔ p.toNat ∣ Q.toNat := by
  have nonzero : p ≠ 0 := by
    rintro rfl
    simp at proper
  have zeroIff : Q.modUInt32 p = 0 ↔ (Q.modUInt32 p).toNat = 0 :=
    BitVec.toNat_inj.symm
  rw [zeroIff, UInt512.toNat_modUInt32 Q nonzero, Nat.dvd_iff_mod_eq_zero]

theorem strip_dvd (p : BitVec 32) (Q : UInt512) (cnt : BitVec 8) :
    (strip p Q cnt).1.toNat ∣ Q.toNat := by
  fun_induction strip p Q cnt with
  | case1 Q cnt divides induction =>
    have nonzero : p ≠ 0 := by
      intro zero
      simp [zero] at divides
    apply induction.trans
    rw [UInt512.toNat_divUInt32Inplace Q nonzero]
    exact Nat.div_dvd_of_dvd
      ((modUInt32_eq_zero_iff divides.1 Q).mp divides.2.2)
  | case2 Q cnt stops => exact Nat.dvd_refl _

end DenseCandidate

end CudaMpqs
