import CudaMpqs.Foundation.SortedMerge
import CudaMpqs.Common.UInt512

/-! # Relations

One row of a relation batch, and the congruence it stands for. -/

namespace CudaMpqs

open SortedMerge

abbrev Factor := Nat × BitVec 8

structure Relation where
  sqrtQ : UInt512
  sign : BitVec 8
  val2Exp : BitVec 32
  largePrime : BitVec 128
  charBits : BitVec 32
  factors : List Factor
deriving DecidableEq

namespace Relation

/-- `sign == 1` is positive, any other encoding negative. -/
def signValue (sign : BitVec 8) : Int := if sign != 1 then -1 else 1

def combineSign (left right : BitVec 8) : BitVec 8 :=
  if (left != 1) ^^ (right != 1) then 0xFF else 1

def factorProduct (factorBase : Nat → Nat) (factors : List Factor) : Nat :=
  (factors.map fun factor => factorBase factor.1 ^ factor.2.toNat).prod

def Congruent (modulus : Nat) (factorBase : Nat → Nat) (cofactor : Nat)
    (relation : Relation) : Prop :=
  (relation.sqrtQ.toNat : Int) ^ 2 ≡
    signValue relation.sign * 2 ^ relation.val2Exp.toNat *
      factorProduct factorBase relation.factors * cofactor [ZMOD modulus]

instance (modulus : Nat) (factorBase : Nat → Nat) (cofactor : Nat)
    (relation : Relation) :
    Decidable (relation.Congruent modulus factorBase cofactor) :=
  inferInstanceAs (Decidable (_ % _ = _ % _))

theorem signValue_combineSign (left right : BitVec 8) :
    signValue (combineSign left right) = signValue left * signValue right := by
  unfold signValue combineSign
  cases left != 1 <;> cases right != 1 <;> rfl

structure CandidateFactors (factors : List Factor) : Prop where
  ascending : Ascending factors
  length_le : factors.length ≤ 48
  positive : ∀ factor ∈ factors, factor.2 ≠ 0

structure FromCandidate (relation : Relation) : Prop where
  candidateFactors : CandidateFactors relation.factors
  val2Exp_le : relation.val2Exp.toNat ≤ 512

end Relation

/-! ## Rows together -/

def factorTotal (rows : List Relation) : Nat :=
  (rows.map fun row => row.factors.length).sum

theorem factorTotal_append (left right : List Relation) :
    factorTotal (left ++ right) = factorTotal left + factorTotal right := by
  simp [factorTotal]

theorem factorTotal_perm {left right : List Relation} (perm : left.Perm right) :
    factorTotal left = factorTotal right :=
  (perm.map _).sum_eq

theorem factorTotal_mono {left right : List Relation} (isPrefix : left <+: right) :
    factorTotal left ≤ factorTotal right := by
  rcases isPrefix with ⟨rest, rfl⟩
  rw [factorTotal_append]
  exact Nat.le_add_right _ _

end CudaMpqs
