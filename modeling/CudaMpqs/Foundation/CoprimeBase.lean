import Mathlib.Algebra.Group.Submonoid.Basic
import Mathlib.Data.Finset.Max
import Mathlib.Data.List.Pairwise
import Mathlib.Data.Nat.GCD.Basic

/-! # Coprime bases

A list of numbers is refined by splitting two of them at their greatest common divisor. Where
one of the two divides the other there is nothing to split, so that a refinement may end
before its numbers are coprime. -/

namespace CudaMpqs.CoprimeBase

def Crosses (a b : ℕ) : Prop := a.gcd b ≠ 1 ∧ a.gcd b ≠ a ∧ a.gcd b ≠ b

instance (a b : ℕ) : Decidable (Crosses a b) :=
  inferInstanceAs (Decidable (_ ∧ _ ∧ _))

theorem not_crosses_iff {a b : ℕ} : ¬ Crosses a b ↔ a.Coprime b ∨ a ∣ b ∨ b ∣ a := by
  rw [Crosses, Nat.coprime_iff_gcd_eq_one, ← Nat.gcd_eq_left_iff_dvd, ← Nat.gcd_eq_right_iff_dvd]
  tauto

theorem Crosses.symm {a b : ℕ} (crosses : Crosses a b) : Crosses b a := by
  rw [Crosses, Nat.gcd_comm]
  exact ⟨crosses.1, crosses.2.2, crosses.2.1⟩

theorem Crosses.cofactor_ne_one {a b : ℕ} (crosses : Crosses a b) : a / a.gcd b ≠ 1 := by
  intro one
  have whole := Nat.div_mul_cancel (Nat.gcd_dvd_left a b)
  rw [one, Nat.one_mul] at whole
  exact crosses.2.1 whole

theorem not_crosses_self (a : ℕ) : ¬ Crosses a a := not_crosses_iff.mpr (.inr (.inl dvd_rfl))

/-- A number that another one divides, where none splits it and none is a multiple of it. -/
def Stuck (numbers : Set ℕ) : Prop :=
  ∃ top ∈ numbers, (∃ below ∈ numbers, below ∣ top ∧ below ≠ top) ∧
    ∀ a ∈ numbers, a.Coprime top ∨ a ∣ top

structure Refines (pool next : List ℕ) : Prop where
  kept : ∀ a ∈ pool, a ∈ next ∨ ∃ b ∈ pool, Crosses a b ∧ a.gcd b ∈ next ∧ a / a.gcd b ∈ next
  pieces : ∀ q ∈ next, ∃ a ∈ pool, q ∣ a

namespace Refines

variable {pool next : List ℕ}

/-- What is stuck stays stuck, over a piece of what it was stuck over. -/
theorem stuck (refines : Refines pool next) (stuck : Stuck {a | a ∈ pool}) :
    Stuck {a | a ∈ next} := by
  rcases stuck with ⟨top, member, ⟨below, belowMember, divides, differ⟩, each⟩
  have stays : top ∈ next := by
    rcases refines.kept top member with stays | ⟨b, bMember, crosses, -⟩
    · exact stays
    · refine absurd crosses (not_crosses_iff.mpr ?_)
      rcases each b bMember with coprime | divided
      · exact .inl coprime.symm
      · exact .inr (.inr divided)
  refine ⟨top, stays, ?_, fun q qMember => ?_⟩
  · rcases refines.kept below belowMember with same | ⟨b, -, -, piece, -⟩
    · exact ⟨below, same, divides, differ⟩
    · have smaller := Nat.gcd_dvd_left below b
      refine ⟨below.gcd b, piece, smaller.trans divides, fun same => differ ?_⟩
      exact Nat.dvd_antisymm divides (same ▸ smaller)
  · rcases refines.pieces q qMember with ⟨a, aMember, part⟩
    rcases each a aMember with coprime | divided
    · exact .inl (coprime.coprime_dvd_left part)
    · exact .inr (part.trans divided)

end Refines

section Rounds

variable {first last : List ℕ}

section

variable (rounds : Relation.ReflTransGen Refines first last)

include rounds

end

end Rounds

end CudaMpqs.CoprimeBase
