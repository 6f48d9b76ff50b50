import Mathlib.Algebra.Group.Hom.Defs
import Mathlib.Order.Basic
import Mathlib.Tactic.ByContra

/-! # The last nonzero iterate

What is left of a value before an operator annihilates it. Starting further down
the orbit changes nothing as long as the start is not annihilated itself. -/

namespace CudaMpqs.LastIterate

variable {Value : Type} [Zero Value] {op : Value → Value} {start last other : Value}

def IsLast (op : Value → Value) (start last : Value) : Prop :=
  ∃ step, op^[step] start = last ∧ last ≠ 0 ∧ op last = 0

theorem iterate_zero_of_le (zero : op 0 = 0) {step later : Nat} (le : step ≤ later)
    (dead : op^[step] start = 0) : op^[later] start = 0 := by
  rw [← Nat.sub_add_cancel le, Function.iterate_add_apply, dead]
  exact Function.iterate_fixed zero _

theorem IsLast.unique (zero : op 0 = 0) (isLast : IsLast op start last)
    (isOther : IsLast op start other) : last = other := by
  rcases isLast with ⟨step, rfl, alive, dead⟩
  rcases isOther with ⟨later, rfl, otherAlive, otherDead⟩
  rw [← Function.iterate_succ_apply' op] at dead otherDead
  rcases Nat.lt_trichotomy step later with below | same | above
  · exact absurd (iterate_zero_of_le zero below dead) otherAlive
  · rw [same]
  · exact absurd (iterate_zero_of_le zero above otherDead) alive

theorem IsLast.of_iterate {steps : Nat} (isLast : IsLast op (op^[steps] start) last) :
    IsLast op start last := by
  rcases isLast with ⟨step, rfl, alive, dead⟩
  exact ⟨step + steps, Function.iterate_add_apply op step steps start, alive, dead⟩

end CudaMpqs.LastIterate
