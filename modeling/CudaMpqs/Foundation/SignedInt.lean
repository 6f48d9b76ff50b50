import Mathlib.Algebra.Order.Ring.Int

/-! # Signed arithmetic of 32 bits

A signed operation is its exact result where that is in range, and has no result where it
overflows. -/

namespace CudaMpqs.SignedInt

def InInt (value : Int) : Prop := -2 ^ 31 ≤ value ∧ value < 2 ^ 31

instance : DecidablePred InInt := fun value => by
  unfold InInt
  infer_instance

def int32 (value : Int) : Option Int := if InInt value then some value else none

def narrow (value : Int) : Int := value.bmod (2 ^ 32)

variable {value result : Int}

theorem int32_of_inInt (inside : InInt value) : int32 value = some value := if_pos inside

theorem int32_eq_some_iff : int32 value = some result ↔ InInt value ∧ value = result := by
  rw [int32]
  split
  next inside => rw [Option.some_inj, and_iff_right inside]
  next outside => exact iff_of_false nofun fun both => outside both.1

theorem isSome_int32_iff : (int32 value).isSome ↔ InInt value := by
  rw [int32]
  split
  next inside => exact iff_of_true rfl inside
  next outside => exact iff_of_false Bool.false_ne_true outside

theorem narrow_of_inInt (inside : InInt value) : narrow value = value := by
  rcases inside with ⟨low, high⟩
  rw [narrow, Int.bmod_eq_of_le] <;> omega

end CudaMpqs.SignedInt
