import Mathlib.Data.List.GetD
import Mathlib.Order.Nat

/-! # Slices of an array

Contiguous pieces of an array that grows at its end, addressed by offsets. -/

namespace CudaMpqs.Slice

variable {α : Type}

def slice (items : List α) (start stop : Nat) : List α :=
  (items.drop start).take (stop - start)

theorem slice_append_of_le (items added : List α) {start stop : Nat}
    (inside : stop ≤ items.length) :
    slice (items ++ added) start stop = slice items start stop := by
  unfold slice
  by_cases empty : stop ≤ start
  · rw [Nat.sub_eq_zero_of_le empty, List.take_zero, List.take_zero]
  · rw [List.drop_append_of_le_length (by omega), List.take_append_of_le_length]
    rw [List.length_drop]
    omega

theorem slice_append_self (items added : List α) :
    slice (items ++ added) items.length (items.length + added.length) = added := by
  rw [slice, List.drop_left, Nat.add_sub_cancel_left, List.take_length]

structure Offsets (offsets : List Nat) (count total : Nat) : Prop where
  length : offsets.length = count + 1
  le : ∀ offset ∈ offsets, offset ≤ total
  last : offsets.getD count 0 = total

theorem Offsets.zero : Offsets [0] 0 0 :=
  ⟨rfl, by simp, rfl⟩

variable {offsets : List Nat} {count total : Nat}

theorem Offsets.getD_le (valid : Offsets offsets count total) (idx : Nat) :
    offsets.getD idx 0 ≤ total := by
  by_cases inside : idx < offsets.length
  · rw [List.getD_eq_getElem _ _ inside]
    exact valid.le _ (List.getElem_mem inside)
  · rw [List.getD_eq_default _ _ (not_lt.mp inside)]
    exact Nat.zero_le _

theorem Offsets.push (valid : Offsets offsets count total) (added : Nat) :
    Offsets (offsets ++ [total + added]) (count + 1) (total + added) where
  length := by simp [valid.length]
  le := by
    intro offset member
    rcases List.mem_append.mp member with member | member
    · exact (valid.le offset member).trans (Nat.le_add_right _ _)
    · exact (List.mem_singleton.mp member).le
  last := by
    rw [List.getD_append_right _ _ _ _ valid.length.le, valid.length, Nat.sub_self]
    rfl

theorem Offsets.getD_push (valid : Offsets offsets count total) (added : Nat)
    {idx : Nat} (inside : idx ≤ count) :
    (offsets ++ [total + added]).getD idx 0 = offsets.getD idx 0 := by
  apply List.getD_append
  rw [valid.length]
  omega

end CudaMpqs.Slice
