import Mathlib.Algebra.BigOperators.Fin

/-! # Grid-stride loops

A range of indices is split over the blocks of a grid: each block starts at its
own index and advances by the size of the grid. Together the blocks visit every
index once. -/

namespace CudaMpqs.GridStride

variable {Value : Type} [AddCommMonoid Value] {size stride : Nat}

def gridStride (start stride size : Nat) : List (Fin size) :=
  (List.finRange size).filter fun k => start ≤ k.val ∧ (k.val - start) % stride = 0

private theorem mem_gridStride {start : Nat} (below : start < stride) (k : Fin size) :
    k ∈ gridStride start stride size ↔ k.val % stride = start := by
  rw [gridStride, List.mem_filter, decide_eq_true_eq]
  constructor
  · rintro ⟨_, reached, multiple⟩
    rw [← Nat.sub_add_cancel reached, Nat.add_mod, multiple, Nat.zero_add, Nat.mod_mod,
      Nat.mod_eq_of_lt below]
  · rintro rfl
    exact ⟨List.mem_finRange k, Nat.mod_le _ _, Nat.mod_eq_zero_of_dvd (Nat.dvd_sub_mod k.val)⟩

private theorem sum_gridStride {start : Nat} (below : start < stride) (f : Fin size → Value) :
    ((gridStride start stride size).map f).sum = ∑ k with k.val % stride = start, f k := by
  have nodup : (gridStride start stride size).Nodup := (List.nodup_finRange size).filter _
  rw [← List.sum_toFinset f nodup]
  apply Finset.sum_congr _ fun _ _ => rfl
  ext k
  rw [List.mem_toFinset, mem_gridStride below, Finset.mem_filter]
  simp

theorem sum_blocks (positive : 0 < stride) (f : Fin size → Value) :
    ((List.range stride).map fun start => ((gridStride start stride size).map f).sum).sum =
      ∑ k, f k := by
  rw [List.map_congr_left fun start member => sum_gridStride (List.mem_range.mp member) f,
    ← List.sum_toFinset _ List.nodup_range, List.toFinset_range]
  exact Finset.sum_fiberwise_of_maps_to
    (fun k _ => Finset.mem_range.mpr (Nat.mod_lt k.val positive)) f

end CudaMpqs.GridStride
