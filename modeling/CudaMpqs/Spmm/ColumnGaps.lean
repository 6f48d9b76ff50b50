import Mathlib.Data.BitVec
import Mathlib.Algebra.BigOperators.Group.List.Basic

/-! # Gaps between columns

The sparse columns of a row as differences modulo `2 ^ 32`, the form that the stream encoders of
`preprocessing.cpp` and `device_format_convert.cu` start from and that the kernels add up. -/

namespace CudaMpqs.SparseStreams

abbrev Column := BitVec 32

def sparseColumns (denseColLimit : Column) (row : List Column) : List Column :=
  row.filter fun col => !decide (col < denseColLimit)

@[simp] theorem sparseColumns_zero (row : List Column) : sparseColumns 0 row = row :=
  List.filter_eq_self.mpr fun col _ => by simp

def gaps : Column → List Column → List Column
  | _, [] => []
  | prev, col :: cols => (col - prev) :: gaps col cols

@[simp] theorem length_gaps (prev : Column) (cols : List Column) :
    (gaps prev cols).length = cols.length := by
  induction cols generalizing prev with
  | nil => rfl
  | cons col cols induction => rw [gaps, List.length_cons, List.length_cons, induction]

def columnsFrom : Column → List Column → List Column
  | _, [] => []
  | prev, gap :: rest => (prev + gap) :: columnsFrom (prev + gap) rest

@[simp] theorem columnsFrom_gaps (prev : Column) (cols : List Column) :
    columnsFrom prev (gaps prev cols) = cols := by
  induction cols generalizing prev with
  | nil => rfl
  | cons col cols induction =>
    rw [gaps, columnsFrom, add_sub_cancel, induction]

structure Ascending (nCols : Column) (row : List Column) : Prop where
  sorted : row.Pairwise (· < ·)
  below : ∀ col ∈ row, col < nCols

instance (nCols : Column) (row : List Column) : Decidable (Ascending nCols row) :=
  decidable_of_iff (row.Pairwise (· < ·) ∧ row.all (· < nCols) = true)
    ⟨fun ⟨sorted, below⟩ => ⟨sorted, by simpa using below⟩,
      fun ⟨sorted, below⟩ => ⟨sorted, by simpa using below⟩⟩

theorem Ascending.sparseColumns {nCols : Column} {row : List Column}
    (ascending : Ascending nCols row) (denseColLimit : Column) :
    Ascending nCols (sparseColumns denseColLimit row) where
  sorted := ascending.sorted.filter _
  below col member := ascending.below col (List.mem_filter.mp member).1

theorem le_of_mem_sparseColumns {denseColLimit col : Column} {row : List Column}
    (member : col ∈ sparseColumns denseColLimit row) : denseColLimit.toNat ≤ col.toNat := by
  have kept := (List.mem_filter.mp member).2
  rw [Bool.not_eq_true', decide_eq_false_iff_not, BitVec.lt_def] at kept
  omega

/-- The gaps of ascending columns, which begin at `prev + 1`, neither vanish nor wrap. -/
theorem gaps_spec {prev nCols : Column} {cols : List Column} (ascending : Ascending nCols cols)
    (above : ∀ col ∈ cols, (prev + 1).toNat ≤ col.toNat) :
    (∀ gap ∈ gaps prev cols, 0 < gap.toNat) ∧
      ((gaps prev cols).map BitVec.toNat).sum ≤ nCols.toNat - (prev + 1).toNat := by
  induction cols generalizing prev with
  | nil => exact ⟨nofun, Nat.zero_le _⟩
  | cons col cols induction =>
    have first := above col List.mem_cons_self
    have last := BitVec.lt_def.mp (ascending.below col List.mem_cons_self)
    have nColsBound := nCols.isLt
    have prevBound := prev.isLt
    have next : (col + 1).toNat = col.toNat + 1 := by
      rw [BitVec.toNat_add]
      exact Nat.mod_eq_of_lt (by simp; omega)
    have gap : (col - prev).toNat = col.toNat + 1 - (prev + 1).toNat := by
      rw [BitVec.toNat_add] at first ⊢
      rw [BitVec.toNat_sub]
      have one : (1 : Column).toNat = 1 := rfl
      rw [one] at first ⊢
      omega
    have rest := @induction col
      ⟨(List.pairwise_cons.mp ascending.sorted).2,
        fun other member => ascending.below other (List.mem_cons_of_mem _ member)⟩
      fun other member => by
        have order := BitVec.lt_def.mp ((List.pairwise_cons.mp ascending.sorted).1 other member)
        omega
    rw [next] at rest
    refine ⟨fun value member => ?_, ?_⟩
    · rcases List.mem_cons.mp member with rfl | later
      · omega
      · exact rest.1 value later
    · rw [gaps, List.map_cons, List.sum_cons, gap]
      omega

theorem gaps_sparseColumns {denseColLimit nCols : Column} {row : List Column}
    (ascending : Ascending nCols row) :
    (∀ gap ∈ gaps (denseColLimit - 1) (sparseColumns denseColLimit row), 0 < gap.toNat) ∧
      ((gaps (denseColLimit - 1) (sparseColumns denseColLimit row)).map BitVec.toNat).sum ≤
        nCols.toNat - denseColLimit.toNat := by
  have start : denseColLimit - 1 + 1 = denseColLimit := BitVec.sub_add_cancel _ _
  have spec := @gaps_spec (denseColLimit - 1) nCols _ (ascending.sparseColumns denseColLimit)
    fun col member => by
      rw [start]
      exact le_of_mem_sparseColumns member
  rwa [start] at spec

end CudaMpqs.SparseStreams
