import Mathlib.Algebra.Field.ZMod
import CudaMpqs.Foundation.Slice
import CudaMpqs.Foundation.Elimination

/-! # Sparse matrices over GF(2)

The CSR matrices of `matrix_constructor.h` and their left kernels. -/

namespace CudaMpqs

open Slice Elimination

structure HostMatrixCSR where
  rowOffsets : List Nat
  colIndices : List Nat
  nRows : Nat
  nCols : Nat
deriving DecidableEq

namespace HostMatrixCSR

def row (matrix : HostMatrixCSR) (r : Nat) : List Nat :=
  slice matrix.colIndices (matrix.rowOffsets.getD r 0)
    (matrix.rowOffsets.getD (r + 1) 0)

structure WellFormed (matrix : HostMatrixCSR) : Prop where
  length : matrix.rowOffsets.length = matrix.nRows + 1
  first : matrix.rowOffsets.getD 0 0 = 0
  last : matrix.rowOffsets.getD matrix.nRows 0 = matrix.colIndices.length
  monotone : ∀ r < matrix.nRows, matrix.rowOffsets.getD r 0 ≤ matrix.rowOffsets.getD (r + 1) 0
  bound : ∀ r < matrix.nRows, ∀ c ∈ matrix.row r, c < matrix.nCols
  ascending : ∀ r < matrix.nRows, (matrix.row r).Pairwise (· < ·)

instance (matrix : HostMatrixCSR) : Decidable matrix.WellFormed :=
  decidable_of_iff
    (matrix.rowOffsets.length = matrix.nRows + 1 ∧ matrix.rowOffsets.getD 0 0 = 0 ∧
      matrix.rowOffsets.getD matrix.nRows 0 = matrix.colIndices.length ∧
      (∀ r < matrix.nRows, matrix.rowOffsets.getD r 0 ≤ matrix.rowOffsets.getD (r + 1) 0) ∧
      (∀ r < matrix.nRows, ∀ c ∈ matrix.row r, c < matrix.nCols) ∧
      ∀ r < matrix.nRows, (matrix.row r).Pairwise (· < ·))
    ⟨fun ⟨length, first, last, monotone, bound, ascending⟩ =>
        ⟨length, first, last, monotone, bound, ascending⟩,
      fun ⟨length, first, last, monotone, bound, ascending⟩ =>
        ⟨length, first, last, monotone, bound, ascending⟩⟩

/-! ## Building a matrix row by row -/

def empty (nCols : Nat) : HostMatrixCSR := ⟨[0], [], 0, nCols⟩

def pushRow (matrix : HostMatrixCSR) (cols : List Nat) : HostMatrixCSR where
  rowOffsets := matrix.rowOffsets ++ [matrix.colIndices.length + cols.length]
  colIndices := matrix.colIndices ++ cols
  nRows := matrix.nRows + 1
  nCols := matrix.nCols

structure Built (matrix : HostMatrixCSR) : Prop where
  offsets : Offsets matrix.rowOffsets matrix.nRows matrix.colIndices.length
  first : matrix.rowOffsets.getD 0 0 = 0
  monotone : ∀ r < matrix.nRows, matrix.rowOffsets.getD r 0 ≤ matrix.rowOffsets.getD (r + 1) 0

theorem built_empty (nCols : Nat) : (empty nCols).Built where
  offsets := Offsets.zero
  first := rfl
  monotone := fun r inside => absurd inside (Nat.not_lt_zero r)

variable {matrix : HostMatrixCSR}

theorem Built.pushRow (built : matrix.Built) (cols : List Nat) : (matrix.pushRow cols).Built where
  offsets := by
    simp only [HostMatrixCSR.pushRow, List.length_append]
    exact built.offsets.push cols.length
  first := by
    rw [HostMatrixCSR.pushRow, built.offsets.getD_push _ (Nat.zero_le _)]
    exact built.first
  monotone := by
    intro r inside
    rw [HostMatrixCSR.pushRow, built.offsets.getD_push _ (Nat.le_of_lt_succ inside)]
    rcases Nat.lt_succ_iff_lt_or_eq.mp inside with inside | rfl
    · rw [built.offsets.getD_push _ inside]
      exact built.monotone r inside
    · rw [(built.offsets.push cols.length).last, built.offsets.last]
      exact Nat.le_add_right _ _

theorem Built.row_pushRow_of_lt (built : matrix.Built) (cols : List Nat) {r : Nat}
    (inside : r < matrix.nRows) : (matrix.pushRow cols).row r = matrix.row r := by
  unfold row
  simp only [HostMatrixCSR.pushRow]
  rw [built.offsets.getD_push _ inside.le, built.offsets.getD_push _ inside,
    slice_append_of_le _ _ (built.offsets.getD_le _)]

theorem Built.row_pushRow_last (built : matrix.Built) (cols : List Nat) :
    (matrix.pushRow cols).row matrix.nRows = cols := by
  have stop := (built.offsets.push cols.length).last
  unfold row
  simp only [HostMatrixCSR.pushRow]
  rw [built.offsets.getD_push _ le_rfl, built.offsets.last, stop, slice_append_self]

def rowList (matrix : HostMatrixCSR) : List (List Nat) :=
  (List.range matrix.nRows).map matrix.row

theorem Built.rowList_pushRow (built : matrix.Built) (cols : List Nat) :
    (matrix.pushRow cols).rowList = matrix.rowList ++ [cols] := by
  have prior : (List.range matrix.nRows).map (matrix.pushRow cols).row =
      matrix.rowList := by
    apply List.map_congr_left
    intro r member
    exact built.row_pushRow_of_lt cols (List.mem_range.mp member)
  have size : (matrix.pushRow cols).nRows = matrix.nRows + 1 := rfl
  rw [rowList, size, List.range_succ, List.map_append, prior, List.map_singleton,
    built.row_pushRow_last]

theorem foldl_pushRow (rows : List (List Nat)) (built : matrix.Built) :
    (rows.foldl pushRow matrix).Built ∧
      (rows.foldl pushRow matrix).rowList = matrix.rowList ++ rows ∧
      (rows.foldl pushRow matrix).nCols = matrix.nCols := by
  induction rows generalizing matrix with
  | nil => exact ⟨built, (List.append_nil _).symm, rfl⟩
  | cons cols rows induction =>
    rcases induction (built.pushRow cols) with ⟨after, rowsAfter, nCols⟩
    refine ⟨after, ?_, nCols⟩
    rw [List.foldl_cons, rowsAfter, built.rowList_pushRow, List.append_assoc]
    rfl

def ofRows (nCols : Nat) (rows : List (List Nat)) : HostMatrixCSR :=
  rows.foldl pushRow (empty nCols)

theorem rowList_ofRows (nCols : Nat) (rows : List (List Nat)) :
    (ofRows nCols rows).rowList = rows :=
  (foldl_pushRow rows (built_empty nCols)).2.1

@[simp] theorem nCols_ofRows (nCols : Nat) (rows : List (List Nat)) :
    (ofRows nCols rows).nCols = nCols :=
  (foldl_pushRow rows (built_empty nCols)).2.2

@[simp] theorem nRows_ofRows (nCols : Nat) (rows : List (List Nat)) :
    (ofRows nCols rows).nRows = rows.length := by
  have lengths := congrArg List.length (rowList_ofRows nCols rows)
  rwa [rowList, List.length_map, List.length_range] at lengths

theorem row_ofRows (nCols : Nat) (rows : List (List Nat)) {r : Nat}
    (inside : r < rows.length) : (ofRows nCols rows).row r = rows.getD r [] := by
  have same := congrArg (·.getD r []) (rowList_ofRows nCols rows)
  simp only [rowList, nRows_ofRows] at same
  rw [← same, List.getD_eq_getElem _ _ (by simpa using inside)]
  simp

theorem wellFormed_ofRows {nCols : Nat} {rows : List (List Nat)}
    (bound : ∀ cols ∈ rows, ∀ c ∈ cols, c < nCols)
    (ascending : ∀ cols ∈ rows, cols.Pairwise (· < ·)) :
    (ofRows nCols rows).WellFormed := by
  have built := (foldl_pushRow rows (built_empty nCols)).1
  have member : ∀ r < (ofRows nCols rows).nRows,
      (ofRows nCols rows).row r ∈ rows := by
    intro r inside
    rw [nRows_ofRows] at inside
    rw [row_ofRows nCols rows inside, List.getD_eq_getElem _ _ inside]
    exact List.getElem_mem inside
  refine ⟨built.offsets.length, built.first, built.offsets.last, built.monotone, ?_, ?_⟩
  · intro r inside c present
    rw [nCols_ofRows]
    exact bound _ (member r inside) c present
  · intro r inside
    exact ascending _ (member r inside)

def columnWeight (matrix : HostMatrixCSR) (c : Nat) : Nat :=
  matrix.rowList.countP (c ∈ ·)

theorem foldl_lengths (rows : List (List Nat)) :
    (rows.map List.length).foldl (· + ·) 0 = rows.flatten.length := by
  rw [List.length_flatten, List.sum_eq_foldl]

theorem ofRows_eq (nCols : Nat) (rows : List (List Nat)) : ofRows nCols rows =
      ⟨(rows.map List.length).scanl (· + ·) 0, rows.flatten, rows.length, nCols⟩ := by
  induction rows using List.reverseRecOn with
  | nil => rfl
  | append_singleton rows cols induction =>
    rw [ofRows, List.foldl_append, ← ofRows, induction]
    simp only [List.foldl_cons, List.foldl_nil, pushRow, List.map_append,
      List.map_singleton, List.flatten_append, List.flatten_singleton,
      List.length_append, List.length_singleton, List.scanl_append, foldl_lengths,
      List.scanl_singleton, List.tail_cons]

/-! ## The left kernel -/

def entry (cols : List Nat) (c : Nat) : ZMod 2 := if c ∈ cols then 1 else 0

def InLeftKernel (matrix : HostMatrixCSR) (chosen : Nat → Bool) : Prop :=
  ∀ c, Even ((Finset.range matrix.nRows).filter fun r =>
    chosen r ∧ c ∈ matrix.row r).card

def leftKernel (matrix : HostMatrixCSR) : Set (Nat → ZMod 2) :=
  Kernel (Finset.range matrix.nRows) fun r => entry (matrix.row r)

def indicator (bound : Nat) (chosen : Nat → Bool) (r : Nat) : ZMod 2 :=
  if r < bound ∧ chosen r then 1 else 0

private theorem combine_indicator (matrix : HostMatrixCSR) (chosen : Nat → Bool) (c : Nat) :
    combine (Finset.range matrix.nRows) (fun r => entry (matrix.row r))
      (indicator matrix.nRows chosen) c = (((Finset.range matrix.nRows).filter fun r =>
          chosen r ∧ c ∈ matrix.row r).card : Nat) := by
  rw [combine, ← Finset.sum_boole]
  apply Finset.sum_congr rfl
  intro r member
  have inside := Finset.mem_range.mp member
  by_cases taken : chosen r = true
  · by_cases present : c ∈ matrix.row r
    · simp [indicator, entry, inside, taken, present]
    · simp [indicator, entry, inside, taken, present]
  · simp [indicator, inside, taken]

theorem indicator_mem_leftKernel (matrix : HostMatrixCSR) (chosen : Nat → Bool) :
    indicator matrix.nRows chosen ∈ matrix.leftKernel ↔ matrix.InLeftKernel chosen := by
  constructor
  · rintro ⟨-, cancels⟩ c
    have zero := cancels c
    rw [combine_indicator] at zero
    exact (ZMod.natCast_eq_zero_iff_even).mp zero
  · intro even
    constructor
    · intro r outside
      exact if_neg fun inside => outside (Finset.mem_range.mpr inside.1)
    · intro c
      rw [combine_indicator]
      exact (ZMod.natCast_eq_zero_iff_even).mpr (even c)

end HostMatrixCSR

end CudaMpqs
