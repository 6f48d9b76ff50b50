import Mathlib.Algebra.BigOperators.Group.List.Basic
import Mathlib.Algebra.GroupWithZero.Nat
import Mathlib.Data.List.Count
import CudaMpqs.Foundation.Slice

/-! # Stream compaction

The exclusive scan of the keep flags is where the kept items go; the exclusive scan of
their lengths is where their parts go. -/

namespace CudaMpqs.StreamCompaction

open Function Slice

variable {α : Type}

def exclusiveScan (amount : Nat → Nat) (k : Nat) : Nat := ((List.range k).map amount).sum

theorem exclusiveScan_succ (amount : Nat → Nat) (k : Nat) :
    exclusiveScan amount (k + 1) = exclusiveScan amount k + amount k := by
  simp [exclusiveScan, List.range_succ]

theorem exclusiveScan_congr {amount amount' : Nat → Nat} {k : Nat}
    (same : ∀ i < k, amount i = amount' i) : exclusiveScan amount k = exclusiveScan amount' k := by
  unfold exclusiveScan
  rw [List.map_congr_left fun i member => same i (List.mem_range.mp member)]

theorem exclusiveScan_toNat (keep : Nat → Bool) (k : Nat) :
    exclusiveScan (fun i => (keep i).toNat) k = ((List.range k).filter keep).length := by
  induction k with
  | zero => rfl
  | succ k induction =>
    rw [exclusiveScan_succ, induction, List.range_succ, List.filter_append, List.length_append]
    cases isKept : keep k <;> simp [isKept]

/-! ## Scattering -/

def scatter (keep : Nat → Bool) (place : Nat → Nat) (item : Nat → α) (count : Nat)
    (array : Nat → α) : Nat → α :=
  (List.range count).foldl
    (fun array i => if keep i then update array (place i) (item i) else array) array

theorem scatter_succ (keep : Nat → Bool) (place : Nat → Nat) (item : Nat → α) (count : Nat)
    (array : Nat → α) : scatter keep place item (count + 1) array =
      if keep count then update (scatter keep place item count array) (place count) (item count)
      else scatter keep place item count array := by
  simp [scatter, List.range_succ]

theorem scatter_congr {keep keep' : Nat → Bool} {place place' : Nat → Nat} (item : Nat → α)
    {count : Nat} (array : Nat → α) (sameKeep : ∀ i < count, keep i = keep' i)
    (samePlace : ∀ i < count, keep' i → place i = place' i) :
    scatter keep place item count array = scatter keep' place' item count array := by
  induction count with
  | zero => rfl
  | succ count induction =>
    rw [scatter_succ, scatter_succ, sameKeep count count.lt_succ_self,
      induction (fun i inside => sameKeep i (by omega)) fun i inside => samePlace i (by omega)]
    split
    next isKept => rw [samePlace count count.lt_succ_self isKept]
    next => rfl

/-- Scattering to the scanned flags packs the kept items. -/
theorem scatter_scan (keep : Nat → Bool) (item : Nat → α) (count : Nat) (array : Nat → α) {i : Nat}
    (inside : i < ((List.range count).filter keep).length) :
    scatter keep (exclusiveScan fun i => (keep i).toNat) item count array i =
      item (((List.range count).filter keep)[i]) := by
  induction count with
  | zero => simp at inside
  | succ count induction =>
    rw [scatter_succ, exclusiveScan_toNat]
    have grows : (List.range (count + 1)).filter keep =
        (List.range count).filter keep ++ [count].filter keep := by
      rw [List.range_succ, List.filter_append]
    simp only [grows] at inside ⊢
    split
    next isKept =>
        simp only [List.filter_singleton, isKept] at inside ⊢
        by_cases isLast : i = ((List.range count).filter keep).length
        · subst isLast
          simp
        · rw [update_of_ne isLast, induction (by simp at inside; omega),
            List.getElem_append_left]
    next isDropped =>
        simp only [List.filter_singleton, isDropped] at inside ⊢
        rw [induction (by simpa using inside), List.getElem_append_left]

theorem map_scatter_scan (keep : Nat → Bool) (item : Nat → α) (count : Nat) (array : Nat → α) :
    (List.range ((List.range count).filter keep).length).map
        (scatter keep (exclusiveScan fun i => (keep i).toNat) item count array) =
      ((List.range count).filter keep).map item := by
  apply List.ext_getElem
  · simp
  · intro i inside _
    simp only [List.length_map, List.length_range] at inside
    simp [scatter_scan keep item count array inside]

/-! ## Rows -/

def writeItems (start : Nat) (items : List α) (array : Nat → α) : Nat → α :=
  (items.zipIdx start).foldl (fun array entry => update array entry.2 entry.1) array

theorem writeItems_apply (start : Nat) (items : List α) (array : Nat → α) (place : Nat) :
    writeItems start items array place =
      if inside : start ≤ place ∧ place < start + items.length then items[place - start]
      else array place := by
  induction items generalizing start array with
  | nil =>
    rw [dif_neg (by simp)]
    rfl
  | cons item items induction =>
    have step : writeItems start (item :: items) array =
        writeItems (start + 1) items (update array start item) := rfl
    rw [step, induction]
    by_cases isFirst : place = start
    · subst isFirst
      rw [dif_neg (by omega), dif_pos (by simp), update_self]
      simp
    · by_cases inside : start + 1 ≤ place ∧ place < start + 1 + items.length
      · rw [dif_pos inside, dif_pos (by simp; omega)]
        have isNext : place - start = place - (start + 1) + 1 := by omega
        simp only [isNext, List.getElem_cons_succ]
      · rw [dif_neg inside, dif_neg (by simp; omega), update_of_ne isFirst]

def writeRows (start : Nat → Nat) (row : Nat → List α) (count : Nat) (array : Nat → α) : Nat → α :=
  (List.range count).foldl (fun array i => writeItems (start i) (row i) array) array

theorem writeRows_congr {start start' : Nat → Nat} {row row' : Nat → List α} {count : Nat}
    (array : Nat → α) (sameStart : ∀ i < count, start i = start' i)
    (sameRow : ∀ i < count, row i = row' i) :
    writeRows start row count array = writeRows start' row' count array := by
  apply List.foldl_ext
  intro array i member
  have inside := List.mem_range.mp member
  rw [sameStart i inside, sameRow i inside]

theorem length_flatMap_range (row : Nat → List α) (count : Nat) :
    ((List.range count).flatMap row).length = exclusiveScan (fun i => (row i).length) count := by
  rw [List.length_flatMap, exclusiveScan]

/-- Rows written to their scanned lengths follow each other without gaps. -/
theorem map_writeRows_scan (row : Nat → List α) (count : Nat) (array : Nat → α) :
    (List.range (exclusiveScan (fun i => (row i).length) count)).map
        (writeRows (exclusiveScan fun i => (row i).length) row count array) =
      (List.range count).flatMap row := by
  induction count with
  | zero => rfl
  | succ count induction =>
    have written : writeRows (exclusiveScan fun i => (row i).length) row (count + 1) array =
        writeItems (exclusiveScan (fun i => (row i).length) count) (row count)
          (writeRows (exclusiveScan fun i => (row i).length) row count array) := by
      simp [writeRows, List.range_succ]
    rw [written, exclusiveScan_succ, List.range_succ, List.flatMap_append, ← induction]
    apply List.ext_getElem
    · simp
    · intro i inside _
      simp only [List.length_map, List.length_range] at inside
      rw [List.getElem_map, List.getElem_range, writeItems_apply]
      split
      next within =>
          rw [List.getElem_append_right (by simpa using within.1)]
          simp
      next outside =>
          rw [List.getElem_append_left (by simp; omega)]
          simp

theorem exclusiveScan_mono (amount : Nat → Nat) {j k : Nat} (le : j ≤ k) :
    exclusiveScan amount j ≤ exclusiveScan amount k := by
  induction k with
  | zero =>
    exact Nat.le_zero.mp le ▸ Nat.le_refl _
  | succ k induction =>
    rcases Nat.le_succ_iff.mp le with less | rfl
    · rw [exclusiveScan_succ]
      exact Nat.le_trans (induction less) (Nat.le_add_right _ _)
    · exact Nat.le_refl _

theorem readRow_writeRows_scan (row : Nat → List α) (count : Nat) (array : Nat → α) {i : Nat}
    (inside : i < count) :
    (List.range' (exclusiveScan (fun i => (row i).length) i) (row i).length).map
        (writeRows (exclusiveScan fun i => (row i).length) row count array) = row i := by
  induction count with
  | zero => exact absurd inside (Nat.not_lt_zero i)
  | succ count induction =>
    have written : writeRows (exclusiveScan fun i => (row i).length) row (count + 1) array =
        writeItems (exclusiveScan (fun i => (row i).length) count) (row count)
          (writeRows (exclusiveScan fun i => (row i).length) row count array) := by
      simp [writeRows, List.range_succ]
    rw [written]
    rcases Nat.lt_succ_iff_lt_or_eq.mp inside with earlier | rfl
    · refine Eq.trans ?_ (induction earlier)
      apply List.map_congr_left
      intro place member
      have before := exclusiveScan_mono (fun i => (row i).length) (Nat.succ_le_of_lt earlier)
      rw [exclusiveScan_succ] at before
      rw [List.mem_range'_1] at member
      rw [writeItems_apply, dif_neg (by omega)]
    · apply List.ext_getElem
      · simp
      · intro k bound _
        have short : k < (row i).length := by simpa using bound
        rw [List.getElem_map, List.getElem_range', Nat.one_mul, writeItems_apply,
          dif_pos (by omega)]
        simp

/-- A row, read back from among the rows that follow each other. -/
theorem slice_flatMap_scan (row : Nat → List α) (count : Nat) {i : Nat} (inside : i < count) :
    slice ((List.range count).flatMap row) (exclusiveScan (fun i => (row i).length) i)
      (exclusiveScan (fun i => (row i).length) (i + 1)) = row i := by
  induction count with
  | zero => exact absurd inside (Nat.not_lt_zero i)
  | succ count induction =>
    rw [List.range_succ, List.flatMap_append, List.flatMap_singleton]
    rcases Nat.lt_succ_iff_lt_or_eq.mp inside with earlier | rfl
    · rw [slice_append_of_le, induction earlier]
      rw [length_flatMap_range]
      exact exclusiveScan_mono _ earlier
    · rw [exclusiveScan_succ, ← length_flatMap_range]
      exact slice_append_self _ _

end CudaMpqs.StreamCompaction
