import CudaMpqs.Foundation.StreamCompaction
import CudaMpqs.Matrix.Compaction
import CudaMpqs.Matrix.PackedRow

/-! # Packed matrices

`DevicePackedCSR`, and the renumbering of its columns that compactions share. -/

namespace CudaMpqs

open PackedRow StreamCompaction

/-- The rows in order, each with its entries and its metadata. -/
structure DevicePackedCsr where
  rows : List PackedRow
  nCols : Nat
deriving DecidableEq

structure DevicePackedCsr.WellFormed (matrix : DevicePackedCsr) : Prop where
  ascending : ∀ row ∈ matrix.rows, row.Ascending
  column_lt : ∀ row ∈ matrix.rows, ∀ entry ∈ row.entries, entry.1 < matrix.nCols

instance (matrix : DevicePackedCsr) : Decidable matrix.WellFormed :=
  decidable_of_iff
    ((∀ row ∈ matrix.rows, row.Ascending) ∧
      ∀ row ∈ matrix.rows, ∀ entry ∈ row.entries, entry.1 < matrix.nCols)
    ⟨fun ⟨ascending, column_lt⟩ => ⟨ascending, column_lt⟩,
      fun ⟨ascending, column_lt⟩ => ⟨ascending, column_lt⟩⟩

def emptyPackedRow : PackedRow := ⟨[], UInt512.ofUInt32 0, 0, 0, 0⟩

namespace DevicePackedCsr

def rowAt (matrix : DevicePackedCsr) (r : Nat) : PackedRow := matrix.rows.getD r emptyPackedRow

theorem rowAt_mem {matrix : DevicePackedCsr} {r : Nat} (inside : r < matrix.rows.length) :
    matrix.rowAt r ∈ matrix.rows := by
  rw [rowAt, List.getD_eq_getElem _ _ inside]
  exact List.getElem_mem inside

def leftKernel (matrix : DevicePackedCsr) : Set (Nat → ZMod 2) :=
  Elimination.Kernel (Finset.range matrix.rows.length) fun r => (matrix.rowAt r).parity

end DevicePackedCsr

namespace PackedRow

def cols (row : PackedRow) : List Nat := row.entries.map Prod.fst

def remap (newCol : Nat → Nat) (row : PackedRow) : PackedRow :=
  { row with entries := row.entries.map fun entry => (newCol entry.1, entry.2) }

theorem Ascending.nodup_cols {row : PackedRow} (ascending : row.Ascending) : row.cols.Nodup :=
  List.pairwise_map.mpr (ascending.imp fun less => less.ne)

variable {newCol : Nat → Nat} {row : PackedRow}

theorem parity_remap {c : Nat}
    (injective : ∀ entry ∈ row.entries, newCol entry.1 = newCol c → entry.1 = c) :
    (row.remap newCol).parity (newCol c) = row.parity c := by
  rw [parity, parity, remap, List.map_map]
  congr 1
  apply List.map_congr_left
  intro entry member
  have same : newCol entry.1 = newCol c ↔ entry.1 = c :=
    ⟨injective entry member, congrArg newCol⟩
  simp only [Function.comp_apply, same]

theorem parity_remap_join (mont : Montgomery) (newCol : Nat → Nat) (left right : PackedRow) :
    ((join mont left right).remap newCol).parity =
      (left.remap newCol).parity + (right.remap newCol).parity := by
  funext c
  simp only [Pi.add_apply, parity, remap, List.map_map, join]
  exact SortedMerge.sum_merge _ _ _ _ fun key value value' _ _ => by
    by_cases isColumn : newCol key = c
    · simp only [Function.comp_apply, if_pos isColumn, natCast_toNat_add]
    · simp only [Function.comp_apply, if_neg isColumn, add_zero]

theorem parity_eq_zero {c : Nat} (absent : c ∉ row.cols) : row.parity c = 0 := by
  apply List.sum_eq_zero
  intro amount member
  rcases List.mem_map.mp member with ⟨entry, inside, rfl⟩
  refine if_neg fun same => absent ?_
  rw [← same]
  exact List.mem_map_of_mem inside

end PackedRow

/-! ## Renumbering -/

/-- The rows with the columns of positive weight renumbered in order. -/
def DevicePackedCsr.renumber (colWeight : Nat → Nat) (nCols : Nat) (rows : List PackedRow) :
    DevicePackedCsr where
  rows := rows.map (PackedRow.remap (keptBelow colWeight))
  nCols := keptBelow colWeight nCols

def keptCols (colWeight : Nat → Nat) (nCols : Nat) : List Nat :=
  (List.range nCols).filter (0 < colWeight ·)

structure Renumbers (colWeight : Nat → Nat) (nCols : Nat) (rows : List PackedRow) : Prop where
  ascending : ∀ row ∈ rows, row.Ascending
  column_lt : ∀ row ∈ rows, ∀ entry ∈ row.entries, entry.1 < nCols
  kept : ∀ row ∈ rows, ∀ entry ∈ row.entries, 0 < colWeight entry.1

variable {colWeight : Nat → Nat} {nCols : Nat} {rows : List PackedRow}

theorem keptBelow_injective {c c' : Nat} (kept : 0 < colWeight c) (kept' : 0 < colWeight c')
    (same : keptBelow colWeight c = keptBelow colWeight c') : c = c' := by
  rcases lt_trichotomy c c' with less | equal | greater
  · exact absurd same (keptBelow_lt less kept).ne
  · exact equal
  · exact absurd same (keptBelow_lt greater kept').ne'

theorem getElem?_keptCols {c : Nat} (inside : c < nCols) (kept : 0 < colWeight c) :
    (keptCols colWeight nCols)[keptBelow colWeight c]? = some c := by
  have split : List.range nCols = List.range c ++ c :: List.range' (c + 1) (nCols - (c + 1)) := by
    have joined := List.range'_append_1 (s := 0) (m := c) (n := nCols - (c + 1) + 1)
    rw [Nat.zero_add, List.range'_succ, ← List.range_eq_range', ← List.range_eq_range'] at joined
    rw [joined]
    congr 1
    omega
  rw [keptCols, split, List.filter_append, keptBelow, List.countP_eq_length_filter,
    List.getElem?_append_right le_rfl, Nat.sub_self, List.filter_cons, if_pos (by simpa using kept)]
  rfl

theorem length_keptCols : (keptCols colWeight nCols).length = keptBelow colWeight nCols := by
  rw [keptCols, keptBelow, List.countP_eq_length_filter]

theorem Renumbers.wellFormed (renumbers : Renumbers colWeight nCols rows) :
    (DevicePackedCsr.renumber colWeight nCols rows).WellFormed where
  ascending := by
    intro row member
    rcases List.mem_map.mp member with ⟨old, isOld, rfl⟩
    apply List.pairwise_map.mpr
    refine (renumbers.ascending old isOld).imp_of_mem ?_
    intro entry entry' inside _ less
    exact keptBelow_lt less (renumbers.kept old isOld entry inside)
  column_lt := by
    intro row member entry inside
    rcases List.mem_map.mp member with ⟨old, isOld, rfl⟩
    rcases List.mem_map.mp inside with ⟨oldEntry, isEntry, rfl⟩
    exact keptBelow_lt (renumbers.column_lt old isOld oldEntry isEntry)
      (renumbers.kept old isOld oldEntry isEntry)

theorem Renumbers.parity (renumbers : Renumbers colWeight nCols rows) {row : PackedRow}
    (member : row ∈ rows) {c : Nat} (kept : 0 < colWeight c) :
    (row.remap (keptBelow colWeight)).parity (keptBelow colWeight c) = row.parity c :=
  parity_remap fun entry inside =>
    keptBelow_injective (renumbers.kept row member entry inside) kept

theorem Renumbers.parity_eq_zero (renumbers : Renumbers colWeight nCols rows) {row : PackedRow}
    (member : row ∈ rows) {c : Nat} (dropped : ¬ 0 < colWeight c) : row.parity c = 0 := by
  apply PackedRow.parity_eq_zero
  intro present
  rcases List.mem_map.mp present with ⟨entry, inside, rfl⟩
  exact dropped (renumbers.kept row member entry inside)

/-- Dropping dead rows and renumbering columns renames the binary matrix. -/
theorem Renumbers.compacts {rowAt : Nat → PackedRow} {nRows : Nat} {rowAlive : Nat → Bool}
    (renumbers : Renumbers colWeight nCols ((aliveRows nRows rowAlive).map rowAt)) :
    Elimination.Compacts (Finset.range (aliveRows nRows rowAlive).length) (placeOf nRows rowAlive)
      (fun r => (rowAt r).parity) fun i => ((DevicePackedCsr.renumber colWeight nCols
        ((aliveRows nRows rowAlive).map rowAt)).rowAt i).parity := by
  have row : ∀ i ∈ Finset.range (aliveRows nRows rowAlive).length,
      (DevicePackedCsr.renumber colWeight nCols ((aliveRows nRows rowAlive).map rowAt)).rowAt i =
        (rowAt (placeOf nRows rowAlive i)).remap (keptBelow colWeight) := by
    intro i member
    have inside := Finset.mem_range.mp member
    rw [DevicePackedCsr.rowAt, DevicePackedCsr.renumber,
      List.getD_eq_getElem _ _ (by simpa using inside), List.getElem_map, List.getElem_map,
      placeOf, List.getD_eq_getElem _ _ inside]
  have old : ∀ i ∈ Finset.range (aliveRows nRows rowAlive).length,
      rowAt (placeOf nRows rowAlive i) ∈ (aliveRows nRows rowAlive).map rowAt :=
    fun i member => List.mem_map_of_mem (placeOf_mem (Finset.mem_range.mp member))
  refine ⟨placeOf_injOn, fun c => ?_, fun newCol => ?_⟩
  · by_cases kept : 0 < colWeight c
    · refine .inr ⟨keptBelow colWeight c, fun i member => ?_⟩
      rw [row i member, renumbers.parity (old i member) kept]
    · exact .inl fun i member => renumbers.parity_eq_zero (old i member) kept
  · by_cases assigned : ∃ c, 0 < colWeight c ∧ keptBelow colWeight c = newCol
    · rcases assigned with ⟨c, kept, rfl⟩
      refine .inr ⟨c, fun i member => ?_⟩
      rw [row i member, renumbers.parity (old i member) kept]
    · refine .inl fun i member => ?_
      rw [row i member]
      apply PackedRow.parity_eq_zero
      intro present
      rcases List.mem_map.mp present with ⟨entry, inside, isCol⟩
      rcases List.mem_map.mp inside with ⟨oldEntry, isEntry, rfl⟩
      exact assigned ⟨oldEntry.1, renumbers.kept _ (old i member) _ isEntry, isCol⟩

end CudaMpqs
