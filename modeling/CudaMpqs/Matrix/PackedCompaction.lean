import CudaMpqs.Matrix.GpuSingleton
import CudaMpqs.Matrix.MergePlan
import CudaMpqs.Matrix.PackedMatrix

/-! # Compaction of a merged matrix

`gpuCompactPackedCSR` copies the alive rows, wherever their pointers lead, into a fresh
matrix and renumbers the columns that they still use. Reading the new columns back
through the column map gives the old rows. -/

namespace CudaMpqs.BatchMerge

open Combine Function PackedRow StreamCompaction

variable {rows : Nat}

/-! ## Kernels -/

def aliveMask (device : Device rows) (r : Nat) : Bool :=
  aliveAt (fun row => (device.rowPtr row).isSome) r

def sourceRow (context : Context rows) (device : Device rows) (r : Nat) : PackedRow :=
  if inside : r < rows then (device.table context ⟨r, inside⟩).getD emptyPackedRow
  else emptyPackedRow

def aliveColWeight (count : Nat → PackedRow → Nat) (context : Context rows)
    (device : Device rows) (c : Nat) : Nat :=
  ((aliveRows rows (aliveMask device)).map fun r => count c (sourceRow context device r)).sum

/-! ## Host -/

def remapColumn (colWeight : Nat → Nat) (columns : ((Nat → Nat) × Nat) × List Nat) (c : Nat) :
    ((Nat → Nat) × Nat) × List Nat :=
  (assignColumn colWeight columns.1 c, if 0 < colWeight c then columns.2 ++ [c] else columns.2)

def remapColumns (nCols : Nat) (colWeight : Nat → Nat) : ((Nat → Nat) × Nat) × List Nat :=
  (List.range nCols).foldl (remapColumn colWeight) ((fun _ => 0xFFFFFFFF, 0), [])

structure CompactResult where
  csr : DevicePackedCsr
  rowMap : List Nat
  colMap : List Nat
  gf2NCols : Nat
deriving DecidableEq

def gpuCompactPackedCSR (matrix : PackedCsr rows) (device : Device rows) : CompactResult :=
  if rows = 0 then ⟨⟨[], 0⟩, [], [], 0⟩
  else
    let mask := aliveMask device
    let place := exclusiveScan fun r => (mask r).toNat
    let nAlive := place (rows - 1) + (mask (rows - 1)).toNat
    let columns := remapColumns matrix.nCols
      (aliveColWeight entryCount matrix.toContext device)
    { csr := {
        rows := (List.range nAlive).map (scatter mask place
          (fun r => (sourceRow matrix.toContext device r).remap columns.1.1) rows
          fun _ => emptyPackedRow)
        nCols := columns.1.2 }
      rowMap := (List.range nAlive).map (scatter mask place id rows fun _ => 0)
      colMap := columns.2
      gf2NCols := (List.range matrix.nCols).countP fun c =>
        0 < aliveColWeight oddCount matrix.toContext device c }

/-! ## The loops -/

theorem remapColumns_eq (nCols : Nat) (colWeight : Nat → Nat) :
    remapColumns nCols colWeight = (compactColumns nCols colWeight, keptCols colWeight nCols) := by
  induction nCols with
  | zero => rfl
  | succ nCols induction =>
    unfold remapColumns compactColumns keptCols at induction ⊢
    rw [List.range_succ, List.foldl_append, List.foldl_append, List.filter_append, induction]
    by_cases kept : 0 < colWeight nCols <;> simp [remapColumn, kept]

variable {matrix : PackedCsr rows} {device : Device rows}

def aliveSources (context : Context rows) (device : Device rows) : List PackedRow :=
  (aliveRows rows (aliveMask device)).map (sourceRow context device)

theorem mem_aliveMask {r : Nat} : r ∈ aliveRows rows (aliveMask device) ↔
    ∃ inside : r < rows, (device.rowPtr ⟨r, inside⟩).isSome := by
  rw [mem_aliveRows]
  constructor
  · rintro ⟨inside, alive⟩
    rw [aliveMask, aliveAt, dif_pos inside] at alive
    exact ⟨inside, alive⟩
  · rintro ⟨inside, alive⟩
    rw [aliveMask, aliveAt, dif_pos inside]
    exact ⟨inside, alive⟩

variable {context : Context rows}

theorem table_sourceRow {r : Nat} (inside : r < rows) (alive : (device.rowPtr ⟨r, inside⟩).isSome) :
    device.table context ⟨r, inside⟩ = some (sourceRow context device r) := by
  rw [sourceRow, dif_pos inside]
  rcases Option.isSome_iff_exists.mp alive with ⟨ptr, isPtr⟩
  rw [Device.table, isPtr]
  rfl

variable {packed : PackedRow}

theorem mem_aliveSources (member : packed ∈ aliveSources context device) :
    ∃ row, device.table context row = some packed := by
  rcases List.mem_map.mp member with ⟨r, isAlive, rfl⟩
  rcases mem_aliveMask.mp isAlive with ⟨inside, alive⟩
  exact ⟨⟨r, inside⟩, table_sourceRow inside alive⟩

theorem Reached.column_lt (reached : Reached matrix.toContext device) {row : Fin rows}
    (isRow : device.table matrix.toContext row = some packed) :
    ∀ entry ∈ packed.entries, entry.1 < matrix.nCols := by
  induction reached generalizing row packed with
  | fresh workspace =>
    injection isRow with equal
    exact equal ▸ matrix.column_lt row
  | @launch device candidates reached schedule finished induction =>
    rcases executeMerges_launched ⟨matrix.toContext, device, candidates⟩ reached schedule
      finished with ⟨order, launched⟩
    have isSerial := isRow
    rw [launched.table] at isSerial
    exact @RowJoin.replay_forall _ _ _ _ _ _
      (fun packed => ∀ entry ∈ packed.entries, entry.1 < matrix.nCols)
      (fun left right => @forall_col_join _ (· < matrix.nCols) left right)
      (fun row packed => induction) _ _ isSerial

private theorem aliveColWeight_pos (member : packed ∈ aliveSources context device)
    {entry : PackedEntry}
    (inside : entry ∈ packed.entries) : 0 < aliveColWeight entryCount context device entry.1 := by
  rcases List.mem_map.mp member with ⟨r, isAlive, rfl⟩
  have counted : 0 < entryCount entry.1 (sourceRow context device r) :=
    List.countP_pos_iff.mpr ⟨entry, inside, beq_self_eq_true _⟩
  exact counted.trans_le (List.le_sum_of_mem (List.mem_map_of_mem isAlive))

theorem Reached.renumbers (reached : Reached matrix.toContext device) :
    Renumbers (aliveColWeight entryCount matrix.toContext device) matrix.nCols
      (aliveSources matrix.toContext device) where
  ascending packed member := by
    rcases mem_aliveSources member with ⟨row, isRow⟩
    exact reached.ascending isRow
  column_lt packed member := by
    rcases mem_aliveSources member with ⟨row, isRow⟩
    exact reached.column_lt isRow
  kept packed member entry inside := aliveColWeight_pos member inside

/-! ## What is written -/

private theorem scan_aliveMask (someRows : rows ≠ 0) :
    exclusiveScan (fun r => (aliveMask device r).toNat) (rows - 1) +
      (aliveMask device (rows - 1)).toNat = (aliveRows rows (aliveMask device)).length := by
  rw [← exclusiveScan_succ fun r => (aliveMask device r).toNat,
    Nat.sub_add_cancel (Nat.one_le_iff_ne_zero.mpr someRows), exclusiveScan_toNat, aliveRows]

theorem gpuCompactPackedCSR_eq (reached : Reached matrix.toContext device) :
    gpuCompactPackedCSR matrix device = {
      csr := .renumber (aliveColWeight entryCount matrix.toContext device) matrix.nCols
        (aliveSources matrix.toContext device)
      rowMap := aliveRows rows (aliveMask device)
      colMap := keptCols (aliveColWeight entryCount matrix.toContext device) matrix.nCols
      gf2NCols := (List.range matrix.nCols).countP fun c =>
        0 < aliveColWeight oddCount matrix.toContext device c } := by
  unfold gpuCompactPackedCSR
  split
  next noRows =>
    subst noRows
    simp [aliveSources, aliveRows, DevicePackedCsr.renumber, aliveColWeight, keptBelow, keptCols]
  next someRows =>
    dsimp only
    have remaps : ∀ packed ∈ aliveSources matrix.toContext device,
        packed.remap (compactColumns matrix.nCols
          (aliveColWeight entryCount matrix.toContext device)).1 =
          packed.remap (keptBelow (aliveColWeight entryCount matrix.toContext device)) := by
      intro packed member
      unfold PackedRow.remap
      congr 1
      apply List.map_congr_left
      intro entry inside
      rw [(compactColumns_eq _ _).2 entry.1 (reached.renumbers.column_lt packed member entry inside)
        (reached.renumbers.kept packed member entry inside)]
    rw [scan_aliveMask someRows, remapColumns_eq, aliveRows, map_scatter_scan, map_scatter_scan,
      List.map_id, (compactColumns_eq _ _).1, DevicePackedCsr.renumber,
      ← List.map_congr_left remaps, aliveSources, List.map_map]
    rfl

theorem length_rows_gpuCompactPackedCSR (reached : Reached matrix.toContext device) :
    (gpuCompactPackedCSR matrix device).csr.rows.length ≤ rows := by
  have fewer := List.length_filter_le (aliveMask device) (List.range rows)
  rw [gpuCompactPackedCSR_eq reached]
  simpa [DevicePackedCsr.renumber, aliveSources, aliveRows] using fewer

structure Relocated (matrix : PackedCsr rows) (device : Device rows) (csr : DevicePackedCsr)
    (rowMap colMap : List Nat) : Prop where
  wellFormed : csr.WellFormed
  ascending : rowMap.Pairwise (· < ·)
  rows_length : csr.rows.length = rowMap.length
  columns_length : csr.nCols = colMap.length
  columns_ascending : colMap.Pairwise (· < ·)
  column_lt : ∀ c ∈ colMap, c < matrix.nCols
  row : ∀ {i r}, rowMap[i]? = some r → ∃ inside : r < rows,
    device.table matrix.toContext ⟨r, inside⟩ = some ((csr.rowAt i).remap fun c => colMap.getD c 0)

theorem remap_remap (newCol oldCol : Nat → Nat) (packed : PackedRow) :
    (packed.remap newCol).remap oldCol = packed.remap (oldCol ∘ newCol) := by
  unfold PackedRow.remap
  rw [List.map_map]
  rfl

theorem remap_eq_self {newCol : Nat → Nat}
    (same : ∀ entry ∈ packed.entries, newCol entry.1 = entry.1) : packed.remap newCol = packed := by
  have entries : packed.entries.map (fun entry => (newCol entry.1, entry.2)) = packed.entries := by
    apply (List.map_congr_left fun entry inside => ?_).trans (List.map_id _)
    rw [same entry inside]
    rfl
  rw [PackedRow.remap, entries]

private theorem remap_rowAt_renumber {colWeight : Nat → Nat} {nCols : Nat}
    {sources : List PackedRow}
    (renumbers : Renumbers colWeight nCols sources) {i : Nat} (isRow : sources[i]? = some packed) :
    ((DevicePackedCsr.renumber colWeight nCols sources).rowAt i).remap
      (fun c => (keptCols colWeight nCols).getD c 0) = packed := by
  rcases List.getElem?_eq_some_iff.mp isRow with ⟨inside, rfl⟩
  have isSource := List.getElem_mem inside
  rw [DevicePackedCsr.rowAt, DevicePackedCsr.renumber,
    List.getD_eq_getElem _ _ (by simpa using inside), List.getElem_map, remap_remap]
  apply remap_eq_self
  intro entry member
  have kept := getElem?_keptCols (renumbers.column_lt _ isSource entry member)
    (renumbers.kept _ isSource entry member)
  rw [Function.comp_apply, List.getD_eq_getElem?_getD, kept, Option.getD_some]

theorem relocated_renumber {colWeight : Nat → Nat} {rowAlive : Nat → Bool} {rowAt : Nat → PackedRow}
    (renumbers : Renumbers colWeight matrix.nCols ((aliveRows rows rowAlive).map rowAt))
    (isRow : ∀ r ∈ aliveRows rows rowAlive, ∃ inside : r < rows,
      device.table matrix.toContext ⟨r, inside⟩ = some (rowAt r)) :
    Relocated matrix device (.renumber colWeight matrix.nCols ((aliveRows rows rowAlive).map rowAt))
      (aliveRows rows rowAlive) (keptCols colWeight matrix.nCols) where
  wellFormed := renumbers.wellFormed
  ascending := List.pairwise_lt_range.filter _
  rows_length := by rw [DevicePackedCsr.renumber, List.length_map, List.length_map]
  columns_length := length_keptCols.symm
  columns_ascending := List.pairwise_lt_range.filter _
  column_lt c member := List.mem_range.mp (List.mem_of_mem_filter member)
  row := by
    intro i r isPlace
    rcases isRow r (List.mem_of_getElem? isPlace) with ⟨inside, isTable⟩
    refine ⟨inside, ?_⟩
    rw [isTable, remap_rowAt_renumber renumbers]
    rw [List.getElem?_map, isPlace, Option.map_some]

theorem gpuCompactPackedCSR_relocated (reached : Reached matrix.toContext device) :
    Relocated matrix device (gpuCompactPackedCSR matrix device).csr
      (gpuCompactPackedCSR matrix device).rowMap (gpuCompactPackedCSR matrix device).colMap := by
  rw [gpuCompactPackedCSR_eq reached]
  apply relocated_renumber reached.renumbers
  intro r isAlive
  rcases mem_aliveMask.mp isAlive with ⟨inside, alive⟩
  exact ⟨inside, table_sourceRow inside alive⟩

end CudaMpqs.BatchMerge
