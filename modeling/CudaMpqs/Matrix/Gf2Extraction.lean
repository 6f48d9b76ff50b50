import CudaMpqs.Matrix.MergeHistory

/-! # Extraction of the binary matrix

`gpuExtractGF2` keeps the columns with odd exponents of the alive rows. Its matrix is the
one that plain XOR merges of the original binary rows give, without the empty columns. -/

namespace CudaMpqs

namespace PackedRow

def oddCols (packed : PackedRow) : List Nat := (packed.entries.filter oddExp).map Prod.fst

theorem Ascending.oddCols {packed : PackedRow} (ascending : packed.Ascending) :
    packed.oddCols.Pairwise (· < ·) :=
  List.pairwise_map.mpr (ascending.filter _)

theorem entry_oddCols {packed : PackedRow} (ascending : packed.Ascending) (c : Nat) :
    HostMatrixCSR.entry packed.oddCols c = packed.parity c := by
  have counted : packed.oddCols.count c = packed.oddCount c := by
    rw [PackedRow.oddCols, List.count, List.countP_map, List.countP_filter]
    rfl
  rw [parity_eq_oddCount, ← counted, HostMatrixCSR.entry]
  have nodup : packed.oddCols.Nodup := ascending.oddCols.imp fun less => less.ne
  split
  · rename_i present
    rw [List.count_eq_one_of_mem nodup present, Nat.cast_one]
  · rename_i absent
    rw [List.count_eq_zero_of_not_mem absent, Nat.cast_zero]

end PackedRow

namespace BatchMerge

open Combine Function Transition PackedRow RowJoin StreamCompaction

variable {rows : Nat}

/-! ## Host -/

structure Gf2ExtractionResult where
  gf2Csr : HostMatrixCSR
  rowMap : List Nat
  gf2Nnz : Nat
deriving DecidableEq

def alivePtrs (device : Device rows) : List (Fin rows × RowPtr rows) :=
  (List.finRange rows).filterMap fun r => (device.rowPtr r).map fun ptr => (r, ptr)

/-- The renumbering of step 9, which drops the columns without entries. -/
def compactGf2Columns (csr : HostMatrixCSR) : HostMatrixCSR :=
  let nColsOrig := csr.colIndices.foldl max 0 + 1
  let columns := compactColumns nColsOrig fun c => csr.colIndices.count c
  { csr with
    colIndices :=
      if 0 < nColsOrig - columns.2 then csr.colIndices.map columns.1 else csr.colIndices
    nCols := columns.2 }

structure ExtractionBuffers where
  flatEntries : Nat → PackedEntry
  gf2ColIndices : Nat → Nat

def flatRow (matrix : PackedCsr rows) (device : Device rows) (i : Nat) : List PackedEntry :=
  ((alivePtrs device)[i]?.map fun entry =>
    (resolve matrix.toContext device.workspace entry.2).entries).getD []

def gpuExtractGF2 (matrix : PackedCsr rows) (device : Device rows) (buffers : ExtractionBuffers) :
    Gf2ExtractionResult :=
  let alive := alivePtrs device
  let nAlive := alive.length
  if nAlive = 0 then ⟨⟨[], [], 0, 0⟩, [], 0⟩
  else
    let rowLengths := fun i => (flatRow matrix device i).length
    let flatRowOffsets := exclusiveScan rowLengths
    let flatEntries := writeRows flatRowOffsets (flatRow matrix device) nAlive buffers.flatEntries
    let flat := fun i => (List.range' (flatRowOffsets i) (flatRowOffsets (i + 1) -
      flatRowOffsets i)).map flatEntries
    let gf2Counts := fun i => (flat i).countP oddExp
    let gf2RowOffsets := exclusiveScan gf2Counts
    let gf2Nnz := gf2RowOffsets (nAlive - 1) + gf2Counts (nAlive - 1)
    let gf2ColIndices := writeRows gf2RowOffsets
      (fun i => ((flat i).filter oddExp).map Prod.fst) nAlive buffers.gf2ColIndices
    { gf2Csr := compactGf2Columns {
        rowOffsets := (List.range (nAlive + 1)).map (update gf2RowOffsets nAlive gf2Nnz)
        colIndices := (List.range gf2Nnz).map gf2ColIndices
        nRows := nAlive
        nCols := 0 }
      rowMap := alive.map fun entry => entry.1.val
      gf2Nnz := gf2Nnz }

/-! ## What is extracted -/

def gf2Rows (matrix : PackedCsr rows) (device : Device rows) : List (List Nat) :=
  (alivePtrs device).map fun entry =>
    (resolve matrix.toContext device.workspace entry.2).oddCols

variable {matrix : PackedCsr rows} {device : Device rows}

theorem length_gf2Rows : (gf2Rows matrix device).length = (alivePtrs device).length :=
  List.length_map _

private theorem getD_gf2Rows {i : Nat} (inside : i < (alivePtrs device).length) :
    (gf2Rows matrix device).getD i [] = ((flatRow matrix device i).filter oddExp).map Prod.fst := by
  rw [gf2Rows, flatRow, List.getD_eq_getElem _ _ (by simpa using inside), List.getElem_map,
    List.getElem?_eq_getElem inside]
  rfl

/-- The kernels write the binary rows, and step 9 renumbers their columns. -/
theorem gpuExtractGF2_eq (buffers : ExtractionBuffers) (someRows : alivePtrs device ≠ []) :
    (gpuExtractGF2 matrix device buffers).gf2Csr =
        compactGf2Columns (HostMatrixCSR.ofRows 0 (gf2Rows matrix device)) ∧
      (gpuExtractGF2 matrix device buffers).rowMap =
        (alivePtrs device).map fun entry => entry.1.val := by
  have positive : 0 < (alivePtrs device).length := List.length_pos_iff.mpr someRows
  unfold gpuExtractGF2
  simp only [if_neg positive.ne', and_true]
  congr 1
  let flat := fun i => (List.range'
    (exclusiveScan (fun i => (flatRow matrix device i).length) i)
    (exclusiveScan (fun i => (flatRow matrix device i).length) (i + 1) -
      exclusiveScan (fun i => (flatRow matrix device i).length) i)).map
        (writeRows (exclusiveScan fun i => (flatRow matrix device i).length)
          (flatRow matrix device) (alivePtrs device).length buffers.flatEntries)
  have isFlat : ∀ i < (alivePtrs device).length, flat i = flatRow matrix device i := by
    intro i inside
    have start := exclusiveScan_succ (fun i => (flatRow matrix device i).length) i
    simp only [flat]
    rw [start, Nat.add_sub_cancel_left, readRow_writeRows_scan _ _ _ inside]
  change HostMatrixCSR.mk ((List.range _).map (update (exclusiveScan fun i =>
    (flat i).countP oddExp) _ (exclusiveScan (fun i => (flat i).countP oddExp) _ +
      (flat _).countP oddExp))) ((List.range _).map (writeRows (exclusiveScan fun i =>
        (flat i).countP oddExp) (fun i => ((flat i).filter oddExp).map Prod.fst) _ _)) _ 0 = _
  rw [← exclusiveScan_succ fun i => (flat i).countP oddExp, Nat.sub_add_cancel positive,
    Function.update_eq_self, ← length_gf2Rows, HostMatrixCSR.ofRows_eq_written 0
      (gf2Rows matrix device) buffers.gf2ColIndices]
  · intro i inside
    rw [length_gf2Rows] at inside
    rw [isFlat i inside, getD_gf2Rows inside]
  · intro i inside
    rw [length_gf2Rows] at inside
    rw [isFlat i inside, getD_gf2Rows inside, List.length_map, List.countP_eq_length_filter]

/-! ## Renumbering -/

section Renumbering

variable {colWeight : Nat → Nat} {nCols : Nat}

theorem keptBelow_eq_self (all : keptBelow colWeight nCols = nCols) {c : Nat} (inside : c < nCols) :
    keptBelow colWeight c = c := by
  have every : ∀ c' ∈ List.range nCols, 0 < colWeight c' := by
    rw [keptBelow] at all
    simpa using List.countP_eq_length.mp (all.trans List.length_range.symm)
  rw [keptBelow, List.countP_eq_length.mpr, List.length_range]
  intro c' member
  exact decide_eq_true (every c' (List.mem_range.mpr ((List.mem_range.mp member).trans inside)))

theorem keptBelow_getElem {i : Nat} (inside : i < (keptCols colWeight nCols).length) :
    keptBelow colWeight (keptCols colWeight nCols)[i] = i := by
  rcases List.mem_filter.mp (List.getElem_mem inside) with ⟨bounded, kept⟩
  have found := getElem?_keptCols (List.mem_range.mp bounded) (of_decide_eq_true kept)
  have nodup : (keptCols colWeight nCols).Nodup := List.nodup_range.filter _
  have bound := (List.getElem?_eq_some_iff.mp found).1
  exact (List.getElem?_inj bound nodup).mp (found.trans (List.getElem?_eq_getElem inside).symm)

end Renumbering

def listWeight (rows : List (List Nat)) (c : Nat) : Nat := rows.flatten.count c

def listBound (rows : List (List Nat)) : Nat := rows.flatten.foldl max 0 + 1

theorem le_foldl_max {items : List Nat} {c : Nat} (start : Nat) (present : c ∈ items) :
    c ≤ items.foldl max start := by
  have grows : ∀ (items : List Nat) (start : Nat), start ≤ items.foldl max start := by
    intro items
    induction items with
    | nil => exact fun start => le_rfl
    | cons item items induction => exact fun start => (le_max_left _ _).trans (induction _)
  induction items generalizing start with
  | nil => cases present
  | cons item items induction =>
    rcases List.mem_cons.mp present with rfl | later
    · exact (le_max_right _ _).trans (grows items _)
    · exact induction _ later

theorem kept_of_mem {rows : List (List Nat)} {cols : List Nat} (isRow : cols ∈ rows) {c : Nat}
    (present : c ∈ cols) : c < listBound rows ∧ 0 < listWeight rows c := by
  have inside : c ∈ rows.flatten := List.mem_flatten.mpr ⟨cols, isRow, present⟩
  exact ⟨Nat.lt_succ_of_le (le_foldl_max 0 inside), List.count_pos_iff.mpr inside⟩

theorem compactGf2Columns_ofRows (rows : List (List Nat)) :
    compactGf2Columns (HostMatrixCSR.ofRows 0 rows) =
      HostMatrixCSR.ofRows (keptBelow (listWeight rows) (listBound rows))
        (rows.map (List.map (keptBelow (listWeight rows)))) := by
  have columns : (if 0 < listBound rows - keptBelow (listWeight rows) (listBound rows) then
        rows.flatten.map (compactColumns (listBound rows) (listWeight rows)).1 else rows.flatten) =
      rows.flatten.map (keptBelow (listWeight rows)) := by
    have kept : ∀ c ∈ rows.flatten, c < listBound rows ∧ 0 < listWeight rows c := by
      intro c present
      rcases List.mem_flatten.mp present with ⟨cols, isRow, inside⟩
      exact kept_of_mem isRow inside
    split
    · apply List.map_congr_left
      intro c present
      exact (compactColumns_eq _ _).2 c (kept c present).1 (kept c present).2
    · rename_i none
      have atMost : keptBelow (listWeight rows) (listBound rows) ≤ listBound rows :=
        List.countP_le_length.trans_eq List.length_range
      refine (List.map_id _).symm.trans (List.map_congr_left fun c present => ?_)
      exact (keptBelow_eq_self (by omega) (kept c present).1).symm
  have lengths : (rows.map (List.map (keptBelow (listWeight rows)))).map List.length =
      rows.map List.length := by
    rw [List.map_map]
    exact List.map_congr_left fun cols _ => List.length_map _
  rw [HostMatrixCSR.ofRows_eq, HostMatrixCSR.ofRows_eq, lengths, List.length_map]
  change HostMatrixCSR.mk _ (if 0 < listBound rows - (compactColumns (listBound rows)
    (listWeight rows)).2 then rows.flatten.map (compactColumns (listBound rows)
      (listWeight rows)).1 else rows.flatten) _ (compactColumns (listBound rows)
        (listWeight rows)).2 = _
  rw [(compactColumns_eq _ _).1, columns, List.map_flatten]

/-! ## Refinement -/

/-- The matrix has these binary rows, up to the names of the columns that are not empty. -/
structure IsRenaming (csr : HostMatrixCSR) (binaryRows : List (Nat → ZMod 2))
    (colOf : Nat → Nat) : Prop where
  nRows : csr.nRows = binaryRows.length
  ascending : ∀ i < csr.nRows, (csr.row i).Pairwise (· < ·)
  column_lt : ∀ i < csr.nRows, ∀ c ∈ csr.row i, c < csr.nCols
  nonempty : ∀ c < csr.nCols, ∃ i < csr.nRows, c ∈ csr.row i
  monotone : StrictMonoOn colOf (Set.Iio csr.nCols)
  entry : ∀ {i : Nat} {binaryRow : Nat → ZMod 2}, binaryRows[i]? = some binaryRow → ∀ c < csr.nCols,
    HostMatrixCSR.entry (csr.row i) c = binaryRow (colOf c)
  dropped : ∀ {i : Nat} {binaryRow : Nat → ZMod 2}, binaryRows[i]? = some binaryRow → ∀ c,
    (∀ newCol < csr.nCols, colOf newCol ≠ c) → binaryRow c = 0

def survivingRows (device : Device rows) : List (Fin rows) :=
  (List.finRange rows).filter fun r => (device.rowPtr r).isSome

theorem map_fst_alivePtrs (device : Device rows) :
    (alivePtrs device).map Prod.fst = survivingRows device := by
  rw [alivePtrs, survivingRows]
  induction List.finRange rows with
  | nil => rfl
  | cons r rest induction =>
    cases isPtr : device.rowPtr r <;> simp [isPtr, induction]

theorem mem_alivePtrs {entry : Fin rows × RowPtr rows} (member : entry ∈ alivePtrs device) :
    device.table matrix.toContext entry.1 =
      some (resolve matrix.toContext device.workspace entry.2) := by
  rcases List.mem_filterMap.mp member with ⟨r, -, isEntry⟩
  rcases Option.map_eq_some_iff.mp isEntry with ⟨ptr, isPtr, rfl⟩
  rw [Device.table, isPtr]
  rfl

theorem exists_odd_of_parity {packed : PackedRow} {c : Nat} (odd : packed.parity c ≠ 0) :
    ∃ entry ∈ packed.entries, entry.1 = c ∧ oddExp entry = true := by
  rw [parity_eq_oddCount] at odd
  have positive : 0 < packed.oddCount c := by
    by_contra none
    rw [Nat.eq_zero_of_not_pos none] at odd
    exact odd rfl
  rcases List.countP_pos_iff.mp positive with ⟨entry, member, selected⟩
  rw [Bool.and_eq_true, beq_iff_eq] at selected
  exact ⟨entry, member, selected⟩

section Compacted

variable {packedRows : List PackedRow} {colMap : List Nat}

def oddWeight (packedRows : List PackedRow) : Nat → Nat := listWeight (packedRows.map oddCols)

def oddBound (packedRows : List PackedRow) : Nat := listBound (packedRows.map oddCols)

theorem kept_oddCols {packed : PackedRow} (isRow : packed ∈ packedRows) {c : Nat}
    (present : c ∈ packed.oddCols) : c < oddBound packedRows ∧ 0 < oddWeight packedRows c :=
  kept_of_mem (List.mem_map_of_mem isRow) present

theorem exists_of_oddWeight {c : Nat} (kept : 0 < oddWeight packedRows c) :
    ∃ packed ∈ packedRows, c ∈ packed.oddCols := by
  rcases List.mem_flatten.mp (List.count_pos_iff.mp kept) with ⟨cols, isCols, present⟩
  rcases List.mem_map.mp isCols with ⟨packed, isRow, rfl⟩
  exact ⟨packed, isRow, present⟩

theorem mem_oddCols_lt (column_lt : ∀ packed ∈ packedRows, ∀ entry ∈ packed.entries,
    entry.1 < colMap.length) {packed : PackedRow} (isRow : packed ∈ packedRows) {c : Nat}
    (present : c ∈ packed.oddCols) : c < colMap.length := by
  rcases List.mem_map.mp present with ⟨entry, member, rfl⟩
  exact column_lt packed isRow entry (List.mem_of_mem_filter member)

theorem compactGf2Columns_oddCols (packedRows : List PackedRow) :
    compactGf2Columns (HostMatrixCSR.ofRows 0 (packedRows.map oddCols)) =
      HostMatrixCSR.ofRows (keptBelow (oddWeight packedRows) (oddBound packedRows))
        ((packedRows.map oddCols).map (List.map (keptBelow (oddWeight packedRows)))) :=
  compactGf2Columns_ofRows _

theorem exists_oldCol {newCol : Nat}
    (inside : newCol < keptBelow (oddWeight packedRows) (oddBound packedRows)) :
    ∃ c, (keptCols (oddWeight packedRows) (oddBound packedRows)).getD newCol 0 = c ∧
      0 < oddWeight packedRows c ∧ keptBelow (oddWeight packedRows) c = newCol := by
  rw [← length_keptCols] at inside
  rcases List.mem_filter.mp (List.getElem_mem inside) with ⟨-, kept⟩
  exact ⟨_, List.getD_eq_getElem _ _ inside, of_decide_eq_true kept, keptBelow_getElem inside⟩

private theorem colMap_injective (mapAscending : colMap.Pairwise (· < ·)) {c c' : Nat}
    (inside : c < colMap.length) (inside' : c' < colMap.length)
    (same : colMap.getD c 0 = colMap.getD c' 0) : c = c' := by
  have nodup : colMap.Nodup := mapAscending.imp fun less => less.ne
  rw [List.getD_eq_getElem _ _ inside, List.getD_eq_getElem _ _ inside'] at same
  exact (nodup.getElem_inj_iff).mp same

theorem parity_original (mapAscending : colMap.Pairwise (· < ·)) {packed : PackedRow}
    (column_lt : ∀ entry ∈ packed.entries, entry.1 < colMap.length) {c : Nat}
    (inside : c < colMap.length) :
    (packed.remap fun c => colMap.getD c 0).parity (colMap.getD c 0) = packed.parity c := by
  refine @parity_remap (fun c => colMap.getD c 0) packed c fun entry member same => ?_
  exact colMap_injective mapAscending (column_lt entry member) inside same

/-- Binary rows whose columns are renumbered as step 9 does. -/
theorem isRenaming_compacted (ascending : ∀ packed ∈ packedRows, packed.Ascending)
    (column_lt : ∀ packed ∈ packedRows, ∀ entry ∈ packed.entries, entry.1 < colMap.length)
    (mapAscending : colMap.Pairwise (· < ·)) :
    IsRenaming (compactGf2Columns (HostMatrixCSR.ofRows 0 (packedRows.map oddCols)))
      (packedRows.map fun packed => (packed.remap fun c => colMap.getD c 0).parity)
      fun c => colMap.getD
        ((keptCols (oddWeight packedRows) (oddBound packedRows)).getD c 0) 0 := by
  have size : ((packedRows.map oddCols).map
      (List.map (keptBelow (oddWeight packedRows)))).length = packedRows.length := by simp
  have row : ∀ {i packed}, packedRows[i]? = some packed →
      (compactGf2Columns (HostMatrixCSR.ofRows 0 (packedRows.map oddCols))).row i =
        packed.oddCols.map (keptBelow (oddWeight packedRows)) := by
    intro i packed isRow
    rcases List.getElem?_eq_some_iff.mp isRow with ⟨inside, value⟩
    rw [compactGf2Columns_oddCols, HostMatrixCSR.row_ofRows _ _ (inside.trans_eq size.symm),
      List.getD_eq_getElem _ _ (inside.trans_eq size.symm), List.getElem_map, List.getElem_map,
      value]
  have wellFormed : (compactGf2Columns
      (HostMatrixCSR.ofRows 0 (packedRows.map oddCols))).WellFormed := by
    rw [compactGf2Columns_oddCols]
    apply HostMatrixCSR.wellFormed_ofRows
    · intro cols isCols newCol present
      rcases List.mem_map.mp isCols with ⟨old, isOld, rfl⟩
      rcases List.mem_map.mp isOld with ⟨packed, isRow, rfl⟩
      rcases List.mem_map.mp present with ⟨c, isOdd, rfl⟩
      exact keptBelow_lt (kept_oddCols isRow isOdd).1 (kept_oddCols isRow isOdd).2
    · intro cols isCols
      rcases List.mem_map.mp isCols with ⟨old, isOld, rfl⟩
      rcases List.mem_map.mp isOld with ⟨packed, isRow, rfl⟩
      apply List.pairwise_map.mpr
      refine (ascending packed isRow).oddCols.imp_of_mem ?_
      intro c c' isOdd _ less
      exact keptBelow_lt less (kept_oddCols isRow isOdd).2
  have nRows : (compactGf2Columns (HostMatrixCSR.ofRows 0 (packedRows.map oddCols))).nRows =
      packedRows.length := by
    rw [compactGf2Columns_oddCols, HostMatrixCSR.nRows_ofRows, size]
  have nCols : (compactGf2Columns (HostMatrixCSR.ofRows 0 (packedRows.map oddCols))).nCols =
      keptBelow (oddWeight packedRows) (oddBound packedRows) := by
    rw [compactGf2Columns_oddCols, HostMatrixCSR.nCols_ofRows]
  constructor
  · rw [nRows, List.length_map]
  · exact wellFormed.ascending
  · exact wellFormed.bound
  · intro newCol inside
    rw [nCols] at inside
    rcases exists_oldCol inside with ⟨c, -, kept, rfl⟩
    rcases exists_of_oddWeight kept with ⟨packed, isRow, isOdd⟩
    rcases List.getElem_of_mem isRow with ⟨i, bound, value⟩
    refine ⟨i, bound.trans_eq nRows.symm, ?_⟩
    rw [row (List.getElem?_eq_some_iff.mpr ⟨bound, value⟩)]
    exact List.mem_map_of_mem isOdd
  · intro newCol inside newCol' inside' less
    rw [Set.mem_Iio, nCols] at inside inside'
    rcases exists_oldCol inside with ⟨c, isOld, kept, isNew⟩
    rcases exists_oldCol inside' with ⟨c', isOld', kept', isNew'⟩
    rcases exists_of_oddWeight kept with ⟨packed, isRow, isOdd⟩
    rcases exists_of_oddWeight kept' with ⟨packed', isRow', isOdd'⟩
    have oldLess : c < c' := by
      by_contra notLess
      rcases Nat.eq_or_lt_of_not_lt notLess with same | greater
      · subst same
        omega
      · have reversed := keptBelow_lt greater kept'
        omega
    dsimp only
    rw [isOld, isOld', List.getD_eq_getElem _ _ (mem_oddCols_lt column_lt isRow isOdd),
      List.getD_eq_getElem _ _ (mem_oddCols_lt column_lt isRow' isOdd')]
    exact List.pairwise_iff_getElem.mp mapAscending _ _ _ _ oldLess
  · intro i binaryRow isBinary newCol inside
    rw [List.getElem?_map, Option.map_eq_some_iff] at isBinary
    rcases isBinary with ⟨packed, isPacked, rfl⟩
    rw [nCols] at inside
    rcases exists_oldCol inside with ⟨c, isOld, kept, rfl⟩
    rcases exists_of_oddWeight kept with ⟨other, isOther, isOdd⟩
    have isRow := List.mem_of_getElem? isPacked
    rw [isOld, parity_original mapAscending (column_lt packed isRow)
      (mem_oddCols_lt column_lt isOther isOdd), ← entry_oddCols (ascending packed isRow),
      row isPacked,
      HostMatrixCSR.entry, HostMatrixCSR.entry]
    refine if_congr ⟨fun present => ?_, List.mem_map_of_mem⟩ rfl rfl
    rcases List.mem_map.mp present with ⟨c', isOdd', same⟩
    rwa [← keptBelow_injective (kept_oddCols isRow isOdd').2 kept same]
  · intro i binaryRow isBinary c outside
    rw [List.getElem?_map, Option.map_eq_some_iff] at isBinary
    rcases isBinary with ⟨packed, isPacked, rfl⟩
    have isRow := List.mem_of_getElem? isPacked
    by_contra odd
    rcases exists_odd_of_parity odd with ⟨entry, member, isCol, isOdd⟩
    rcases List.mem_map.mp member with ⟨oldEntry, isEntry, rfl⟩
    have present : oldEntry.1 ∈ packed.oddCols :=
      List.mem_map_of_mem (List.mem_filter.mpr ⟨isEntry, isOdd⟩)
    have kept := kept_oddCols isRow present
    refine outside (keptBelow (oddWeight packedRows) oldEntry.1)
      ((keptBelow_lt kept.1 kept.2).trans_eq nCols.symm) ?_
    have isOld : (keptCols (oddWeight packedRows) (oddBound packedRows)).getD
        (keptBelow (oddWeight packedRows) oldEntry.1) 0 = oldEntry.1 := by
      rw [List.getD_eq_getElem?_getD, getElem?_keptCols kept.1 kept.2]
      rfl
    rw [isOld]
    exact isCol

end Compacted

def aliveRowsOf (matrix : PackedCsr rows) (device : Device rows) : List PackedRow :=
  (alivePtrs device).map fun entry => resolve matrix.toContext device.workspace entry.2

theorem mem_aliveRowsOf {packed : PackedRow} (isRow : packed ∈ aliveRowsOf matrix device) :
    ∃ row, device.table matrix.toContext row = some packed := by
  rcases List.mem_map.mp isRow with ⟨entry, member, rfl⟩
  exact ⟨entry.1, mem_alivePtrs member⟩

theorem gf2Rows_eq : gf2Rows matrix device = (aliveRowsOf matrix device).map oddCols := by
  rw [gf2Rows, aliveRowsOf, List.map_map]
  rfl

theorem rowMap_gpuExtractGF2 (buffers : ExtractionBuffers) :
    (gpuExtractGF2 matrix device buffers).rowMap = (survivingRows device).map Fin.val := by
  have names : (alivePtrs device).map (fun entry => entry.1.val) =
      (survivingRows device).map Fin.val := by
    rw [← map_fst_alivePtrs, List.map_map]
    rfl
  by_cases someRows : alivePtrs device = []
  · rw [← names, gpuExtractGF2, someRows]
    rfl
  · rw [← names, (gpuExtractGF2_eq buffers someRows).2]

theorem isRenaming_nil (colOf : Nat → Nat) : IsRenaming ⟨[], [], 0, 0⟩ [] colOf where
  nRows := rfl
  ascending _ inside := absurd inside (Nat.not_lt_zero _)
  column_lt _ inside := absurd inside (Nat.not_lt_zero _)
  nonempty _ inside := absurd inside (Nat.not_lt_zero _)
  monotone _ inside := absurd inside (Nat.not_lt_zero _)
  entry isRow := nomatch isRow
  dropped isRow := nomatch isRow

theorem Histories.map_parity {originals : Nat} {first : PackedCsr originals}
    {Meets : ∀ history : History originals, List (MergeCandidate history.rows) → Prop}
    {history : History originals} (histories : Histories first Meets history) :
    (survivingRows history.device).map (fun row => xorRows first (history.constituents row)) =
      (aliveRowsOf history.matrix history.device).map fun packed =>
        (history.original packed).parity := by
  rw [← map_fst_alivePtrs, aliveRowsOf, List.map_map, List.map_map]
  apply List.map_congr_left
  intro entry member
  exact (histories.parity_original (mem_alivePtrs member)).symm

/-- After any sequence of launches and replacements, the extracted rows are the XORs of the
original binary rows of their constituents, up to the names of the columns. -/
theorem gpuExtractGF2_refines {originals : Nat} {first : PackedCsr originals}
    {history : History originals} (histories : Histories first (fun _ _ => True) history)
    (buffers : ExtractionBuffers) :
    (gpuExtractGF2 history.matrix history.device buffers).rowMap =
        (survivingRows history.device).map Fin.val ∧
      ∃ colOf, IsRenaming (gpuExtractGF2 history.matrix history.device buffers).gf2Csr
        ((survivingRows history.device).map fun row => xorRows first (history.constituents row))
        colOf := by
  refine ⟨rowMap_gpuExtractGF2 buffers, ?_⟩
  rw [histories.map_parity]
  by_cases someRows : alivePtrs history.device = []
  · refine ⟨id, ?_⟩
    rw [gpuExtractGF2, aliveRowsOf, someRows]
    exact isRenaming_nil id
  · have traced := histories.traced
    rw [(gpuExtractGF2_eq buffers someRows).1, gf2Rows_eq]
    refine ⟨_, isRenaming_compacted ?_ ?_ traced.columns_ascending⟩
    · intro packed isRow
      rcases mem_aliveRowsOf isRow with ⟨row, isTable⟩
      exact history.reached.ascending isTable
    · intro packed isRow entry member
      rcases mem_aliveRowsOf isRow with ⟨row, isTable⟩
      rw [traced.columns_length]
      exact history.reached.column_lt isTable entry member

def twinHistory : History 2 :=
  (History.start twinMatrix emptyWorkspace).launched (planWeight2Merges twinMatrix twinDevice)
    twinSchedule (by decide +kernel)

def clearBuffers : ExtractionBuffers := ⟨fun _ => (0, 0), fun _ => 0⟩

theorem gpuExtractGF2_refines_twins : Histories twinMatrix (fun _ _ => True) twinHistory ∧
      (gpuExtractGF2 twinHistory.matrix twinHistory.device clearBuffers).rowMap = [0] ∧
      ∃ colOf, IsRenaming (gpuExtractGF2 twinHistory.matrix twinHistory.device clearBuffers).gf2Csr
        ((survivingRows twinHistory.device).map fun row =>
          xorRows twinMatrix (twinHistory.constituents row)) colOf := by
  have histories : Histories twinMatrix (fun _ _ => True) twinHistory :=
    .launch (.start emptyWorkspace) trivial twinSchedule (by decide +kernel)
  have refines := gpuExtractGF2_refines histories clearBuffers
  have survivors : (survivingRows twinHistory.device).map Fin.val = [0] := by decide +kernel
  exact ⟨histories, refines.1.trans survivors, refines.2⟩

end BatchMerge

end CudaMpqs
