import Mathlib.Algebra.Order.BigOperators.Group.List
import Mathlib.Algebra.Order.Ring.Nat
import CudaMpqs.Foundation.RowStreams
import CudaMpqs.Spmm.ColumnGaps

/-! # Delta-16 streams

Gaps of columns in 16 bits, with an escape pair for each `0xFFFF` that a gap exceeds: the encoder
of `preprocessing.cpp`, the kernels of `device_format_convert.cu` that size and encode a slice on
the device, and `kernel_sparse_delta_16`. -/

namespace CudaMpqs.SparseStreams

open RowStreams ThreadLoops Transition

/-! ## Entries -/

def gapEntries (diff : Nat) : List (BitVec 16) :=
  if 0xFFFF < diff then 0xFFFF :: 0 :: gapEntries (diff - 0xFFFF) else [BitVec.ofNat 16 diff]
termination_by diff
decreasing_by omega

def rowEntries (denseColLimit : Column) (row : List Column) : List (BitVec 16) :=
  (gaps (denseColLimit - 1) (sparseColumns denseColLimit row)).flatMap fun gap =>
    gapEntries gap.toNat

def decodeEntries (escapes : Bool) : Column → List (BitVec 16) → List Column
  | _, [] => []
  | col, [delta] =>
    if delta = 0 then [] else [col + delta.setWidth 32]
  | col, delta :: next :: rest =>
    if escapes && delta = 0xFFFF && next = 0 then
      decodeEntries escapes (col + delta.setWidth 32) rest
    else if delta = 0 then decodeEntries escapes (col + delta.setWidth 32) (next :: rest)
    else (col + delta.setWidth 32) ::
      decodeEntries escapes (col + delta.setWidth 32) (next :: rest)

def kernelSparseDelta16 (stream : Nat → BitVec 16) (offset : Nat → Nat) (denseOffset nCols : Column)
    (row : Nat) : List Column :=
  decodeEntries (decide (65535 < nCols)) (denseOffset - 1)
    (window stream (offset row) (offset (row + 1)))

/-! ### Round trip -/

def Continues (entries : List (BitVec 16)) : Prop := ∀ next ∈ entries.head?, next ≠ 0

theorem ofNat_ne_zero {diff : Nat} (positive : 0 < diff) (small : diff ≤ 0xFFFF) :
    BitVec.ofNat 16 diff ≠ 0 := by
  intro zero
  have value := congrArg BitVec.toNat zero
  rw [BitVec.toNat_ofNat, Nat.mod_eq_of_lt (by omega)] at value
  exact positive.ne' value

theorem setWidth_ofNat {diff : Nat} (small : diff ≤ 0xFFFF) :
    (BitVec.ofNat 16 diff).setWidth 32 = BitVec.ofNat 32 diff := by
  apply BitVec.eq_of_toNat_eq
  rw [BitVec.toNat_setWidth, BitVec.toNat_ofNat, BitVec.toNat_ofNat]
  omega

theorem continues_gapEntries {diff : Nat} (positive : 0 < diff) (rest : List (BitVec 16)) :
    Continues (gapEntries diff ++ rest) := by
  rw [gapEntries]
  split
  · rintro next ⟨⟩
    decide
  next small =>
      rintro next ⟨⟩
      exact ofNat_ne_zero positive (not_lt.mp small)

theorem decodeEntries_single {escapes : Bool} {diff : Nat} (positive : 0 < diff)
    (small : diff ≤ 0xFFFF) (col : Column) {rest : List (BitVec 16)} (continues : Continues rest) :
    decodeEntries escapes col (BitVec.ofNat 16 diff :: rest) =
      (col + BitVec.ofNat 32 diff) :: decodeEntries escapes (col + BitVec.ofNat 32 diff) rest := by
  have nonzero := ofNat_ne_zero positive small
  cases rest with
  | nil => simp only [decodeEntries, if_neg nonzero, setWidth_ofNat small]
  | cons next rest =>
    have marker : ¬ (escapes && BitVec.ofNat 16 diff = 0xFFFF && next = 0) = true := by
      rw [Bool.and_eq_true, decide_eq_true_eq]
      exact fun pair => continues next rfl pair.2
    rw [decodeEntries, if_neg marker, if_neg nonzero, setWidth_ofNat small]

private theorem add_marker (col : Column) {diff : Nat} (large : 0xFFFF ≤ diff) :
    (col + (0xFFFF : BitVec 16).setWidth 32) + BitVec.ofNat 32 (diff - 0xFFFF) =
      col + BitVec.ofNat 32 diff := by
  have marker : (0xFFFF : BitVec 16).setWidth 32 = BitVec.ofNat 32 0xFFFF := by decide
  rw [marker, add_assoc, ← BitVec.ofNat_add, Nat.add_sub_cancel' large]

private theorem decodeEntries_gapEntries (diff : Nat) (positive : 0 < diff) (col : Column)
    {rest : List (BitVec 16)} (continues : Continues rest) :
    decodeEntries true col (gapEntries diff ++ rest) =
      (col + BitVec.ofNat 32 diff) :: decodeEntries true (col + BitVec.ofNat 32 diff) rest := by
  induction diff using Nat.strong_induction_on generalizing col with
  | h diff induction =>
    rw [gapEntries]
    split
    next large =>
        rw [List.cons_append, List.cons_append, decodeEntries, if_pos (by decide),
          induction (diff - 0xFFFF) (by omega) (by omega), add_marker col large.le]
    next small => exact decodeEntries_single positive (not_lt.mp small) col continues

/-- Escapes are only left unread where no gap needs one. -/
theorem decodeEntries_row {escapes : Bool} {gapList : List Column} (col : Column)
    (positive : ∀ gap ∈ gapList, 0 < gap.toNat)
    (small : escapes = false → ∀ gap ∈ gapList, gap.toNat ≤ 0xFFFF) :
    decodeEntries escapes col (gapList.flatMap fun gap => gapEntries gap.toNat) =
      columnsFrom col gapList := by
  induction gapList generalizing col with
  | nil => rw [List.flatMap_nil, decodeEntries, columnsFrom]
  | cons gap rest induction =>
    have own := positive gap List.mem_cons_self
    have continues : Continues (rest.flatMap fun gap => gapEntries gap.toNat) := by
      cases rest with
      | nil =>
        rw [List.flatMap_nil]
        rintro next ⟨⟩
      | cons next later =>
        rw [List.flatMap_cons]
        exact continues_gapEntries (positive next (by simp)) _
    have value : BitVec.ofNat 32 gap.toNat = gap := BitVec.ofNat_toNat _ _
    have later := fun col => induction col
      (fun other member => positive other (List.mem_cons_of_mem _ member))
      fun off other member => small off other (List.mem_cons_of_mem _ member)
    rw [List.flatMap_cons, columnsFrom]
    cases escapes with
    | true => rw [decodeEntries_gapEntries _ own col continues, value, later]
    | false =>
      have narrow := small rfl gap List.mem_cons_self
      rw [gapEntries, if_neg (not_lt.mpr narrow), List.singleton_append,
        decodeEntries_single own narrow col continues, value, later]

theorem decodeEntries_rowEntries {denseColLimit nCols : Column} {row : List Column}
    (ascending : Ascending nCols row) {escapes : Bool}
    (enough : escapes = false → nCols.toNat - denseColLimit.toNat ≤ 0xFFFF) :
    decodeEntries escapes (denseColLimit - 1) (rowEntries denseColLimit row) =
      sparseColumns denseColLimit row := by
  rcases @gaps_sparseColumns denseColLimit _ _ ascending with ⟨positive, total⟩
  rw [rowEntries, decodeEntries_row _ positive, columnsFrom_gaps]
  intro off gap member
  have part := List.le_sum_of_mem (List.mem_map.mpr ⟨gap, member, rfl⟩ :
    gap.toNat ∈ (gaps (denseColLimit - 1) (sparseColumns denseColLimit row)).map BitVec.toNat)
  exact part.trans (total.trans (enough off))

/-! ### Sizes -/

def entryCount (denseColLimit : Column) (row : List Column) : Nat :=
  ((gaps (denseColLimit - 1) (sparseColumns denseColLimit row)).map fun gap =>
    1 + 2 * ((gap.toNat - 1) / 0xFFFF)).sum

private theorem length_gapEntries {diff : Nat} (positive : 0 < diff) :
    (gapEntries diff).length = 1 + 2 * ((diff - 1) / 0xFFFF) := by
  induction diff using Nat.strong_induction_on with
  | h diff induction =>
    rw [gapEntries]
    split
    next large =>
        rw [List.length_cons, List.length_cons, induction (diff - 0xFFFF) (by omega) (by omega)]
        omega
    next small =>
        rw [List.length_singleton]
        omega

theorem length_rowEntries {denseColLimit nCols : Column} {row : List Column}
    (ascending : Ascending nCols row) :
    (rowEntries denseColLimit row).length = entryCount denseColLimit row := by
  rw [rowEntries, List.length_flatMap, entryCount]
  refine congrArg List.sum (List.map_congr_left fun gap member => ?_)
  exact length_gapEntries ((gaps_sparseColumns ascending).1 gap member)

theorem entryCount_lt {denseColLimit nCols : Column} {row : List Column}
    (ascending : Ascending nCols row) : entryCount denseColLimit row < 2 ^ 32 := by
  rcases @gaps_sparseColumns denseColLimit _ _ ascending with ⟨positive, total⟩
  have bound : entryCount denseColLimit row ≤
      ((gaps (denseColLimit - 1) (sparseColumns denseColLimit row)).map BitVec.toNat).sum :=
    List.sum_le_sum fun gap member => by
      have own := positive gap member
      omega
  have nColsBound := nCols.isLt
  omega

/-! ## The host encoder -/

structure Delta16Stream where
  stream : List (BitVec 16)
  offsets : List Nat

def encodeDelta16 (denseColLimit : Column) (firstSparseRow : Nat) (rows : List (List Column)) :
    Delta16Stream where
  stream := run (push (rowEntries denseColLimit)) [] (rows.drop firstSparseRow)
  offsets := List.replicate firstSparseRow 0 ++
    offsets List.length (push (rowEntries denseColLimit)) [] (rows.drop firstSparseRow)

/-- The escapes are read unless the number of sparse columns rules them out. -/
theorem enough_of_nSparseCols (nCols denseColLimit : Column) :
    decide (65535 < nCols - denseColLimit) = false →
      nCols.toNat - denseColLimit.toNat ≤ 0xFFFF := by
  intro few
  rw [decide_eq_false_iff_not, BitVec.lt_def, BitVec.toNat_sub] at few
  have limit : (65535 : Column).toNat = 65535 := rfl
  have nColsBound := nCols.isLt
  have denseBound := denseColLimit.isLt
  rw [limit] at few
  omega

def hostDelta16Columns (denseColLimit nCols : Column) (firstSparseRow : Nat)
    (rows : List (List Column)) (row : Nat) : List Column :=
  kernelSparseDelta16 ((encodeDelta16 denseColLimit firstSparseRow rows).stream.getD · 0)
    ((encodeDelta16 denseColLimit firstSparseRow rows).offsets.getD · 0) denseColLimit
    (nCols - denseColLimit) row

section Host

variable {denseColLimit nCols : Column} {firstSparseRow : Nat} {rows : List (List Column)}

section

variable (ascending : ∀ row ∈ rows, Ascending nCols row)

include ascending

theorem length_stream : (encodeDelta16 denseColLimit firstSparseRow rows).stream.length =
      ((rows.drop firstSparseRow).map (entryCount denseColLimit)).sum := by
  rw [encodeDelta16, length_run_push, List.length_nil, Nat.zero_add]
  refine congrArg List.sum (List.map_congr_left fun row member => ?_)
  exact length_rowEntries (ascending row (List.mem_of_mem_drop member))

theorem hostDelta16Columns_of_fits
    (fits : (encodeDelta16 denseColLimit firstSparseRow rows).stream.length < 2 ^ 32) {r : Nat}
    (sparse : firstSparseRow ≤ r) (inside : r < rows.length) :
    hostDelta16Columns denseColLimit nCols firstSparseRow rows r =
      sparseColumns denseColLimit rows[r] := by
  obtain ⟨place, rfl⟩ := Nat.exists_eq_add_of_le sparse
  have below : place < (rows.drop firstSparseRow).length := by
    rw [List.length_drop]
    omega
  have entries := window_run_push (rowEntries denseColLimit) fits below 0
  rw [hostDelta16Columns, kernelSparseDelta16]
  simp only [encodeDelta16, Nat.add_assoc, getD_replicate_append]
  rw [entries, List.getElem_drop]
  exact decodeEntries_rowEntries (ascending _ (List.getElem_mem inside))
    (enough_of_nSparseCols nCols denseColLimit)

/-- A row that the offsets leave nothing of has columns. -/
theorem exists_hostDelta16Columns_ne
    (large : 2 ^ 32 ≤ (encodeDelta16 denseColLimit firstSparseRow rows).stream.length) :
    ∃ r, firstSparseRow ≤ r ∧ ∃ inside : r < rows.length,
      hostDelta16Columns denseColLimit nCols firstSparseRow rows r ≠
        sparseColumns denseColLimit rows[r] := by
  have short : ∀ row ∈ rows.drop firstSparseRow, (rowEntries denseColLimit row).length < 2 ^ 32 :=
    fun row member => by
      have own := ascending row (List.mem_of_mem_drop member)
      rw [length_rowEntries own]
      exact entryCount_lt own
  rcases exists_window_eq_nil _ short large with ⟨place, below, nonempty, empty⟩
  have inside : firstSparseRow + place < rows.length := by
    rw [List.length_drop] at below
    omega
  refine ⟨firstSparseRow + place, Nat.le_add_right _ _, inside, fun equal => nonempty ?_⟩
  rw [hostDelta16Columns, kernelSparseDelta16] at equal
  simp only [encodeDelta16, Nat.add_assoc, getD_replicate_append] at equal
  rw [empty, decodeEntries] at equal
  rw [List.getElem_drop, rowEntries, ← equal, gaps, List.flatMap_nil]

/-- The offsets of the host hold as long as the entries fit 32 bits, and no longer. -/
theorem hostDelta16Columns_iff : (∀ r, firstSparseRow ≤ r → ∀ inside : r < rows.length,
      hostDelta16Columns denseColLimit nCols firstSparseRow rows r =
        sparseColumns denseColLimit rows[r]) ↔
      ((rows.drop firstSparseRow).map (entryCount denseColLimit)).sum < 2 ^ 32 := by
  rw [← length_stream ascending]
  constructor
  · intro decoded
    by_contra large
    rcases exists_hostDelta16Columns_ne ascending (not_lt.mp large) with
      ⟨r, sparse, inside, differs⟩
    exact differs (decoded r sparse inside)
  · exact fun fits r sparse inside => hostDelta16Columns_of_fits ascending fits sparse inside

end

theorem hostDelta16Columns_iff_wide :
    hostDelta16Columns 1 80000 0 [[1, 70000], [5]] 0 = [1, 70000] :=
  (hostDelta16Columns_iff (by decide)).mpr (by decide) 0 le_rfl (by decide)

end Host

/-! ## On the device -/

/-- `DeviceCSRSlice`. The pointers of a slice begin at any offset into the shared columns. -/
structure DeviceCSRSlice where
  dRowPtr : Nat → Nat
  dColInd : Nat → Column
  nRows : Nat
  nCols : Column

namespace DeviceCSRSlice

variable (slice : DeviceCSRSlice)

def row (r : Nat) : List Column := window slice.dColInd (slice.dRowPtr r) (slice.dRowPtr (r + 1))

structure WellFormed : Prop where
  ascends : ∀ r < slice.nRows, slice.dRowPtr r ≤ slice.dRowPtr (r + 1)
  narrow : slice.dRowPtr slice.nRows < 2 ^ 32
  rows : ∀ r < slice.nRows, Ascending slice.nCols (slice.row r)

def delta16EscapeSizes (r : Nat) : BitVec 32 :=
  (gaps 0xFFFFFFFF (slice.row r)).foldl
    (fun count delta => count + (1 + 2 * ((delta - 1) / 0xFFFF))) 0

def total64 : Nat := ((List.range slice.nRows).map fun r => (slice.delta16EscapeSizes r).toNat).sum

/-- `k_rowptr_to_offsets`, or the scan of the sizes unless they pass 32 bits. -/
def delta16Offsets : Option (Nat → Nat) :=
  if slice.nCols ≤ 65535 then some fun i => (slice.dRowPtr i - slice.dRowPtr 0) % 2 ^ 32
  else if 0xFFFFFFFF < slice.total64 then none
  else some fun i => ((List.range i).map fun r => (slice.delta16EscapeSizes r).toNat).sum % 2 ^ 32

def delta16Encode (offset : Nat → Nat) : List (Nat × BitVec 16) :=
  windowStores (fun r => rowEntries 0 (slice.row r)) offset slice.nRows

/-! ### Sizes and offsets -/

private theorem escapeEntries_toNat {delta : Column} (positive : 0 < delta.toNat) :
    (1 + 2 * ((delta - 1) / 0xFFFF)).toNat = 1 + 2 * ((delta.toNat - 1) / 0xFFFF) := by
  have one : (1 : Column).toNat = 1 := rfl
  have two : (2 : Column).toNat = 2 := rfl
  have marker : (0xFFFF : Column).toNat = 0xFFFF := rfl
  have bound := delta.isLt
  have previous : (delta - 1).toNat = delta.toNat - 1 := by
    rw [BitVec.toNat_sub, one]
    omega
  rw [BitVec.toNat_add, BitVec.toNat_mul, BitVec.toNat_udiv, previous, one, two, marker]
  omega

private theorem foldl_escapeEntries {gapList : List Column}
    (positive : ∀ gap ∈ gapList, 0 < gap.toNat)
    {count : BitVec 32}
    (fits : count.toNat + (gapList.map fun gap => 1 + 2 * ((gap.toNat - 1) / 0xFFFF)).sum <
      2 ^ 32) :
    (gapList.foldl (fun count delta => count + (1 + 2 * ((delta - 1) / 0xFFFF))) count).toNat =
      count.toNat + (gapList.map fun gap => 1 + 2 * ((gap.toNat - 1) / 0xFFFF)).sum := by
  induction gapList generalizing count with
  | nil => rw [List.foldl_nil, List.map_nil, List.sum_nil, Nat.add_zero]
  | cons gap rest induction =>
    rw [List.map_cons, List.sum_cons] at fits ⊢
    have next : (count + (1 + 2 * ((gap - 1) / 0xFFFF))).toNat =
        count.toNat + (1 + 2 * ((gap.toNat - 1) / 0xFFFF)) := by
      rw [BitVec.toNat_add, escapeEntries_toNat (positive gap List.mem_cons_self)]
      exact Nat.mod_eq_of_lt (by omega)
    rw [List.foldl_cons, induction (fun other member => positive other
      (List.mem_cons_of_mem _ member)) (by rw [next]; omega), next]
    omega

variable {slice}

/-- The sizes that the device counts are the entries that it writes. -/
theorem delta16EscapeSizes_toNat (wellFormed : slice.WellFormed) {r : Nat}
    (inside : r < slice.nRows) :
    (slice.delta16EscapeSizes r).toNat = (rowEntries 0 (slice.row r)).length := by
  have ascending := wellFormed.rows r inside
  have count := @entryCount_lt 0 _ _ ascending
  have positive := (@gaps_sparseColumns 0 _ _ ascending).1
  have zero : (0 : BitVec 32).toNat = 0 := rfl
  rw [length_rowEntries ascending]
  rw [entryCount] at count ⊢
  rw [sparseColumns_zero] at count positive ⊢
  have start : (0xFFFFFFFF : Column) = 0 - 1 := rfl
  rw [delta16EscapeSizes, start, foldl_escapeEntries positive (by rw [zero]; omega), zero,
    Nat.zero_add]

private theorem total64_eq (wellFormed : slice.WellFormed) : slice.total64 =
    ((List.range slice.nRows).map fun r => entryCount 0 (slice.row r)).sum := by
  refine congrArg List.sum (List.map_congr_left fun r member => ?_)
  have inside := List.mem_range.mp member
  rw [delta16EscapeSizes_toNat wellFormed inside, length_rowEntries (wellFormed.rows r inside)]

/-- A slice is refused where its entries pass 32 bits. -/
theorem delta16Offsets_eq_none (wellFormed : slice.WellFormed) : slice.delta16Offsets = none ↔
    65535 < slice.nCols ∧
      2 ^ 32 ≤ ((List.range slice.nRows).map fun r => entryCount 0 (slice.row r)).sum := by
  rw [← total64_eq wellFormed, delta16Offsets]
  have limit : 0xFFFFFFFF < slice.total64 ↔ 2 ^ 32 ≤ slice.total64 := Iff.rfl
  split
  next narrow =>
      constructor
      · exact nofun
      · exact fun both => absurd narrow (BitVec.not_le.mpr both.1)
  next wide =>
      split
      next large => exact ⟨fun _ => ⟨BitVec.not_le.mp wide, limit.mp large⟩, fun _ => rfl⟩
      next small => exact ⟨nofun, fun both => absurd (limit.mpr both.2) small⟩

theorem length_row (r : Nat) : (slice.row r).length = slice.dRowPtr (r + 1) - slice.dRowPtr r := by
  rw [row, window, List.length_map, List.length_range]

theorem dRowPtr_le (wellFormed : slice.WellFormed) {r s : Nat} (order : r ≤ s)
    (inside : s ≤ slice.nRows) : slice.dRowPtr r ≤ slice.dRowPtr s := by
  induction s, order using Nat.le_induction with
  | base => exact le_rfl
  | succ s _ induction =>
    exact (induction (Nat.le_of_succ_le inside)).trans (wellFormed.ascends s inside)

private theorem entryCount_of_narrow {nCols : Column} {row : List Column}
    (ascending : Ascending nCols row)
    (narrow : nCols ≤ 65535) : entryCount 0 row = row.length := by
  rcases @gaps_sparseColumns 0 _ _ ascending with ⟨positive, total⟩
  have limit := BitVec.le_def.mp narrow
  have bound : (65535 : Column).toNat = 65535 := rfl
  rw [bound] at limit
  rw [sparseColumns_zero] at positive total
  have ones : ∀ gap ∈ gaps (0 - 1) row, 1 + 2 * ((gap.toNat - 1) / 0xFFFF) = 1 :=
    fun gap member => by
      have part := List.le_sum_of_mem (List.mem_map.mpr ⟨gap, member, rfl⟩ :
        gap.toNat ∈ (gaps (0 - 1) row).map BitVec.toNat)
      have own := positive gap member
      omega
  rw [entryCount, sparseColumns_zero, List.map_congr_left ones, List.map_const',
    List.sum_replicate_nat, length_gaps, Nat.mul_one]

theorem delta16Offsets_contiguous (wellFormed : slice.WellFormed) {offset : Nat → Nat}
    (accepted : slice.delta16Offsets = some offset) :
    (∀ r < slice.nRows, offset (r + 1) = offset r + (rowEntries 0 (slice.row r)).length) ∧
      offset slice.nRows < 2 ^ 32 := by
  rw [delta16Offsets] at accepted
  split at accepted
  next narrow =>
      obtain rfl := Option.some_inj.mp accepted
      refine ⟨fun r inside => ?_, Nat.mod_lt _ (by decide)⟩
      have own := wellFormed.rows r inside
      have first := dRowPtr_le wellFormed (Nat.zero_le r) inside.le
      have step := wellFormed.ascends r inside
      have next : r + 1 ≤ slice.nRows := inside
      have last := dRowPtr_le wellFormed next le_rfl
      have bound := wellFormed.narrow
      beta_reduce
      rw [length_rowEntries own, entryCount_of_narrow own narrow, length_row,
        Nat.mod_eq_of_lt (by omega), Nat.mod_eq_of_lt (by omega)]
      omega
  next wide =>
      split at accepted
      · cases accepted
      next small =>
          obtain rfl := Option.some_inj.mp accepted
          refine ⟨fun r inside => ?_, Nat.mod_lt _ (by decide)⟩
          have part : ((List.range (r + 1)).map fun r => (slice.delta16EscapeSizes r).toNat).sum ≤
              slice.total64 :=
            ((List.range_sublist.mpr (Nat.succ_le_of_lt inside)).map _).sum_le_sum
              fun _ _ => Nat.zero_le _
          beta_reduce
          rw [List.range_succ, List.map_append, List.sum_append, List.map_singleton,
            List.sum_singleton, delta16EscapeSizes_toNat wellFormed inside] at part ⊢
          rw [Nat.mod_eq_of_lt (by omega), Nat.mod_eq_of_lt (by omega)]

/-- The kernel reads back what the device encoded, in any order of its threads. -/
theorem kernelSparseDelta16_delta16Encode (wellFormed : slice.WellFormed) {offset : Nat → Nat}
    (accepted : slice.delta16Offsets = some offset) {before after : Nat → BitVec 16}
    (stored : Stored (slice.delta16Encode offset) before after) {r : Nat}
    (inside : r < slice.nRows) :
    kernelSparseDelta16 after offset 0 slice.nCols r = slice.row r := by
  rcases delta16Offsets_contiguous wellFormed accepted with ⟨contiguous, fits⟩
  have few := enough_of_nSparseCols slice.nCols 0
  rw [sub_zero] at few
  rw [kernelSparseDelta16, window_of_stored contiguous fits stored inside,
    decodeEntries_rowEntries (wellFormed.rows r inside) few, sparseColumns_zero]

/-- A slice is refused where its entries pass 32 bits, and of every other one the kernel reads
the columns, whatever the order of the threads and the stream before. -/
theorem delta16_refused_or_read (wellFormed : slice.WellFormed) :
    (slice.delta16Offsets = none ↔ 65535 < slice.nCols ∧
      2 ^ 32 ≤ ((List.range slice.nRows).map fun r => entryCount 0 (slice.row r)).sum) ∧
    ∀ offset, slice.delta16Offsets = some offset →
      ∀ before after, Stored (slice.delta16Encode offset) before after →
        ∀ r < slice.nRows, kernelSparseDelta16 after offset 0 slice.nCols r = slice.row r :=
  ⟨delta16Offsets_eq_none wellFormed, fun _ accepted _ _ stored _ inside =>
    kernelSparseDelta16_delta16Encode wellFormed accepted stored inside⟩

def wideSlice : DeviceCSRSlice where
  dRowPtr := ([0, 2].getD · 3)
  dColInd := ([1, 70000].getD · 5)
  nRows := 2
  nCols := 80000

private theorem wellFormed_wideSlice : wideSlice.WellFormed where
  ascends := by decide
  narrow := by decide
  rows := by decide

theorem delta16_refused_or_read_wideSlice : ∃ offset after, wideSlice.delta16Offsets = some offset ∧
      kernelSparseDelta16 after offset 0 80000 0 = [1, 70000] := by
  have accepted : wideSlice.delta16Offsets = some _ :=
    (if_neg (by decide)).trans (if_neg (by decide))
  rcases exists_stored (wideSlice.delta16Encode _) fun _ => 0 with ⟨after, stored⟩
  exact ⟨_, after, accepted, (delta16_refused_or_read wellFormed_wideSlice).2 _ accepted _ _
    stored 0 (by decide)⟩

end DeviceCSRSlice

end CudaMpqs.SparseStreams
