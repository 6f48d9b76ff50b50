import CudaMpqs.Foundation.StreamCompaction
import CudaMpqs.Matrix.SingletonLoop
import CudaMpqs.Matrix.SingletonRemoval

/-! # Singleton removal on the GPU

`gpuRemoveSingletons`: when its loop converges, it has kept the greatest set of rows
without singleton columns, as `removeSingletons` has when its own loop converges. -/

namespace CudaMpqs

open Peeling SingletonPass StreamCompaction

/-! ## Host -/

structure SingletonBuffers where
  rowMap : Nat → Nat
  newColIndices : Nat → Nat

def rowNnz (input : HostMatrixCSR) (r : Nat) : Nat :=
  input.rowOffsets.getD (r + 1) 0 - input.rowOffsets.getD r 0

/-- `build_col_map_kernel`; `UINT32_MAX` is `none`. -/
def oldToNewCol (colWeight : Nat → Nat) (c : Nat) : Option Nat :=
  if 0 < colWeight c then
    some (exclusiveScan (fun c => (decide (0 < colWeight c)).toNat) c)
  else none

def compactSingletons (input : HostMatrixCSR) (rowAlive : Nat → Bool) (colWeight : Nat → Nat)
    (totalRemoved iteration : Nat) (buffers : SingletonBuffers) : SingletonResult :=
  let newRows := input.nRows - totalRemoved
  let newCols := exclusiveScan (fun c => (decide (0 < colWeight c)).toNat) (input.nCols - 1) +
    (decide (0 < colWeight (input.nCols - 1))).toNat
  let rowMap := scatter rowAlive (exclusiveScan fun r => (rowAlive r).toNat) id input.nRows
    buffers.rowMap
  let newRowNnz := fun i => rowNnz input (rowMap i)
  let newRowOffsets := exclusiveScan newRowNnz
  let newNnz :=
    if 0 < newRows then newRowOffsets (newRows - 1) + newRowNnz (newRows - 1) else 0
  let newColIndices := writeRows newRowOffsets
    (fun i => (input.row (rowMap i)).map fun c => (oldToNewCol colWeight c).getD 0xFFFFFFFF)
    newRows buffers.newColIndices
  { reduced := {
      rowOffsets :=
        if 0 < newRows then
          (List.range (newRows + 1)).map (Function.update newRowOffsets newRows newNnz)
        else [0]
      colIndices := (List.range newNnz).map newColIndices
      nRows := newRows
      nCols := newCols }
    rowMap := (List.range newRows).map rowMap
    colMap := (List.range newCols).map (scatter (fun c => (oldToNewCol colWeight c).isSome)
      (fun c => (oldToNewCol colWeight c).getD 0) id input.nCols fun _ => 0)
    iterations := iteration
    rowsRemoved := totalRemoved
    colsRemoved := input.nCols - newCols }

def rowCols (input : HostMatrixCSR) (r : Fin input.nRows) : List Nat := input.row r

def aliveAt {rows : Nat} (rowAlive : Fin rows → Bool) (r : Nat) : Bool :=
  if inside : r < rows then rowAlive ⟨r, inside⟩ else false

def gpuRemoveSingletons (input : HostMatrixCSR) (passes : Passes (rowCols input))
    (buffers : SingletonBuffers) : SingletonResult :=
  if input.nRows = 0 ∨ input.nCols = 0 then
    ⟨input, List.range input.nRows, List.range input.nCols, 0, 0, 0⟩
  else compactSingletons input (aliveAt passes.final.memory.rowAlive)
    passes.final.memory.colWeight passes.final.totalRemoved passes.final.iteration buffers

/-! ## Compaction -/

namespace HostMatrixCSR

private theorem scanl_eq_exclusiveScan (rows : List (List Nat)) :
    (rows.map List.length).scanl (· + ·) 0 =
      (List.range (rows.length + 1)).map (exclusiveScan fun i => (rows.getD i []).length) := by
  apply List.ext_getElem
  · simp
  · intro k inside _
    have bound : k ≤ rows.length := by simpa [Nat.lt_succ_iff] using inside
    rw [List.getElem_scanl, ← List.map_take, foldl_lengths, List.getElem_map,
      List.getElem_range, ← length_flatMap_range, List.flatMap_def]
    congr 2
    apply List.ext_getElem
    · simp [bound]
    · intro i isRow _
      have inRow : i < rows.length := by simp at isRow; omega
      simp [inRow]

theorem ofRows_eq_written (nCols : Nat) (rows : List (List Nat)) {length : Nat → Nat}
    {row : Nat → List Nat} (array : Nat → Nat)
    (isRow : ∀ i < rows.length, row i = rows.getD i [])
    (isLength : ∀ i < rows.length, length i = (rows.getD i []).length) :
    ofRows nCols rows = {
      rowOffsets := (List.range (rows.length + 1)).map (exclusiveScan length)
      colIndices := (List.range (exclusiveScan length rows.length)).map
        (writeRows (exclusiveScan length) row rows.length array)
      nRows := rows.length
      nCols := nCols } := by
  have scan : ∀ k ≤ rows.length,
      exclusiveScan length k = exclusiveScan (fun i => (rows.getD i []).length) k :=
    fun k bound => exclusiveScan_congr fun i inside => isLength i (inside.trans_le bound)
  have offsets : (List.range (rows.length + 1)).map (exclusiveScan length) =
      (List.range (rows.length + 1)).map (exclusiveScan fun i => (rows.getD i []).length) :=
    List.map_congr_left fun k member => scan k (Nat.le_of_lt_succ (List.mem_range.mp member))
  have columns : (List.range rows.length).flatMap (fun i => rows.getD i []) = rows.flatten := by
    rw [List.flatMap_def]
    congr 1
    apply List.ext_getElem
    · simp
    · intro i inside inside'
      rw [List.getElem_map, List.getElem_range, List.getD_eq_getElem _ _ inside']
  rw [ofRows_eq, scanl_eq_exclusiveScan, offsets, scan _ le_rfl,
    writeRows_congr _ (fun i inside => scan i inside.le) isRow, map_writeRows_scan, columns]

theorem WellFormed.length_row {matrix : HostMatrixCSR} (wellFormed : matrix.WellFormed) {r : Nat}
    (inside : r < matrix.nRows) : (matrix.row r).length = rowNnz matrix r := by
  have rising : ∀ k ≤ matrix.nRows - (r + 1), matrix.rowOffsets.getD (r + 1) 0 ≤
      matrix.rowOffsets.getD (r + 1 + k) 0 := by
    intro k
    induction k with
    | zero => exact fun _ => le_rfl
    | succ k induction =>
      exact fun bound => (induction (by omega)).trans (wellFormed.monotone _ (by omega))
  have stop := rising _ le_rfl
  rw [show r + 1 + (matrix.nRows - (r + 1)) = matrix.nRows by omega, wellFormed.last] at stop
  rw [row, Slice.slice, List.length_take, List.length_drop, rowNnz]
  omega

end HostMatrixCSR

theorem exclusiveScan_kept (colWeight : Nat → Nat) (c : Nat) :
    exclusiveScan (fun c => (decide (0 < colWeight c)).toNat) c = keptBelow colWeight c := by
  rw [exclusiveScan_toNat, keptBelow, List.countP_eq_length_filter]

theorem scan_newCols (colWeight : Nat → Nat) {nCols : Nat} (someCols : nCols ≠ 0) :
    exclusiveScan (fun c => (decide (0 < colWeight c)).toNat) (nCols - 1) +
      (decide (0 < colWeight (nCols - 1))).toNat = keptBelow colWeight nCols := by
  rw [← exclusiveScan_succ, Nat.sub_add_cancel (Nat.one_le_iff_ne_zero.mpr someCols),
    exclusiveScan_kept]

theorem map_rowMap (nRows : Nat) (rowAlive : Nat → Bool) (array : Nat → Nat) :
    (List.range (aliveRows nRows rowAlive).length).map
      (scatter rowAlive (exclusiveScan fun r => (rowAlive r).toNat) id nRows array) =
        aliveRows nRows rowAlive := by
  rw [aliveRows, map_scatter_scan, List.map_id]

theorem map_colMap (colWeight : Nat → Nat) (nCols : Nat) :
    (List.range (keptBelow colWeight nCols)).map
      (scatter (fun c => (oldToNewCol colWeight c).isSome)
        (fun c => (oldToNewCol colWeight c).getD 0) id nCols fun _ => 0) =
        (List.range nCols).filter (0 < colWeight ·) := by
  have same : scatter (fun c => (oldToNewCol colWeight c).isSome)
      (fun c => (oldToNewCol colWeight c).getD 0) id nCols (fun _ => 0) =
        scatter (fun c => decide (0 < colWeight c))
          (exclusiveScan fun c => (decide (0 < colWeight c)).toNat) id nCols fun _ => 0 := by
    apply scatter_congr
    · intro c _
      by_cases kept : 0 < colWeight c <;> simp [oldToNewCol, kept]
    · intro c _ kept
      simp [oldToNewCol, of_decide_eq_true kept]
  rw [same, keptBelow, List.countP_eq_length_filter, map_scatter_scan, List.map_id]

section Compaction

variable {input : HostMatrixCSR} {rowAlive : Nat → Bool} {colWeight : Nat → Nat}
  {totalRemoved : Nat}

theorem Covers.oldToNewCol (covers : Covers input.nRows input.nCols colWeight rowAlive input.row)
    {r : Nat} (alive : r ∈ aliveRows input.nRows rowAlive) :
    (input.row r).map (fun c => (oldToNewCol colWeight c).getD 0xFFFFFFFF) =
      (input.row r).map (compactColumns input.nCols colWeight).1 := by
  rcases mem_aliveRows.mp alive with ⟨inside, alive⟩
  apply List.map_congr_left
  intro c present
  have kept := covers.kept r inside alive c present
  rw [CudaMpqs.oldToNewCol, if_pos kept, exclusiveScan_kept,
    (compactColumns_eq colWeight input.nCols).2 c (covers.bound r inside alive c present) kept]
  rfl

theorem compactSingletons_eq (wellFormed : input.WellFormed)
    (covers : Covers input.nRows input.nCols colWeight rowAlive input.row)
    (removed : totalRemoved + (aliveRows input.nRows rowAlive).length = input.nRows)
    (someCols : input.nCols ≠ 0) (iteration : Nat) (buffers : SingletonBuffers) :
    compactSingletons input rowAlive colWeight totalRemoved iteration buffers = {
      reduced := compactRows input.nRows input.nCols colWeight rowAlive input.row
      rowMap := aliveRows input.nRows rowAlive
      colMap := (List.range input.nCols).filter (0 < colWeight ·)
      iterations := iteration
      rowsRemoved := totalRemoved
      colsRemoved := input.nCols -
        (compactRows input.nRows input.nCols colWeight rowAlive input.row).nCols } := by
  have newRows : input.nRows - totalRemoved = (aliveRows input.nRows rowAlive).length := by omega
  unfold compactSingletons
  dsimp only
  have rowMap := map_rowMap input.nRows rowAlive buffers.rowMap
  rw [newRows, scan_newCols colWeight someCols, rowMap, map_colMap]
  generalize scatter rowAlive (exclusiveScan fun r => (rowAlive r).toNat) id input.nRows
    buffers.rowMap = places at rowMap
  generalize isAlive : aliveRows input.nRows rowAlive = alive at *
  have place : ∀ i (inside : i < alive.length), places i = alive[i] := by
    intro i inside
    have same := congrArg (·[i]?) rowMap
    simpa [inside] using same
  let compacted := alive.map fun r => (input.row r).map (compactColumns input.nCols colWeight).1
  have row : ∀ i < alive.length, compacted.getD i [] =
      (input.row (places i)).map fun c => (oldToNewCol colWeight c).getD 0xFFFFFFFF := by
    intro i inside
    have member : alive[i] ∈ aliveRows input.nRows rowAlive := by simp [isAlive]
    rw [place i inside, covers.oldToNewCol member]
    simp [compacted, inside]
  have newNnz : (if 0 < alive.length then
        exclusiveScan (fun i => rowNnz input (places i)) (alive.length - 1) +
          rowNnz input (places (alive.length - 1)) else 0) =
      exclusiveScan (fun i => rowNnz input (places i)) alive.length := by
    split
    next some => rw [← exclusiveScan_succ, Nat.sub_add_cancel some]
    next none => rw [Nat.eq_zero_of_not_pos none]; rfl
  have lengths : ∀ i < alive.length,
      rowNnz input (places i) = (compacted.getD i []).length := by
    intro i inside
    have member : alive[i] ∈ aliveRows input.nRows rowAlive := by simp [isAlive]
    rw [row i inside, List.length_map, place i inside,
      wellFormed.length_row (mem_aliveRows.mp member).1]
  have size : compacted.length = alive.length := List.length_map _
  have reduced := HostMatrixCSR.ofRows_eq_written (keptBelow colWeight input.nCols) compacted
    buffers.newColIndices (fun i inside => (row i (inside.trans_eq size)).symm)
    fun i inside => lengths i (inside.trans_eq size)
  rw [size] at reduced
  have built : compactRows input.nRows input.nCols colWeight rowAlive input.row =
      HostMatrixCSR.ofRows (keptBelow colWeight input.nCols) compacted := by
    rw [compactRows, isAlive, (compactColumns_eq colWeight _).1]
  rw [newNnz, built, reduced, Function.update_eq_self]
  congr 2
  split
  next => rfl
  next none => rw [Nat.eq_zero_of_not_pos none]; rfl

end Compaction

/-! ## The host loop -/

section Host

variable {input : HostMatrixCSR}

def hostSurvivors (input : HostMatrixCSR) (state : SingletonState) : Finset (Fin input.nRows) :=
  survivors fun r => state.rowAlive r

variable {state : SingletonState}

theorem mem_hostSurvivors {r : Fin input.nRows} :
    r ∈ hostSurvivors input state ↔ state.rowAlive r = true :=
  mem_survivors

def hostFinal (input : HostMatrixCSR) : SingletonState :=
  singletonLoop input kMaxSingletonIterations
    ⟨fun _ => true, columnWeights input.nRows input.row, 0, 0, 0⟩

theorem visitRow_cases (input : HostMatrixCSR) (state : SingletonState) (r : Nat) :
    visitRow input state r = state ∧
        (state.rowAlive r = true → ∀ c ∈ input.row r, state.colWeight c ≠ 1) ∨
      visitRow input state r = removeRow input state r ∧ state.rowAlive r = true ∧
        ∃ c ∈ input.row r, state.colWeight c = 1 := by
  unfold visitRow
  split
  next dead => exact Or.inl ⟨rfl, fun alive => by simp [alive] at dead⟩
  next alive =>
      split
      next found =>
          rcases List.any_eq_true.mp found with ⟨c, present, isOne⟩
          exact Or.inr ⟨rfl, by simpa using alive, c, present, beq_iff_eq.mp isOne⟩
      next none => exact Or.inl ⟨rfl, fun _ c present isOne =>
          none (List.any_eq_true.mpr ⟨c, present, beq_iff_eq.mpr isOne⟩)⟩

/-- Where the host stands in a pass: no row of a core was removed, and the removed rows
are counted. -/
structure HostVisits (input : HostMatrixCSR) (state : SingletonState) : Prop where
  valid : SingletonValid input state
  core : ∀ core, SingletonFree (fun r c => c ∈ rowCols input r) core →
    core ⊆ hostSurvivors input state
  removed : state.totalRemoved + state.removedThisPass + (hostSurvivors input state).card =
    input.nRows

theorem SingletonValid.colWeight_eq (valid : SingletonValid input state) (c : Nat) :
    state.colWeight c = ((hostSurvivors input state).filter (c ∈ rowCols input ·)).card := by
  rw [valid.weight c]
  refine (Finset.card_bij (fun (r : Fin input.nRows) _ => (r : Nat)) ?_ ?_ ?_).symm
  · intro r member
    rcases Finset.mem_filter.mp member with ⟨alive, present⟩
    exact Finset.mem_filter.mpr
      ⟨Finset.mem_range.mpr r.isLt, mem_hostSurvivors.mp alive, present⟩
  · exact fun r _ r' _ same => Fin.ext same
  · intro r member
    rcases Finset.mem_filter.mp member with ⟨inside, alive, present⟩
    exact ⟨⟨r, Finset.mem_range.mp inside⟩,
      Finset.mem_filter.mpr ⟨mem_hostSurvivors.mpr alive, present⟩, rfl⟩

theorem HostVisits.visitRow (visits : HostVisits input state) (wellFormed : input.WellFormed)
    {r : Nat} (inside : r < input.nRows) : HostVisits input (visitRow input state r) := by
  have valid := visits.valid.visitRow wellFormed inside
  rcases visitRow_cases input state r with ⟨same, -⟩ | ⟨removes, alive, c, present, isOne⟩
  · rwa [same]
  have erased : hostSurvivors input (removeRow input state r) =
      (hostSurvivors input state).erase ⟨r, inside⟩ := by
    ext other
    rw [Finset.mem_erase, mem_hostSurvivors, mem_hostSurvivors]
    change Function.update state.rowAlive r false other = true ↔ _
    rw [Function.update_apply, Ne, Fin.ext_iff]
    by_cases isOwn : (other : Nat) = r <;> simp [isOwn]
  have member : (⟨r, inside⟩ : Fin input.nRows) ∈ hostSurvivors input state :=
    mem_hostSurvivors.mpr alive
  refine ⟨valid, ?_, ?_⟩
  · intro core free
    rw [removes, erased]
    refine Finset.subset_erase.mpr ⟨visits.core core free, ?_⟩
    apply free.not_mem_of_alone (visits.core core free)
    refine ⟨member, c, present, fun other isAlive otherPresent => ?_⟩
    rw [visits.valid.colWeight_eq c] at isOne
    exact Finset.card_le_one.mp isOne.le other
      (Finset.mem_filter.mpr ⟨isAlive, otherPresent⟩) _
      (Finset.mem_filter.mpr ⟨member, present⟩)
  · have positive := Finset.card_pos.mpr ⟨_, member⟩
    have before := visits.removed
    rw [removes, erased, Finset.card_erase_of_mem member]
    change state.totalRemoved + (state.removedThisPass + 1) + _ = _
    omega

theorem foldl_visitRow (rows : List Nat) (state : SingletonState) :
    state.removedThisPass < (rows.foldl (visitRow input) state).removedThisPass ∨
      rows.foldl (visitRow input) state = state ∧
        ∀ r ∈ rows, state.rowAlive r = true → ∀ c ∈ input.row r, state.colWeight c ≠ 1 := by
  induction rows generalizing state with
  | nil => exact Or.inr ⟨rfl, nofun⟩
  | cons r rows induction =>
    rw [List.foldl_cons]
    rcases visitRow_cases input state r with ⟨same, passed⟩ | ⟨removes, -⟩
    · rw [same]
      rcases induction state with more | ⟨same, others⟩
      · exact Or.inl more
      · exact Or.inr ⟨same, List.forall_mem_cons.mpr ⟨passed, others⟩⟩
    · refine Or.inl ?_
      rw [removes]
      have counted : (removeRow input state r).removedThisPass = state.removedThisPass + 1 := rfl
      rcases induction (removeRow input state r) with more | ⟨same, -⟩
      · omega
      · rw [same, counted]
        exact Nat.lt_succ_self _

structure HostShrunk (input : HostMatrixCSR) (state : SingletonState) : Prop where
  visits : HostVisits input { state with removedThisPass := 0 }
  idle : state.removedThisPass = 0 →
    SingletonFree (fun r c => c ∈ rowCols input r) (hostSurvivors input state)

theorem HostVisits.singletonPass {state : SingletonState}
    (visits : HostVisits input { state with removedThisPass := 0 })
    (wellFormed : input.WellFormed) : HostShrunk input (singletonPass input state) := by
  have run : ∀ (rows : List Nat) (state : SingletonState), (∀ r ∈ rows, r < input.nRows) →
      HostVisits input state → HostVisits input (rows.foldl (CudaMpqs.visitRow input) state) := by
    intro rows
    induction rows with
    | nil => exact fun _ _ visits => visits
    | cons r rows induction =>
      exact fun state bound visits => induction _
        (fun other member => bound other (List.mem_cons_of_mem _ member))
        (visits.visitRow wellFormed (bound r List.mem_cons_self))
  have after := run (List.range input.nRows) _ (fun r member => List.mem_range.mp member) visits
  refine ⟨⟨⟨after.valid.weight, after.valid.expands⟩, after.core, after.removed⟩, ?_⟩
  intro none
  apply singletonFree_of_forall_not_alone
  rintro r ⟨alive, c, present, only⟩
  rcases @foldl_visitRow input (List.range input.nRows) { state with removedThisPass := 0 } with
    more | ⟨same, passed⟩
  · change (List.foldl (CudaMpqs.visitRow input) _ _).removedThisPass = 0 at none
    omega
  · have isAlive : state.rowAlive r = true := by
      have alive := mem_hostSurvivors.mp alive
      change (List.foldl (CudaMpqs.visitRow input) _ _).rowAlive r = true at alive
      rwa [same] at alive
    refine passed r (List.mem_range.mpr r.isLt) isAlive c present ?_
    rw [visits.valid.colWeight_eq c, Finset.card_eq_one]
    refine ⟨r, Finset.eq_singleton_iff_unique_mem.mpr
      ⟨Finset.mem_filter.mpr ⟨mem_hostSurvivors.mpr isAlive, present⟩, fun other member => ?_⟩⟩
    rcases Finset.mem_filter.mp member with ⟨otherAlive, otherPresent⟩
    refine only other (mem_hostSurvivors.mpr ?_) otherPresent
    change (List.foldl (CudaMpqs.visitRow input) _ _).rowAlive other = true
    rw [same]
    exact mem_hostSurvivors.mp otherAlive

theorem HostVisits.singletonLoop (wellFormed : input.WellFormed) (remaining : Nat)
    (visits : HostVisits input { state with removedThisPass := 0 })
    (unfinished : remaining = 0 → state.removedThisPass ≠ 0) :
    HostShrunk input (singletonLoop input remaining state) := by
  induction remaining generalizing state with
  | zero => exact ⟨visits, fun none => absurd none (unfinished rfl)⟩
  | succ remaining induction =>
    have shrunk := visits.singletonPass wellFormed
    rw [CudaMpqs.singletonLoop]
    split
    next => exact shrunk
    next some => exact induction shrunk.visits fun _ => some

theorem hostShrunk_final (wellFormed : input.WellFormed) : HostShrunk input (hostFinal input) := by
  refine HostVisits.singletonLoop wellFormed _ ⟨singletonValid_initial wellFormed, ?_, ?_⟩ nofun
  · exact fun _ _ _ _ => mem_hostSurvivors.mpr rfl
  · rw [hostSurvivors, survivors, Finset.filter_true_of_mem fun _ _ => rfl, Finset.card_univ,
      Fintype.card_fin]
    exact Nat.zero_add _

end Host

/-! ## The same result -/

theorem length_aliveRows {rows : Nat} (rowAlive : Fin rows → Bool) :
    (aliveRows rows (aliveAt rowAlive)).length = (survivors rowAlive).card := by
  have nodup : (aliveRows rows (aliveAt rowAlive)).Nodup := List.nodup_range.filter _
  rw [← List.toFinset_card_of_nodup nodup]
  refine (Finset.card_bij (fun (r : Fin rows) _ => (r : Nat)) ?_ ?_ ?_).symm
  · intro r alive
    rw [List.mem_toFinset, mem_aliveRows, aliveAt, dif_pos r.isLt]
    exact ⟨r.isLt, mem_survivors.mp alive⟩
  · exact fun r _ r' _ same => Fin.ext same
  · intro r member
    rw [List.mem_toFinset, mem_aliveRows] at member
    rcases member with ⟨inside, alive⟩
    rw [aliveAt, dif_pos inside] at alive
    exact ⟨⟨r, inside⟩, mem_survivors.mpr alive, rfl⟩

/-- A loop that converges has kept the greatest set of rows without singleton columns
under every interleaving, and the result is that of the host if its loop converges. -/
theorem gpuRemoveSingletons_converged {input : HostMatrixCSR} (wellFormed : input.WellFormed)
    (passes : Passes (rowCols input)) (buffers : SingletonBuffers)
    (converged : passes.Converged) :
    IsCore (fun (r : Fin input.nRows) c => c ∈ input.row r) Finset.univ
        (survivors passes.final.memory.rowAlive) ∧
      (input.nRows ≠ 0 → input.nCols ≠ 0 → (hostFinal input).removedThisPass = 0 →
        gpuRemoveSingletons input passes buffers =
          { removeSingletons input with iterations := passes.final.iteration }) := by
  have nodup : ∀ r, (rowCols input r).Nodup := fun r => wellFormed.nodup r.isLt
  have isCore := passes.isCore nodup converged
  refine ⟨isCore, fun someRows someCols hostConverged => ?_⟩
  have shrunk := hostShrunk_final wellFormed
  have visits := shrunk.visits
  have hostCore : IsCore (fun r c => c ∈ rowCols input r) Finset.univ
      (hostSurvivors input (hostFinal input)) :=
    ⟨⟨Finset.subset_univ _, shrunk.idle hostConverged⟩, fun core part => visits.core core part.2⟩
  have same := isCore.unique hostCore
  have reduced := (passes.shrunk nodup).reduced
  have weight : passes.final.memory.colWeight = (hostFinal input).colWeight := by
    funext c
    rw [reduced.weights, computeColWeights_eq nodup, same]
    exact (visits.valid.colWeight_eq c).symm
  have alive : ∀ r < input.nRows,
      aliveAt passes.final.memory.rowAlive r = (hostFinal input).rowAlive r := by
    intro r inside
    rw [aliveAt, dif_pos inside, Bool.eq_iff_iff, ← mem_survivors, same, mem_hostSurvivors]
  have rows : aliveRows input.nRows (aliveAt passes.final.memory.rowAlive) =
      aliveRows input.nRows (hostFinal input).rowAlive :=
    List.filter_congr fun r member => alive r (List.mem_range.mp member)
  have covers : Covers input.nRows input.nCols passes.final.memory.colWeight
      (aliveAt passes.final.memory.rowAlive) input.row := by
    refine ⟨fun r inside _ => wellFormed.bound r inside, ?_,
      fun r inside _ => wellFormed.ascending r inside⟩
    intro r inside isAlive
    rw [alive r inside] at isAlive
    rw [weight]
    exact (visits.valid.covers wellFormed).kept r inside isAlive
  have removed := reduced.removed
  have hostRemoved : (hostFinal input).totalRemoved + 0 +
      (hostSurvivors input (hostFinal input)).card = input.nRows := visits.removed
  rw [Fintype.card_fin] at removed
  have total : passes.final.totalRemoved = (hostFinal input).totalRemoved := by
    rw [same] at removed
    omega
  rw [← length_aliveRows] at removed
  rw [gpuRemoveSingletons, if_neg (not_or.mpr ⟨someRows, someCols⟩),
    compactSingletons_eq wellFormed covers removed someCols]
  unfold compactRows
  rw [rows, weight, total]
  rfl

def loneRow : HostMatrixCSR := ⟨[0, 2, 4, 6], [0, 1, 0, 1, 1, 2], 3, 3⟩

def loneRowPasses : Passes (rowCols loneRow) where
  schedules := List.replicate 100 (List.replicate 8 ((List.finRange 3).rotate 2)).flatten
  length := by decide
  synchronized := by decide +kernel

theorem gpuRemoveSingletons_converged_loneRow :
    IsCore (fun (r : Fin loneRow.nRows) c => c ∈ loneRow.row r) Finset.univ
        (survivors loneRowPasses.final.memory.rowAlive) ∧
      gpuRemoveSingletons loneRow loneRowPasses ⟨fun _ => 7, fun _ => 7⟩ =
        { removeSingletons loneRow with iterations := loneRowPasses.final.iteration } := by
  have result := @gpuRemoveSingletons_converged loneRow (by decide) loneRowPasses
    ⟨fun _ => 7, fun _ => 7⟩ (by unfold Passes.Converged; decide +kernel)
  exact ⟨result.1, result.2 (by decide) (by decide) (by decide +kernel)⟩

example : (gpuRemoveSingletons loneRow loneRowPasses ⟨fun _ => 7, fun _ => 7⟩).reduced =
    ⟨[0, 2, 4], [0, 1, 0, 1], 2, 2⟩ := by
  decide +kernel

end CudaMpqs
