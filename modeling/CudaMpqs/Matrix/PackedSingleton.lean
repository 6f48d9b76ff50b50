import CudaMpqs.Matrix.GpuSingleton
import CudaMpqs.Matrix.PackedMatrix

/-! # Singleton removal in the packed matrix

`gpuRemoveSingletons_packed` counts the entries of a column, also those with an even
exponent. It keeps the dependencies only where each of them lies in a set of rows
without columns of one entry. -/

namespace CudaMpqs

open PackedRow Peeling SingletonPass StreamCompaction

/-! ## Host -/

structure PackedSingletonResult where
  reduced : DevicePackedCsr
  rowMap : List Nat
  colMap : List Nat
  iterations : Nat
  rowsRemoved : Nat
  colsRemoved : Nat
deriving DecidableEq

def compactPackedSingletons (matrix : DevicePackedCsr) (rowAlive : Nat → Bool)
    (colWeight : Nat → Nat) (totalRemoved iteration : Nat) (buffer : Nat → Nat) :
    PackedSingletonResult :=
  let newRows := matrix.rows.length - totalRemoved
  let newCols := exclusiveScan (fun c => (decide (0 < colWeight c)).toNat) (matrix.nCols - 1) +
    (decide (0 < colWeight (matrix.nCols - 1))).toNat
  let rowMap := scatter rowAlive (exclusiveScan fun r => (rowAlive r).toNat) id
    matrix.rows.length buffer
  { reduced := {
      rows := (List.range newRows).map fun i => (matrix.rowAt (rowMap i)).remap fun c =>
        (oldToNewCol colWeight c).getD 0xFFFFFF
      nCols := newCols }
    rowMap := (List.range newRows).map rowMap
    colMap := (List.range newCols).map (scatter (fun c => (oldToNewCol colWeight c).isSome)
      (fun c => (oldToNewCol colWeight c).getD 0) id matrix.nCols fun _ => 0)
    iterations := iteration
    rowsRemoved := totalRemoved
    colsRemoved := matrix.nCols - newCols }

def packedCols (matrix : DevicePackedCsr) (r : Fin matrix.rows.length) : List Nat :=
  (matrix.rowAt r).cols

def gpuRemoveSingletonsPacked (matrix : DevicePackedCsr) (passes : Passes (packedCols matrix))
    (buffer : Nat → Nat) : PackedSingletonResult :=
  if matrix.rows.length = 0 ∨ matrix.nCols = 0 then
    ⟨matrix, List.range matrix.rows.length, List.range matrix.nCols, 0, 0, 0⟩
  else compactPackedSingletons matrix (aliveAt passes.final.memory.rowAlive)
    passes.final.memory.colWeight passes.final.totalRemoved passes.final.iteration buffer

variable {matrix : DevicePackedCsr}

theorem compactPackedSingletons_eq {rowAlive : Nat → Bool} {colWeight : Nat → Nat}
    {totalRemoved : Nat} (renumbers : Renumbers colWeight matrix.nCols
      ((aliveRows matrix.rows.length rowAlive).map matrix.rowAt))
    (removed : totalRemoved + (aliveRows matrix.rows.length rowAlive).length = matrix.rows.length)
    (someCols : matrix.nCols ≠ 0) (iteration : Nat) (buffer : Nat → Nat) :
    compactPackedSingletons matrix rowAlive colWeight totalRemoved iteration buffer = {
      reduced := .renumber colWeight matrix.nCols
        ((aliveRows matrix.rows.length rowAlive).map matrix.rowAt)
      rowMap := aliveRows matrix.rows.length rowAlive
      colMap := keptCols colWeight matrix.nCols
      iterations := iteration
      rowsRemoved := totalRemoved
      colsRemoved := matrix.nCols - keptBelow colWeight matrix.nCols } := by
  have newRows : matrix.rows.length - totalRemoved =
      (aliveRows matrix.rows.length rowAlive).length := by omega
  have rowMap := map_rowMap matrix.rows.length rowAlive buffer
  have remaps : ∀ r ∈ aliveRows matrix.rows.length rowAlive,
      ((matrix.rowAt r).remap fun c => (oldToNewCol colWeight c).getD 0xFFFFFF) =
        (matrix.rowAt r).remap (keptBelow colWeight) := by
    intro r member
    unfold PackedRow.remap
    congr 1
    apply List.map_congr_left
    intro entry inside
    have kept := renumbers.kept _ (List.mem_map_of_mem member) entry inside
    simp only [oldToNewCol, if_pos kept, exclusiveScan_kept, Option.getD_some]
  unfold compactPackedSingletons
  dsimp only
  rw [newRows, scan_newCols colWeight someCols, rowMap, map_colMap]
  congr 2
  rw [List.map_map, show (remap (keptBelow colWeight) ∘ matrix.rowAt) =
    fun r => (matrix.rowAt r).remap (keptBelow colWeight) from rfl, ← List.map_congr_left remaps]
  conv_rhs => rw [← rowMap, List.map_map]
  rfl

/-! ## Survivors -/

def packedSurvivors (passes : Passes (packedCols matrix)) : List Nat :=
  aliveRows matrix.rows.length (aliveAt passes.final.memory.rowAlive)

theorem mem_packedSurvivors {passes : Passes (packedCols matrix)} {r : Nat} :
    r ∈ packedSurvivors passes ↔ ∃ inside : r < matrix.rows.length,
      (⟨r, inside⟩ : Fin _) ∈ survivors passes.final.memory.rowAlive := by
  rw [packedSurvivors, mem_aliveRows]
  constructor
  · rintro ⟨inside, alive⟩
    rw [aliveAt, dif_pos inside] at alive
    exact ⟨inside, mem_survivors.mpr alive⟩
  · rintro ⟨inside, alive⟩
    rw [aliveAt, dif_pos inside]
    exact ⟨inside, mem_survivors.mp alive⟩

theorem DevicePackedCsr.WellFormed.nodup (wellFormed : matrix.WellFormed)
    (r : Fin matrix.rows.length) : (packedCols matrix r).Nodup :=
  (wellFormed.ascending _ (DevicePackedCsr.rowAt_mem r.isLt)).nodup_cols

section

variable (wellFormed : matrix.WellFormed) (passes : Passes (packedCols matrix))

include wellFormed passes

theorem DevicePackedCsr.WellFormed.renumbers : Renumbers passes.final.memory.colWeight matrix.nCols
      ((packedSurvivors passes).map matrix.rowAt) := by
  have old : ∀ row ∈ (packedSurvivors passes).map matrix.rowAt, row ∈ matrix.rows := by
    intro row member
    rcases List.mem_map.mp member with ⟨r, alive, rfl⟩
    exact DevicePackedCsr.rowAt_mem (mem_aliveRows.mp alive).1
  refine ⟨fun row member => wellFormed.ascending row (old row member),
    fun row member => wellFormed.column_lt row (old row member), ?_⟩
  intro row member entry inside
  rcases List.mem_map.mp member with ⟨r, alive, rfl⟩
  rcases mem_packedSurvivors.mp alive with ⟨isRow, survives⟩
  rw [(passes.shrunk wellFormed.nodup).reduced.weights, computeColWeights_eq wellFormed.nodup,
    Finset.card_pos]
  exact ⟨⟨r, isRow⟩, Finset.mem_filter.mpr ⟨survives, List.mem_map_of_mem inside⟩⟩

theorem packedSurvivors_of_empty (empty : matrix.rows.length = 0 ∨ matrix.nCols = 0) :
    packedSurvivors passes = List.range matrix.rows.length := by
  rcases empty with noRows | noCols
  · exact List.filter_eq_self.mpr fun r member =>
      absurd (List.mem_range.mp member) (by omega)
  · apply List.filter_eq_self.mpr
    intro r member
    have inside := List.mem_range.mp member
    rw [aliveAt, dif_pos inside, ← mem_survivors]
    apply (passes.shrunk wellFormed.nodup).reduced.core Finset.univ
    · intro c one
      rcases Finset.card_pos.mp (one ▸ Nat.one_pos) with ⟨other, isOther⟩
      rcases List.mem_map.mp (Finset.mem_filter.mp isOther).2 with ⟨entry, isEntry, -⟩
      have := wellFormed.column_lt _ (DevicePackedCsr.rowAt_mem other.isLt) entry isEntry
      omega
    · exact Finset.mem_univ _

theorem rowMap_gpuRemoveSingletonsPacked (buffer : Nat → Nat) :
    (gpuRemoveSingletonsPacked matrix passes buffer).rowMap = packedSurvivors passes := by
  unfold gpuRemoveSingletonsPacked
  split
  next empty => exact (packedSurvivors_of_empty wellFormed passes empty).symm
  next some =>
      have removed := (passes.shrunk wellFormed.nodup).reduced.removed
      rw [← length_aliveRows, Fintype.card_fin] at removed
      rw [compactPackedSingletons_eq (wellFormed.renumbers passes) removed (not_or.mp some).2]
      rfl

end

/-! ## Dependencies -/

def totalExponent (matrix : DevicePackedCsr) (chosen : Finset Nat) (c : Nat) : Nat :=
  ∑ r ∈ chosen, ((matrix.rowAt r).entries.map fun entry =>
    if entry.1 = c then entry.2.toNat else 0).sum

structure Dependency (matrix : DevicePackedCsr) (chosen : Finset Nat) : Prop where
  inside : chosen ⊆ Finset.range matrix.rows.length
  even : ∀ c, Even (totalExponent matrix chosen c)

structure KeepsKernel (matrix : DevicePackedCsr) (result : PackedSingletonResult) : Prop where
  survive : ∀ chosen, Dependency matrix chosen → ∀ r ∈ chosen, r ∈ result.rowMap
  kernel : Elimination.Expands (Finset.range result.reduced.rows.length)
    (fun i => (result.reduced.rowAt i).parity) (fun i => CudaMpqs.parity [result.rowMap.getD i 0])
    matrix.leftKernel

def NoSingleEntry (matrix : DevicePackedCsr) (rows : Finset Nat) : Prop :=
  ∀ c, (rows.filter fun r => c ∈ (matrix.rowAt r).cols).card ≠ 1

theorem natCast_totalExponent (matrix : DevicePackedCsr) (chosen : Finset Nat) (c : Nat) :
    (totalExponent matrix chosen c : ZMod 2) = ∑ r ∈ chosen, (matrix.rowAt r).parity c := by
  rw [totalExponent, Nat.cast_sum]
  refine Finset.sum_congr rfl fun r _ => ?_
  rw [PackedRow.parity, Nat.cast_list_sum, List.map_map]
  congr 1
  apply List.map_congr_left
  intro entry _
  simp only [Function.comp_apply, Nat.cast_ite, Nat.cast_zero]

theorem zero_or_one (x : ZMod 2) : x = 0 ∨ x = 1 := by
  revert x
  decide

private theorem dependency_support {y : Nat → ZMod 2} (kernel : y ∈ matrix.leftKernel) :
    Dependency matrix ((Finset.range matrix.rows.length).filter (y · = 1)) := by
  refine ⟨Finset.filter_subset _ _, fun c => ?_⟩
  rw [← ZMod.natCast_eq_zero_iff_even, natCast_totalExponent, ← kernel.2 c, Elimination.combine,
    Finset.sum_filter]
  refine Finset.sum_congr rfl fun r _ => ?_
  rcases zero_or_one (y r) with zero | one
  · simp [zero]
  · simp [one]

private theorem kernel_survivors {alive : List Nat} (inside : ∀ r ∈ alive, r < matrix.rows.length)
    (survive : ∀ chosen, Dependency matrix chosen → ∀ r ∈ chosen, r ∈ alive) :
    Elimination.Kernel alive.toFinset (fun r => (matrix.rowAt r).parity) = matrix.leftKernel := by
  have subset : alive.toFinset ⊆ Finset.range matrix.rows.length := fun r member =>
    Finset.mem_range.mpr (inside r (List.mem_toFinset.mp member))
  rw [Elimination.kernel_subset subset]
  apply Set.Subset.antisymm
  · exact fun y kernel => kernel.1
  · refine fun y kernel => ⟨kernel, fun r dead => ?_⟩
    by_contra some
    have one : y r = 1 := (zero_or_one (y r)).resolve_left some
    apply dead
    rw [List.mem_toFinset]
    refine survive _ (dependency_support kernel) r (Finset.mem_filter.mpr ⟨?_, one⟩)
    by_contra outside
    exact some (kernel.1 r outside)

private theorem expands_survivors {alive : List Nat} (inside : ∀ r ∈ alive, r < matrix.rows.length)
    (survive : ∀ chosen, Dependency matrix chosen → ∀ r ∈ chosen, r ∈ alive) :
    Elimination.Expands alive.toFinset (fun r => (matrix.rowAt r).parity)
      (fun r => CudaMpqs.parity [r]) matrix.leftKernel := by
  rw [Elimination.Expands, kernel_survivors inside survive]
  refine (Set.bijOn_id _).congr fun y kernel => ?_
  rw [← kernel_survivors inside survive] at kernel
  exact (combine_parity_singleton _ kernel.1).symm

theorem keepsKernel_of_survive (wellFormed : matrix.WellFormed)
    (passes : Passes (packedCols matrix)) (buffer : Nat → Nat)
    (survive : ∀ chosen, Dependency matrix chosen → ∀ r ∈ chosen, r ∈ packedSurvivors passes) :
    KeepsKernel matrix (gpuRemoveSingletonsPacked matrix passes buffer) := by
  have isRowMap := rowMap_gpuRemoveSingletonsPacked wellFormed passes buffer
  refine ⟨by rwa [isRowMap], ?_⟩
  rw [isRowMap]
  have expands := @expands_survivors matrix (packedSurvivors passes)
    (fun r alive => (mem_aliveRows.mp alive).1) survive
  unfold gpuRemoveSingletonsPacked
  split
  next empty =>
      have all := packedSurvivors_of_empty wellFormed passes empty
      rw [all] at expands ⊢
      rw [List.toFinset_range] at expands
      refine expands.congr (fun _ _ => rfl) fun r member => ?_
      rw [List.getD_eq_getElem _ _ (by simpa using member), List.getElem_range]
  next some =>
      have removed := (passes.shrunk wellFormed.nodup).reduced.removed
      rw [← length_aliveRows, Fintype.card_fin] at removed
      have renumbers := wellFormed.renumbers passes
      rw [compactPackedSingletons_eq renumbers removed (not_or.mp some).2]
      have image : ((Finset.range (packedSurvivors passes).length).image
          (placeOf matrix.rows.length (aliveAt passes.final.memory.rowAlive))) =
          (packedSurvivors passes).toFinset := by
        rw [packedSurvivors, image_placeOf, aliveRows, List.toFinset_filter, List.toFinset_range]
      rw [← image] at expands
      have compacted := renumbers.compacts.expands expands
      rw [DevicePackedCsr.renumber, List.length_map, List.length_map]
      exact compacted

theorem noSingleEntry_map {rows : Finset (Fin matrix.rows.length)} :
    NoSingleEntry matrix (rows.map Fin.valEmbedding) ↔
      SingletonFree (fun r c => c ∈ packedCols matrix r) rows := by
  apply forall_congr'
  intro c
  rw [Finset.filter_map, Finset.card_map]
  rfl

private theorem toFinset_packedSurvivors (passes : Passes (packedCols matrix)) :
    (packedSurvivors passes).toFinset =
      (survivors passes.final.memory.rowAlive).map Fin.valEmbedding := by
  ext r
  rw [List.mem_toFinset, mem_packedSurvivors, Finset.mem_map]
  constructor
  · rintro ⟨inside, alive⟩
    exact ⟨⟨r, inside⟩, alive, rfl⟩
  · rintro ⟨row, alive, rfl⟩
    exact ⟨row.isLt, alive⟩

/-- All interleavings keep the dependencies if and only if each of them lies in a set of
rows without columns of one entry. -/
theorem gpuRemoveSingletonsPacked_keepsKernel_iff (wellFormed : matrix.WellFormed) :
    (∀ (passes : Passes (packedCols matrix)) (buffer : Nat → Nat),
        KeepsKernel matrix (gpuRemoveSingletonsPacked matrix passes buffer)) ↔
      ∀ chosen, Dependency matrix chosen → ∃ rows ⊆ Finset.range matrix.rows.length,
        chosen ⊆ rows ∧ NoSingleEntry matrix rows := by
  constructor
  · intro keeps chosen dependency
    rcases exists_core_passes wellFormed.nodup with ⟨passes, isCore⟩
    have survive := (keeps passes id).survive chosen dependency
    rw [rowMap_gpuRemoveSingletonsPacked wellFormed] at survive
    refine ⟨(packedSurvivors passes).toFinset, ?_, ?_, ?_⟩
    · intro r member
      exact Finset.mem_range.mpr (mem_aliveRows.mp (List.mem_toFinset.mp member)).1
    · exact fun r member => List.mem_toFinset.mpr (survive r member)
    · rw [toFinset_packedSurvivors]
      exact noSingleEntry_map.mpr isCore.1.2
  · intro condition passes buffer
    apply keepsKernel_of_survive wellFormed
    intro chosen dependency r member
    rcases condition chosen dependency with ⟨rows, inside, subset, free⟩
    have isRow := Finset.mem_range.mp (inside (subset member))
    have threads : (Finset.univ.filter fun r : Fin matrix.rows.length => (r : Nat) ∈ rows).map
        Fin.valEmbedding = rows := by
      ext other
      simp only [Finset.mem_map, Finset.mem_filter, Finset.mem_univ, true_and,
        Fin.valEmbedding_apply]
      constructor
      · rintro ⟨thread, isOther, rfl⟩
        exact isOther
      · exact fun isOther => ⟨⟨other, Finset.mem_range.mp (inside isOther)⟩, isOther, rfl⟩
    rw [← threads] at free
    refine mem_packedSurvivors.mpr ⟨isRow, ?_⟩
    apply (passes.shrunk wellFormed.nodup).reduced.core _ (noSingleEntry_map.mp free)
    exact Finset.mem_filter.mpr ⟨Finset.mem_univ _, subset member⟩

def squaredMatrix : DevicePackedCsr where
  rows := [⟨[(0, 1), (1, 2)], UInt512.ofUInt32 1, 0xFF, 0, 0⟩,
    ⟨[(0, 1)], UInt512.ofUInt32 1, 0xFF, 0, 0⟩]
  nCols := 2

theorem gpuRemoveSingletonsPacked_keepsKernel_iff_squared :
    (∀ (passes : Passes (packedCols squaredMatrix)) (buffer : Nat → Nat),
        KeepsKernel squaredMatrix (gpuRemoveSingletonsPacked squaredMatrix passes buffer)) ↔
      ∀ chosen, Dependency squaredMatrix chosen → ∃ rows ⊆ Finset.range squaredMatrix.rows.length,
          chosen ⊆ rows ∧ NoSingleEntry squaredMatrix rows :=
  gpuRemoveSingletonsPacked_keepsKernel_iff (by decide)

def squaredPasses : Passes (packedCols squaredMatrix) where
  schedules := List.replicate 100 (List.replicate 8 (List.finRange 2)).flatten
  length := by decide
  synchronized := by decide +kernel

/-- The square stands alone in its column, and with its row the dependency goes. -/
theorem gpuRemoveSingletonsPacked_losesDependency : Dependency squaredMatrix {0, 1} ∧
      (gpuRemoveSingletonsPacked squaredMatrix squaredPasses id).rowMap = [] ∧
      ¬ KeepsKernel squaredMatrix (gpuRemoveSingletonsPacked squaredMatrix squaredPasses id) := by
  have dependency : Dependency squaredMatrix {0, 1} := by
    refine ⟨by decide, fun c => ?_⟩
    match c with
    | 0 => decide
    | 1 => decide
    | c + 2 => simp [totalExponent, squaredMatrix, DevicePackedCsr.rowAt]
  have removed : (gpuRemoveSingletonsPacked squaredMatrix squaredPasses id).rowMap = [] := by
    decide +kernel
  refine ⟨dependency, removed, fun keeps => ?_⟩
  have survives := keeps.survive {0, 1} dependency 0 (by decide)
  rw [removed] at survives
  cases survives

end CudaMpqs
