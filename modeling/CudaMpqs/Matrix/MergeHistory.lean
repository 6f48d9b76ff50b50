import CudaMpqs.Matrix.CompactMergeCycles
import CudaMpqs.Matrix.PackedSingleton

/-! # Where merged rows come from

Any sequence of launches, compactions and removals of singletons, and the original rows
that each row has absorbed. -/

namespace CudaMpqs.BatchMerge

open Combine Function Transition PackedRow RowJoin SingletonPass

/-! ## The merges of a launch -/

section Launch

variable {rows : Nat} {launch : Launch rows}

def storedSlot (state : KernelState launch) (thread : launch.Thread) : Nat :=
  (state.threads thread).job.elim 0 Job.slot

def executedThreads (state : KernelState launch) : List launch.Thread :=
  ((List.finRange _).filter fun thread => (state.threads thread).job.isSome).mergeSort
    fun left right => decide (storedSlot state left ≤ storedSlot state right)

theorem Launched.order_eq {state : KernelState launch} {order : List launch.Thread}
    (launched : Launched launch state order) : order = executedThreads state := by
  have executed : ∀ thread ∈ order, ∃ job, (state.threads thread).job = some job :=
    fun thread member => Option.isSome_iff_exists.mp ((launched.executed thread).mp member)
  have sorted : order.Pairwise fun left right =>
      storedSlot state left ≤ storedSlot state right := by
    apply launched.reservations.imp_of_mem
    intro earlier later isEarlier isLater reserved
    rcases executed earlier isEarlier with ⟨job, isJob⟩
    rcases executed later isLater with ⟨job', isJob'⟩
    rw [storedSlot, storedSlot, isJob, isJob']
    exact (reserved job job' isJob isJob').le
  have sorted' : (executedThreads state).Pairwise fun left right =>
      storedSlot state left ≤ storedSlot state right := by
    refine (List.pairwise_mergeSort ?_ ?_ _).imp of_decide_eq_true
    · intro a b c first second
      exact decide_eq_true ((of_decide_eq_true first).trans (of_decide_eq_true second))
    · intro a b
      simpa using Nat.le_total _ _
  have perm : order.Perm (executedThreads state) := by
    refine List.Perm.trans ?_ (List.mergeSort_perm _ _).symm
    apply (List.perm_ext_iff_of_nodup launched.nodup ((List.nodup_finRange _).filter _)).mpr
    intro thread
    simp [launched.executed thread]
  refine perm.eq_of_pairwise ?_ sorted sorted'
  intro thread other member member' below above
  by_contra different
  rcases executed thread member with ⟨job, isJob⟩
  rcases executed other (perm.mem_iff.mpr member') with ⟨job', isJob'⟩
  rw [storedSlot, storedSlot, isJob, isJob'] at below above
  exact (launched.apart isJob isJob' different).1 (le_antisymm below above)

def launchedPairs (launch : Launch rows) (schedule : List launch.Thread) :
    List (Fin rows × Fin rows) :=
  mergedPairs launch (executedThreads (runKernel launch schedule))

theorem launch_replays (reached : Reached launch.context launch.device)
    {schedule : List launch.Thread} (finished : (runKernel launch schedule).Finished) :
    Legal (join launch.context.mont) (launch.device.table launch.context)
        (launchedPairs launch schedule) ∧
      (runKernel launch schedule).memory.table launch.context =
        replay (join launch.context.mont) (launch.device.table launch.context)
          (launchedPairs launch schedule) := by
  rcases executeMerges_launched launch reached schedule finished with ⟨order, launched⟩
  have legal := launched.legal
  have table := launched.table
  rw [launched.order_eq] at legal table
  exact ⟨legal, table⟩

end Launch

/-! ## Replacements -/

structure PackedCsr.Stores {rows : Nat} (matrix : PackedCsr rows) (mont : Montgomery)
    (csr : DevicePackedCsr) : Prop where
  count : rows = csr.rows.length
  row : ∀ row : Fin rows, matrix.csr row = csr.rowAt row
  nCols : matrix.nCols = csr.nCols
  mont : matrix.mont = mont

section Singletons

variable {rows : Nat} {matrix : PackedCsr rows} {csr : DevicePackedCsr} {mont : Montgomery}

theorem PackedCsr.Stores.exists_row (stores : matrix.Stores mont csr) {packed : PackedRow}
    (isRow : packed ∈ csr.rows) : ∃ row, matrix.csr row = packed := by
  rcases List.getElem_of_mem isRow with ⟨r, inside, rfl⟩
  refine ⟨⟨r, inside.trans_eq stores.count.symm⟩, ?_⟩
  rw [stores.row, DevicePackedCsr.rowAt, List.getD_eq_getElem _ _ inside]

theorem PackedCsr.Stores.wellFormed (stores : matrix.Stores mont csr) : csr.WellFormed where
  ascending packed isRow := by
    rcases stores.exists_row isRow with ⟨row, rfl⟩
    exact matrix.ascending row
  column_lt packed isRow := by
    rcases stores.exists_row isRow with ⟨row, rfl⟩
    rw [← stores.nCols]
    exact matrix.column_lt row

private theorem relocated_self (stores : matrix.Stores mont csr) (workspace : Workspace) :
    Relocated matrix (freshDevice matrix.toContext workspace) csr (List.range csr.rows.length)
      (List.range csr.nCols) where
  wellFormed := stores.wellFormed
  ascending := List.pairwise_lt_range
  rows_length := List.length_range.symm
  columns_length := List.length_range.symm
  columns_ascending := List.pairwise_lt_range
  column_lt c member := (List.mem_range.mp member).trans_eq stores.nCols.symm
  row := by
    intro i r isPlace
    rcases List.getElem?_eq_some_iff.mp isPlace with ⟨bound, value⟩
    rw [List.getElem_range] at value
    subst value
    have inside : i < rows := by simpa [stores.count] using bound
    refine ⟨inside, ?_⟩
    change some (matrix.csr ⟨i, inside⟩) = _
    rw [stores.row, remap_eq_self]
    intro entry member
    have column := stores.wellFormed.column_lt _
      (DevicePackedCsr.rowAt_mem (inside.trans_eq stores.count)) entry member
    rw [List.getD_eq_getElem _ _ (by simpa using column), List.getElem_range]

theorem gpuRemoveSingletonsPacked_relocated (stores : matrix.Stores mont csr)
    (workspace : Workspace) (passes : Passes (packedCols csr)) (buffer : Nat → Nat) :
    Relocated matrix (freshDevice matrix.toContext workspace)
      (gpuRemoveSingletonsPacked csr passes buffer).reduced
      (gpuRemoveSingletonsPacked csr passes buffer).rowMap
      (gpuRemoveSingletonsPacked csr passes buffer).colMap := by
  have wellFormed := stores.wellFormed
  have count := stores.count
  subst count
  unfold gpuRemoveSingletonsPacked
  split
  next empty => exact relocated_self stores workspace
  next some =>
      have removed := (passes.shrunk wellFormed.nodup).reduced.removed
      rw [← length_aliveRows, Fintype.card_fin] at removed
      have renumbers := wellFormed.renumbers passes
      rw [compactPackedSingletons_eq renumbers removed (not_or.mp some).2, ← stores.nCols]
      rw [packedSurvivors, ← stores.nCols] at renumbers
      apply relocated_renumber renumbers
      intro r isAlive
      have inside := (mem_aliveRows.mp isAlive).1
      exact ⟨inside, congrArg Option.some (stores.row ⟨r, inside⟩)⟩

end Singletons

/-! ## Histories -/

/-- A merged matrix, the original column of each of its columns, and the original rows
that each of its rows has absorbed. -/
structure History (originals : Nat) where
  rows : Nat
  matrix : PackedCsr rows
  device : Device rows
  reached : Reached matrix.toContext device
  colMap : List Nat
  constituents : Fin rows → Finset (Fin originals)

variable {originals : Nat}

def History.start (first : PackedCsr originals) (workspace : Workspace) : History originals where
  rows := originals
  matrix := first
  device := freshDevice first.toContext workspace
  reached := first.reached_fresh workspace
  colMap := List.range first.nCols
  constituents row := {row}

def History.launch (history : History originals)
    (candidates : List (MergeCandidate history.rows)) : Launch history.rows :=
  ⟨history.matrix.toContext, history.device, candidates⟩

def History.launched (history : History originals) (candidates : List (MergeCandidate history.rows))
    (schedule : List (history.launch candidates).Thread)
    (finished : (runKernel (history.launch candidates) schedule).Finished) : History originals :=
  { history with
    device := (runKernel (history.launch candidates) schedule).memory.toDevice
    reached := .launch history.reached schedule finished
    constituents := fun row =>
      (absorbed (launchedPairs (history.launch candidates) schedule) row).biUnion
        history.constituents }

def History.copied (history : History originals) (rowMap : List Nat) (r : Nat) :
    Finset (Fin originals) :=
  match rowMap[r]? with
  | some source =>
    if inside : source < history.rows then history.constituents ⟨source, inside⟩ else ∅
  | none => ∅

def History.replaced (history : History originals) (rowMap colMap : List Nat) {rows : Nat}
    (next : PackedCsr rows) (workspace : Workspace) : History originals where
  rows := rows
  matrix := next
  device := freshDevice next.toContext workspace
  reached := next.reached_fresh workspace
  colMap := colMap.map (history.colMap.getD · 0)
  constituents row := history.copied rowMap row

/-- The matrices that take over: a compaction, and where nothing has been merged what a
removal of singletons keeps. -/
inductive History.Replacement (history : History originals) :
    DevicePackedCsr → List Nat → List Nat → Prop where
  | compaction : Replacement history (gpuCompactPackedCSR history.matrix history.device).csr
      (gpuCompactPackedCSR history.matrix history.device).rowMap
      (gpuCompactPackedCSR history.matrix history.device).colMap
  | singletons {csr : DevicePackedCsr} (stores : history.matrix.Stores history.matrix.mont csr)
      {workspace : Workspace}
      (untouched : history.device = freshDevice history.matrix.toContext workspace)
      (passes : Passes (packedCols csr)) (buffer : Nat → Nat) :
      Replacement history (gpuRemoveSingletonsPacked csr passes buffer).reduced
        (gpuRemoveSingletonsPacked csr passes buffer).rowMap
        (gpuRemoveSingletonsPacked csr passes buffer).colMap

/-- Launches and replacements in any order, each launch one that `Meets` admits. -/
inductive Histories (first : PackedCsr originals)
    (Meets : ∀ history : History originals, List (MergeCandidate history.rows) → Prop) :
    History originals → Prop where
  | start (workspace : Workspace) : Histories first Meets (.start first workspace)
  | launch {history : History originals} (histories : Histories first Meets history)
      {candidates : List (MergeCandidate history.rows)} (meets : Meets history candidates)
      (schedule : List (history.launch candidates).Thread)
      (finished : (runKernel (history.launch candidates) schedule).Finished) :
      Histories first Meets (history.launched candidates schedule finished)
  | replace {history : History originals} (histories : Histories first Meets history)
      {csr : DevicePackedCsr} {rowMap colMap : List Nat}
      (replacement : history.Replacement csr rowMap colMap) {rows : Nat} {next : PackedCsr rows}
      (stores : next.Stores history.matrix.mont csr) (workspace : Workspace) :
      Histories first Meets (history.replaced rowMap colMap next workspace)

/-! ## Tracing back -/

def History.original (history : History originals) (packed : PackedRow) : PackedRow :=
  packed.remap fun c => history.colMap.getD c 0

/-- The columns are original columns in their order, and the rows share no constituent. -/
structure History.Traced (first : PackedCsr originals) (history : History originals) : Prop where
  columns_length : history.colMap.length = history.matrix.nCols
  columns_ascending : history.colMap.Pairwise (· < ·)
  column_lt : ∀ c ∈ history.colMap, c < first.nCols
  disjoint : ∀ row row', row ≠ row' →
    Disjoint (history.constituents row) (history.constituents row')

theorem History.traced_start (first : PackedCsr originals) (workspace : Workspace) :
    (History.start first workspace).Traced first where
  columns_length := List.length_range
  columns_ascending := List.pairwise_lt_range
  column_lt _ member := List.mem_range.mp member
  disjoint _ _ different := Finset.disjoint_singleton.mpr different

variable {first : PackedCsr originals}

theorem History.Traced.launched {history : History originals} (traced : history.Traced first)
    {candidates : List (MergeCandidate history.rows)}
    (schedule : List (history.launch candidates).Thread)
    (finished : (runKernel (history.launch candidates) schedule).Finished) :
    (history.launched candidates schedule finished).Traced first where
  columns_length := traced.columns_length
  columns_ascending := traced.columns_ascending
  column_lt := traced.column_lt
  disjoint row row' different := by
    simp only [History.launched, Finset.disjoint_biUnion_left, Finset.disjoint_biUnion_right]
    intro source member source' member'
    apply traced.disjoint
    rintro rfl
    exact Finset.disjoint_left.mp (absorbed_disjoint _ different) member' member

variable {csr : DevicePackedCsr}

theorem History.Replacement.relocated {history : History originals} {rowMap colMap : List Nat}
    (replacement : history.Replacement csr rowMap colMap) :
    Relocated history.matrix history.device csr rowMap colMap := by
  cases replacement with
  | compaction => exact gpuCompactPackedCSR_relocated history.reached
  | singletons stores untouched passes buffer =>
    rw [untouched]
    exact gpuRemoveSingletonsPacked_relocated stores _ passes buffer

section Replaced

variable {history : History originals} {rowMap colMap : List Nat} {rows : Nat}
  {next : PackedCsr rows}

theorem History.exists_copied
    (relocated : Relocated history.matrix history.device csr rowMap colMap)
    (stores : next.Stores history.matrix.mont csr) (row : Fin rows) :
    ∃ source : Fin history.rows, rowMap[row.val]? = some source.val ∧
      history.copied rowMap row = history.constituents source ∧
      history.device.table history.matrix.toContext source =
        some ((next.csr row).remap fun c => colMap.getD c 0) := by
  have bound : row.val < rowMap.length :=
    row.isLt.trans_eq (stores.count.trans relocated.rows_length)
  have isSource := List.getElem?_eq_getElem bound
  rcases relocated.row isSource with ⟨inside, isTable⟩
  refine ⟨⟨_, inside⟩, isSource, ?_, ?_⟩
  · rw [History.copied, isSource]
    exact dif_pos inside
  · rw [isTable, stores.row]

theorem History.Traced.replaced {first : PackedCsr originals} (traced : history.Traced first)
    (relocated : Relocated history.matrix history.device csr rowMap colMap)
    (stores : next.Stores history.matrix.mont csr) (workspace : Workspace) :
    (history.replaced rowMap colMap next workspace).Traced first := by
  have inside : ∀ c ∈ colMap, c < history.colMap.length := by
    intro c member
    rw [traced.columns_length]
    exact relocated.column_lt c member
  constructor
  · rw [History.replaced, List.length_map, stores.nCols]
    exact relocated.columns_length.symm
  · apply List.pairwise_map.mpr
    refine relocated.columns_ascending.imp_of_mem ?_
    intro c c' member member' less
    rw [List.getD_eq_getElem _ _ (inside c member), List.getD_eq_getElem _ _ (inside c' member')]
    exact List.pairwise_iff_getElem.mp traced.columns_ascending _ _ _ _ less
  · intro c member
    rcases List.mem_map.mp member with ⟨old, isOld, rfl⟩
    rw [List.getD_eq_getElem _ _ (inside old isOld)]
    exact traced.column_lt _ (List.getElem_mem _)
  · intro row row' different
    rcases History.exists_copied relocated stores row with ⟨source, isSource, copied, -⟩
    rcases History.exists_copied relocated stores row' with ⟨source', isSource', copied', -⟩
    change Disjoint (history.copied rowMap row) (history.copied rowMap row')
    rw [copied, copied']
    apply traced.disjoint
    rintro rfl
    have nodup : rowMap.Nodup := relocated.ascending.imp fun less => less.ne
    have bound := (List.getElem?_eq_some_iff.mp isSource).1
    exact different (Fin.ext ((List.getElem?_inj bound nodup).mp (isSource.trans isSource'.symm)))

end Replaced

variable {Meets : ∀ history : History originals, List (MergeCandidate history.rows) → Prop}

theorem Histories.traced {history : History originals} (histories : Histories first Meets history) :
    history.Traced first := by
  induction histories with
  | start workspace => exact History.traced_start first workspace
  | launch histories meets schedule finished induction => exact induction.launched schedule finished
  | replace histories replacement stores workspace induction =>
    exact induction.replaced replacement.relocated stores workspace

theorem Histories.mont {history : History originals} (histories : Histories first Meets history) :
    history.matrix.mont = first.mont := by
  induction histories with
  | start => rfl
  | launch histories meets schedule finished induction => exact induction
  | replace histories replacement stores workspace induction => exact stores.mont.trans induction

/-! ## Sums over constituents -/

variable {packed : PackedRow}

private theorem remap_congr {newCol newCol' : Nat → Nat}
    (same : ∀ entry ∈ packed.entries, newCol entry.1 = newCol' entry.1) :
    packed.remap newCol = packed.remap newCol' := by
  unfold PackedRow.remap
  congr 1
  apply List.map_congr_left
  intro entry member
  rw [same entry member]

theorem History.original_replaced {history : History originals} {rowMap colMap : List Nat}
    {rows : Nat} {next : PackedCsr rows}
    (relocated : Relocated history.matrix history.device csr rowMap colMap)
    (stores : next.Stores history.matrix.mont csr) (workspace : Workspace) (row : Fin rows) :
    (history.replaced rowMap colMap next workspace).original (next.csr row) =
      history.original ((next.csr row).remap fun c => colMap.getD c 0) := by
  rw [History.original, History.original, remap_remap]
  apply remap_congr
  intro entry member
  have inside : entry.1 < colMap.length :=
    ((next.column_lt row entry member).trans_eq stores.nCols).trans_eq relocated.columns_length
  simp only [History.replaced, Function.comp_apply]
  rw [List.getD_eq_getElem _ _ (by simpa using inside), List.getElem_map,
    List.getD_eq_getElem _ _ inside]

theorem History.original_start (workspace : Workspace) (row : Fin originals) :
    (History.start first workspace).original (first.csr row) = first.csr row := by
  apply remap_eq_self
  intro entry member
  have inside := first.column_lt row entry member
  rw [History.start, List.getD_eq_getElem _ _ (by simpa using inside), List.getElem_range]

/-- A quantity that merges add up is, in each row, the sum over the constituents. -/
theorem Histories.valueOf_original {A : Type} [AddCommMonoid A] {measure : PackedRow → A}
    (additive : ∀ mont newCol left right, measure ((join mont left right).remap newCol) =
      measure (left.remap newCol) + measure (right.remap newCol))
    {history : History originals} (histories : Histories first Meets history)
    (row : Fin history.rows) :
    valueOf (fun packed => measure (history.original packed))
        (history.device.table history.matrix.toContext row) =
      ∑ source ∈ history.constituents row, measure (first.csr source) := by
  induction histories with
  | start workspace =>
    refine (congrArg measure (History.original_start workspace row)).trans ?_
    exact (Finset.sum_singleton _ _).symm
  | @launch history histories candidates meets schedule finished induction =>
    rcases @launch_replays _ (history.launch candidates) history.reached _ finished with
      ⟨legal, table⟩
    have sums : valueOf (fun packed => measure (history.original packed))
        ((runKernel (history.launch candidates) schedule).memory.table
          (history.launch candidates).context row) =
        ∑ source ∈ absorbed (launchedPairs (history.launch candidates) schedule) row,
          valueOf (fun packed => measure (history.original packed))
            (history.device.table history.matrix.toContext source) := by
      rw [table]
      exact valueOf_replay (fun left right => additive _ _ left right) legal row
    refine sums.trans ?_
    change _ = ∑ source ∈ (absorbed (launchedPairs (history.launch candidates) schedule)
      row).biUnion history.constituents, _
    rw [Finset.sum_biUnion]
    · exact Finset.sum_congr rfl fun source _ => induction source
    · exact fun source _ source' _ different => histories.traced.disjoint source source' different
  | replace histories replacement stores workspace induction =>
    have relocated := replacement.relocated
    rcases History.exists_copied relocated stores row with ⟨source, -, copied, isTable⟩
    refine (congrArg measure (History.original_replaced relocated stores workspace row)).trans ?_
    change _ = ∑ source ∈ History.copied _ _ row, _
    rw [copied, ← induction source, isTable]
    rfl

def xorRows (first : PackedCsr originals) (constituents : Finset (Fin originals)) : Nat → ZMod 2 :=
  ∑ source ∈ constituents, (first.csr source).parity

theorem Histories.parity_original {history : History originals}
    (histories : Histories first Meets history) {row : Fin history.rows}
    (isRow : history.device.table history.matrix.toContext row = some packed) :
    (history.original packed).parity = xorRows first (history.constituents row) := by
  have sums := histories.valueOf_original parity_remap_join row
  rwa [isRow] at sums

/-! ## Planned rounds -/

inductive History.Planned (history : History originals) :
    List (MergeCandidate history.rows) → Prop where
  | weight2 : Planned history (planWeight2Merges history.matrix history.device)
  | higher (kMax maxFillIn : BitVec 32) :
      Planned history (planHigherWeightMerges history.matrix history.device kMax maxFillIn)

theorem History.Planned.separate {history : History originals}
    {candidates : List (MergeCandidate history.rows)} (planned : history.Planned candidates) :
    candidates.Pairwise Separate := by
  cases planned with
  | weight2 => exact separate_planWeight2Merges _ _
  | higher kMax maxFillIn => exact separate_planHigherWeightMerges history.reached kMax maxFillIn

/-- A planned round, and `Meets` holds of the rows of each candidate that can come first. -/
structure RoundMeets (Meets : PackedRow → PackedRow → Prop) (history : History originals)
    (candidates : List (MergeCandidate history.rows)) : Prop where
  planned : history.Planned candidates
  meets : ∀ candidate ∈ candidates, Ready history.matrix.toContext history.device candidate →
    ∀ left right, Mergeable (history.device.table history.matrix.toContext) candidate left right →
      Meets left right

/-- The rows of a round have what the rows before it have, if the joins preserve it. -/
theorem RoundMeets.forall_launched {Good : PackedRow → Prop}
    {Meets : PackedRow → PackedRow → Prop} {history : History originals}
    {candidates : List (MergeCandidate history.rows)}
    (roundMeets : RoundMeets Meets history candidates)
    (preserves : ∀ left right, Meets left right → Good left → Good right →
      Good (join history.matrix.mont left right))
    (before : ∀ row packed, history.device.table history.matrix.toContext row = some packed →
      Good packed)
    (schedule : List (history.launch candidates).Thread)
    (finished : (runKernel (history.launch candidates) schedule).Finished)
    {row : Fin history.rows} {packed : PackedRow}
    (isRow : (history.launched candidates schedule finished).device.table
      history.matrix.toContext row = some packed) : Good packed := by
  rcases executeMerges_launched (history.launch candidates) history.reached schedule finished with
    ⟨order, launched⟩
  have separate : (history.launch candidates).candidates.Pairwise Separate :=
    roundMeets.planned.separate
  refine replay_forall_of preserves before ?_ ((congrFun launched.table row).symm.trans isRow)
  intro pairs pair later isPairs left right isLeft isRight
  rcases List.map_eq_append_iff.mp isPairs with ⟨threads, rest, isOrder, rfl, isRest⟩
  rcases List.map_eq_cons_iff.mp isRest with ⟨thread, threads', rfl, rfl, -⟩
  have member : thread ∈ order := isOrder ▸ List.mem_append_right _ List.mem_cons_self
  rcases launched.serial_eq separate isOrder with ⟨first, second⟩
  rcases launched.mergeable_first separate member with ⟨left', right', mergeable, -⟩
  have sameLeft : left' = left :=
    Option.some.inj (mergeable.first.symm.trans (first.symm.trans isLeft))
  have sameRight : right' = right :=
    Option.some.inj (mergeable.second.symm.trans (second.symm.trans isRight))
  rw [← sameLeft, ← sameRight]
  exact roundMeets.meets _ (List.get_mem _ _) (launched.ready separate member) _ _ mergeable

theorem Histories.forall_original {Good : PackedRow → Prop} {Meets : PackedRow → PackedRow → Prop}
    (start : ∀ row, Good (first.csr row))
    (preserves : ∀ newCol left right, Meets left right → Good (left.remap newCol) →
      Good (right.remap newCol) → Good ((join first.mont left right).remap newCol))
    {history : History originals} (histories : Histories first (RoundMeets Meets) history)
    {row : Fin history.rows}
    (isRow : history.device.table history.matrix.toContext row = some packed) :
    Good (history.original packed) := by
  induction histories generalizing packed with
  | start workspace =>
    injection isRow with equal
    rw [← equal]
    exact (History.original_start workspace row).symm ▸ start row
  | @launch history histories candidates roundMeets schedule finished induction =>
    refine @RoundMeets.forall_launched _ (fun packed => Good (history.original packed)) _ _ _
      roundMeets ?_ (fun row packed isRow => induction isRow) schedule finished _ _ isRow
    rw [histories.mont]
    exact fun left right => preserves _ left right
  | replace histories replacement stores workspace induction =>
    injection isRow with equal
    rcases History.exists_copied replacement.relocated stores row with ⟨source, -, -, isTable⟩
    rw [← equal]
    exact (History.original_replaced replacement.relocated stores workspace row).symm ▸
      induction isTable

/-! ## The driver -/

end CudaMpqs.BatchMerge
