import CudaMpqs.Matrix.MergeLaunch

/-! # Planning weight-2 merges

`planWeight2Merges` pairs the two rows of each column of binary weight two. What the
kernel makes of such a plan loses no dependency of the alive rows. -/

namespace CudaMpqs.BatchMerge

open Combine Function Transition PackedRow RowJoin

structure PackedCsr (rows : Nat) extends Context rows where
  nCols : Nat
  ascending : ∀ row, (csr row).Ascending
  column_lt : ∀ row, ∀ entry ∈ (csr row).entries, entry.1 < nCols

variable {rows : Nat} {matrix : PackedCsr rows} {device : Device rows}

/-! ## Host -/

def pushRows (nCols c : Nat) (r : Fin rows) (entries : List PackedEntry) : List (Fin rows) :=
  (entries.filter fun entry =>
    decide (entry.1 < nCols) && oddExp entry && entry.1 == c).map fun _ => r

def buildInvertedIndex (matrix : PackedCsr rows) (device : Device rows) (c : Nat) :
    List (Fin rows) :=
  (List.finRange rows).flatMap fun r =>
    match device.rowPtr r with
    | some (.original source) => pushRows matrix.nCols c r (matrix.csr source).entries
    | _ => []

structure Plan (rows : Nat) where
  candidates : List (MergeCandidate rows)
  rowUsed : Fin rows → Bool

def emptyPlan : Plan rows := ⟨[], fun _ => false⟩

def planWeight2Column (device : Device rows) (colRows : Nat → List (Fin rows))
    (plan : Plan rows) (c : Nat) : Plan rows :=
  if device.gf2ColWeight c ≠ 2 then plan
  else
    match (colRows c).filter fun r => (device.rowPtr r).isSome with
    | r1 :: r2 :: _ =>
      if plan.rowUsed r1 || plan.rowUsed r2 then plan
      else ⟨plan.candidates ++ [⟨r1, r2, c⟩], update (update plan.rowUsed r1 true) r2 true⟩
    | _ => plan

def planWeight2Merges (matrix : PackedCsr rows) (device : Device rows) :
    List (MergeCandidate rows) :=
  ((List.range matrix.nCols).foldl
    (planWeight2Column device (buildInvertedIndex matrix device)) emptyPlan).candidates

/-! ## Alive rows -/

theorem Reached.ascending (reached : Reached matrix.toContext device) {row : Fin rows}
    {packed : PackedRow} (isRow : device.table matrix.toContext row = some packed) :
    packed.Ascending := by
  induction reached generalizing row packed with
  | fresh workspace =>
    injection isRow with equal
    exact equal ▸ matrix.ascending row
  | @launch device candidates reached schedule finished induction =>
    rcases executeMerges_launched ⟨matrix.toContext, device, candidates⟩ reached schedule
      finished with ⟨order, launched⟩
    have isSerial := isRow
    rw [launched.table] at isSerial
    exact replay_forall (fun left right => ascending_join _) (fun row packed => induction)
      isSerial

theorem odd_le_one (reached : Reached matrix.toContext device) (c : Nat) (row : Fin rows) :
    valueOf (oddCount c) (device.table matrix.toContext row) ≤ 1 := by
  cases isRow : device.table matrix.toContext row with
  | none => exact Nat.zero_le _
  | some packed => exact (reached.ascending isRow).oddCount_le c

theorem toNat_gf2ColWeight (reached : Reached matrix.toContext device) (c : Nat) :
    (device.gf2ColWeight c).toNat =
      ∑ row, valueOf (oddCount c) (device.table matrix.toContext row) := by
  have cast : device.gf2ColWeight c =
      ((∑ row, valueOf (oddCount c) (device.table matrix.toContext row) : Nat) : BitVec 32) := by
    rw [reached.valid.gf2ColWeight c, columnWeight, Nat.cast_sum]
    apply Finset.sum_congr rfl
    intro row _
    cases device.table matrix.toContext row <;> rfl
  have small : ∑ row, valueOf (oddCount c) (device.table matrix.toContext row) < 2 ^ 32 := by
    refine (Finset.sum_le_card_nsmul _ _ 1 fun row _ => odd_le_one reached c row).trans_lt ?_
    rw [Finset.card_univ, Fintype.card_fin, smul_eq_mul, mul_one]
    exact matrix.rows_lt.trans (by decide)
  rw [cast]
  exact Nat.mod_eq_of_lt small

private theorem valueOf_parity (table : Option PackedRow) (c : Nat) :
    valueOf PackedRow.parity table c = (valueOf (oddCount c) table : Nat) := by
  cases table with
  | none => rfl
  | some packed => exact parity_eq_oddCount packed c

theorem alike_of_weight_two {table : Fin rows → Option PackedRow} {y : Fin rows → ZMod 2}
    (kernel : y ∈ tableKernel PackedRow.parity table) {c : Nat} {r1 r2 : Fin rows}
    (different : r1 ≠ r2)
    (total : ∑ row, valueOf (oddCount c) (table row) = 2)
    (first : valueOf (oddCount c) (table r1) = 1)
    (second : valueOf (oddCount c) (table r2) = 1) : y r1 = y r2 := by
  have inside : r1 ∈ Finset.univ.erase r2 := Finset.mem_erase.mpr ⟨different, Finset.mem_univ _⟩
  have others : ∀ row, row ≠ r1 → row ≠ r2 → valueOf (oddCount c) (table row) = 0 := by
    intro row notFirst notSecond
    rw [← Finset.add_sum_erase _ _ (Finset.mem_univ r2), second,
      ← Finset.add_sum_erase _ _ inside, first] at total
    have zero : ∑ row ∈ (Finset.univ.erase r2).erase r1, valueOf (oddCount c) (table row) = 0 := by
      omega
    apply Finset.sum_eq_zero_iff.mp zero
    exact Finset.mem_erase.mpr ⟨notFirst, Finset.mem_erase.mpr ⟨notSecond, Finset.mem_univ _⟩⟩
  have alive : ∀ row, valueOf (oddCount c) (table row) = 1 → row ∈ RowJoin.aliveRows table := by
    intro row isOne
    rw [RowJoin.mem_aliveRows]
    cases isRow : table row with
    | none =>
      rw [isRow] at isOne
      cases isOne
    | some packed => rfl
  have cancels := kernel.2 c
  have firstAlive := alive r1 first
  have insideAlive : r2 ∈ (RowJoin.aliveRows table).erase r1 :=
    Finset.mem_erase.mpr ⟨different.symm, alive r2 second⟩
  rw [Elimination.combine, ← Finset.add_sum_erase _ _ firstAlive,
    ← Finset.add_sum_erase _ _ insideAlive, Finset.sum_eq_zero, add_zero, valueOf_parity,
    valueOf_parity, first, second, Nat.cast_one, mul_one, mul_one] at cancels
  · exact CharTwo.add_eq_zero.mp cancels
  · intro row member
    rw [Finset.mem_erase, Finset.mem_erase] at member
    rw [valueOf_parity, others row member.2.1 member.1, Nat.cast_zero, mul_zero]

/-! ## Plans -/

theorem mem_pushRows {nCols c : Nat} {r row : Fin rows} {entries : List PackedEntry} :
    row ∈ pushRows nCols c r entries ↔
      row = r ∧ ∃ entry ∈ entries, entry.1 < nCols ∧ oddExp entry = true ∧ entry.1 = c := by
  rw [pushRows, List.mem_map]
  constructor
  · rintro ⟨entry, member, rfl⟩
    simp only [List.mem_filter, Bool.and_eq_true, decide_eq_true_eq, beq_iff_eq, and_assoc]
      at member
    exact ⟨rfl, entry, member⟩
  · rintro ⟨rfl, entry, member⟩
    refine ⟨entry, ?_, rfl⟩
    simpa only [List.mem_filter, Bool.and_eq_true, decide_eq_true_eq, beq_iff_eq, and_assoc]
      using member

theorem length_pushRows_le {nCols c : Nat} (r : Fin rows) {packed : PackedRow}
    (ascending : packed.Ascending) : (pushRows nCols c r packed.entries).length ≤ 1 := by
  rw [pushRows, List.length_map, ← List.countP_eq_length_filter]
  refine le_trans ?_ (ascending.oddCount_le c)
  apply List.countP_mono_left
  intro entry _ selected
  rw [Bool.and_eq_true, Bool.and_eq_true] at selected
  rw [Bool.and_eq_true]
  exact ⟨selected.2, selected.1.2⟩

structure Indexes (matrix : PackedCsr rows) (device : Device rows)
    (colRows : Nat → List (Fin rows)) : Prop where
  nodup : ∀ c, (colRows c).Nodup
  odd : ∀ {c row}, row ∈ colRows c →
    valueOf (oddCount c) (device.table matrix.toContext row) = 1

def indexOf (nCols : Nat) (table : Fin rows → Option PackedRow) (c : Nat) : List (Fin rows) :=
  (List.finRange rows).flatMap fun r =>
    ((table r).map fun packed => pushRows nCols c r packed.entries).getD []

theorem nodup_indexOf (nCols c : Nat) {row : Fin rows → Option PackedRow}
    (ascending : ∀ r packed, row r = some packed → packed.Ascending) :
    (indexOf nCols row c).Nodup := by
  rw [indexOf, List.nodup_flatMap]
  constructor
  · intro r _
    cases isRow : row r with
    | none => exact .nil
    | some packed =>
      apply List.nodup_iff_count_le_one.mpr
      exact fun other =>
        List.count_le_length.trans (length_pushRows_le r (ascending r packed isRow))
  · apply (List.nodup_finRange rows).imp
    intro r r' different
    rw [Function.onFun, List.disjoint_left]
    intro other member member'
    cases isRow : row r with
    | none => simp [isRow] at member
    | some packed =>
      cases isRow' : row r' with
      | none => simp [isRow'] at member'
      | some packed' =>
        rw [isRow] at member
        rw [isRow'] at member'
        exact different ((mem_pushRows.mp member).1.symm.trans (mem_pushRows.mp member').1)

theorem exists_of_mem_indexOf {nCols c : Nat} {table : Fin rows → Option PackedRow}
    {row : Fin rows} (member : row ∈ indexOf nCols table c) :
    ∃ packed, table row = some packed ∧ 0 < packed.oddCount c := by
  rw [indexOf, List.mem_flatMap] at member
  rcases member with ⟨r, -, inside⟩
  cases isRow : table r with
  | none => simp [isRow] at inside
  | some packed =>
    rw [isRow] at inside
    rcases mem_pushRows.mp inside with ⟨rfl, entry, present, -, isOdd, isColumn⟩
    refine ⟨packed, isRow, List.countP_pos_iff.mpr ⟨entry, present, ?_⟩⟩
    rw [isOdd, isColumn]
    simp

def originalRows (matrix : PackedCsr rows) (device : Device rows) (row : Fin rows) :
    Option PackedRow :=
  match device.rowPtr row with
  | some (.original source) => some (matrix.csr source)
  | _ => none

theorem buildInvertedIndex_eq (c : Nat) : buildInvertedIndex matrix device c =
    indexOf matrix.nCols (originalRows matrix device) c := by
  unfold buildInvertedIndex indexOf originalRows
  congr 1
  funext r
  split <;> rfl

private theorem table_of_originalRows {row : Fin rows} {packed : PackedRow}
    (isRow : originalRows matrix device row = some packed) :
    device.table matrix.toContext row = some packed := by
  unfold originalRows at isRow
  split at isRow
  · rename_i source isPtr
    rw [Device.table, isPtr]
    exact isRow
  · cases isRow

theorem indexes_buildInvertedIndex (reached : Reached matrix.toContext device) :
    Indexes matrix device (buildInvertedIndex matrix device) where
  nodup c := by
    rw [buildInvertedIndex_eq]
    exact nodup_indexOf _ _ fun r packed isRow =>
      reached.ascending (table_of_originalRows isRow)
  odd {c row} member := by
    rw [buildInvertedIndex_eq] at member
    rcases exists_of_mem_indexOf member with ⟨packed, isRow, positive⟩
    have bound := odd_le_one reached c row
    rw [table_of_originalRows isRow] at bound ⊢
    exact le_antisymm bound positive

structure Paired (matrix : PackedCsr rows) (device : Device rows)
    (candidate : MergeCandidate rows) : Prop where
  weight : device.gf2ColWeight candidate.pivotCol = 2
  different : candidate.r1 ≠ candidate.r2
  first : valueOf (oddCount candidate.pivotCol)
    (device.table matrix.toContext candidate.r1) = 1
  second : valueOf (oddCount candidate.pivotCol)
    (device.table matrix.toContext candidate.r2) = 1

theorem Paired.alike (reached : Reached matrix.toContext device)
    {candidate : MergeCandidate rows} (paired : Paired matrix device candidate)
    {y : Fin rows → ZMod 2}
    (kernel : y ∈ tableKernel PackedRow.parity (device.table matrix.toContext)) :
    y candidate.r1 = y candidate.r2 := by
  apply alike_of_weight_two kernel paired.different _ paired.first paired.second
  rw [← toNat_gf2ColWeight reached, paired.weight]
  rfl

theorem paired_planWeight2Column {colRows : Nat → List (Fin rows)}
    (indexes : Indexes matrix device colRows) {plan : Plan rows}
    (before : ∀ candidate ∈ plan.candidates, Paired matrix device candidate) (c : Nat) :
    ∀ candidate ∈ (planWeight2Column device colRows plan c).candidates,
      Paired matrix device candidate := by
  unfold planWeight2Column
  split
  · exact before
  rename_i weight
  split
  · rename_i r1 r2 rest containing
    have filtered := (indexes.nodup c).filter fun r => (device.rowPtr r).isSome
    rw [containing, List.nodup_cons] at filtered
    have different : r1 ≠ r2 := by
      rintro rfl
      exact filtered.1 List.mem_cons_self
    have inColumn : ∀ row ∈ r1 :: r2 :: rest, row ∈ colRows c := by
      intro row member
      rw [← containing] at member
      exact List.mem_of_mem_filter member
    split
    · exact before
    · intro candidate member
      rcases List.mem_append.mp member with old | new
      · exact before candidate old
      · rw [List.mem_singleton.mp new]
        exact ⟨not_not.mp weight, different, indexes.odd (inColumn r1 (by simp)),
          indexes.odd (inColumn r2 (by simp))⟩
  · exact before

theorem paired_planWeight2Merges (reached : Reached matrix.toContext device) :
    ∀ candidate ∈ planWeight2Merges matrix device, Paired matrix device candidate := by
  have indexes := indexes_buildInvertedIndex reached
  have keeps : ∀ (columns : List Nat) (plan : Plan rows),
      (∀ candidate ∈ plan.candidates, Paired matrix device candidate) →
      ∀ candidate ∈ (columns.foldl
          (planWeight2Column device (buildInvertedIndex matrix device)) plan).candidates,
        Paired matrix device candidate := by
    intro columns
    induction columns with
    | nil => exact fun plan before => before
    | cons c columns induction =>
      exact fun plan before => induction _ (paired_planWeight2Column indexes before c)
  exact keeps _ _ nofun

/-! ## Phases -/

inductive Weight2Phase (matrix : PackedCsr rows) : Device rows → Device rows → Prop where
  | done (device : Device rows) : Weight2Phase matrix device device
  | round {device last : Device rows}
      (schedule : List (Launch.Thread ⟨matrix.toContext, device, planWeight2Merges matrix device⟩))
      (finished : (runKernel ⟨matrix.toContext, device, planWeight2Merges matrix device⟩
        schedule).Finished)
      (rest : Weight2Phase matrix
        (runKernel ⟨matrix.toContext, device, planWeight2Merges matrix device⟩
          schedule).memory.toDevice last) :
      Weight2Phase matrix device last

/-- The rows of a table are sums of constituents in an earlier one, and the kernel
vectors of the two tables correspond. -/
def KeepsDependencies (before after : Fin rows → Option PackedRow) : Prop :=
  ∃ constituents : Fin rows → Finset (Fin rows),
    (∀ row row', row ≠ row' → Disjoint (constituents row) (constituents row')) ∧
    (∀ row, (after row).isSome → valueOf PackedRow.parity (after row) =
      ∑ source ∈ constituents row, valueOf PackedRow.parity (before source)) ∧
    Elimination.Expands (RowJoin.aliveRows after) (fun row => valueOf PackedRow.parity (after row))
      (fun row source => if source ∈ constituents row then (1 : ZMod 2) else 0)
      (tableKernel PackedRow.parity before)

def mergedPairs (launch : Launch rows) (order : List launch.Thread) : List (Fin rows × Fin rows) :=
  order.map fun thread => (launch.candidate thread).pair

theorem Launched.legal {launch : Launch rows} {state : KernelState launch}
    {order : List launch.Thread} (launched : Launched launch state order) :
    Legal (join launch.context.mont) (launch.device.table launch.context)
      (mergedPairs launch order) := by
  apply legal_of_joinable
  intro before thread after equal
  rcases launched.mergeable equal with ⟨left, right, mergeable, -⟩
  exact mergeable.joinable

structure Joins (context : Context rows) (before after : Device rows)
    (pairs : List (Fin rows × Fin rows)) : Prop where
  legal : Legal (join context.mont) (before.table context) pairs
  after : after.table context = replay (join context.mont) (before.table context) pairs
  alike : Alike PackedRow.parity (before.table context) pairs

theorem Joins.keepsDependencies {context : Context rows} {before after : Device rows}
    {pairs : List (Fin rows × Fin rows)} (joins : Joins context before after pairs) :
    KeepsDependencies (before.table context) (after.table context) := by
  refine ⟨absorbed pairs, fun row row' => absorbed_disjoint pairs, ?_, ?_⟩
  · intro row _
    rw [joins.after]
    exact valueOf_replay (parity_join _) joins.legal row
  · rw [joins.after]
    exact expands_of_alike (parity_join _) joins.legal joins.alike

theorem Weight2Phase.joins {last : Device rows} (phase : Weight2Phase matrix device last)
    (reached : Reached matrix.toContext device) :
    ∃ pairs, Joins matrix.toContext device last pairs := by
  induction phase with
  | done device =>
    exact ⟨[], trivial, rfl, fun y _ pair member => nomatch member⟩
  | @round device last schedule finished rest induction =>
    rcases executeMerges_launched
      ⟨matrix.toContext, device, planWeight2Merges matrix device⟩ reached schedule finished with
      ⟨order, launched⟩
    rcases induction (.launch reached schedule finished) with ⟨more, joins⟩
    have alike : Alike PackedRow.parity (device.table matrix.toContext)
        (mergedPairs ⟨matrix.toContext, device, planWeight2Merges matrix device⟩ order) := by
      intro y kernel pair member
      rcases List.mem_map.mp member with ⟨thread, -, rfl⟩
      exact (paired_planWeight2Merges reached _ (List.get_mem _ _)).alike reached kernel
    have next := joins.legal
    have after := joins.after
    have nextAlike := joins.alike
    rw [launched.table] at next after nextAlike
    refine ⟨mergedPairs _ order ++ more, ?_, ?_, ?_⟩
    · exact (meets_append _ _ _ _ _).mpr ⟨launched.legal, next⟩
    · rw [after]
      exact (run_append _ _ _ _).symm
    · exact alike_append (parity_join _) launched.legal alike (Legal.alive next) nextAlike

/-- Any number of rounds, under any interleavings, loses no dependency. -/
theorem weight2Phase_keepsDependencies {last : Device rows}
    (reached : Reached matrix.toContext device) (phase : Weight2Phase matrix device last) :
    KeepsDependencies (device.table matrix.toContext) (last.table matrix.toContext) := by
  rcases phase.joins reached with ⟨pairs, joins⟩
  exact joins.keepsDependencies

def twinMatrix : PackedCsr 2 where
  csr row := ⟨[(0, 3), (row.val + 1, 1)], UInt512.ofUInt32 1, 1, 0, 0⟩
  mont := Montgomery.ofModulus (UInt512.ofUInt32 15)
  maxRows := 4
  maxEntries := 8
  rows_lt := two_lt_rows
  maxRows_le := four_le_rows
  maxEntries_le := eight_le_entries
  nCols := 3
  ascending := by decide
  column_lt := by decide

def twinDevice : Device 2 := freshDevice twinMatrix.toContext emptyWorkspace

def twinLaunch : Launch 2 :=
  ⟨twinMatrix.toContext, twinDevice, planWeight2Merges twinMatrix twinDevice⟩

def twinSchedule : List twinLaunch.Thread := List.replicate 40 ⟨0, by decide +kernel⟩

theorem weight2Phase_keepsDependencies_twins :
    Weight2Phase twinMatrix twinDevice (runKernel twinLaunch twinSchedule).memory.toDevice ∧
      KeepsDependencies (twinDevice.table twinMatrix.toContext)
        ((runKernel twinLaunch twinSchedule).memory.table twinMatrix.toContext) := by
  have phase : Weight2Phase twinMatrix twinDevice
      (runKernel twinLaunch twinSchedule).memory.toDevice :=
    Weight2Phase.round twinSchedule (by decide +kernel) (.done _)
  exact ⟨phase, weight2Phase_keepsDependencies (.fresh emptyWorkspace) phase⟩

end CudaMpqs.BatchMerge
