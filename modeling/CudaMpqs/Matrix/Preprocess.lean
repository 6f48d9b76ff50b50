import CudaMpqs.Matrix.MergeFilter

/-! # The preprocessing pipeline

Higher-weight merges keep the kernel as well, so the pipeline of `preprocess.cpp`
yields a matrix whose kernel expands to that of the input. -/

namespace CudaMpqs

open HostMatrixCSR MergeState

section HigherWeight

variable {input : HostMatrixCSR} {nRows nCols : Nat}

theorem planMerges_eq {state : MergeState} {pivot effectiveMax : Nat}
    {rows : List Nat} {plan : List (Nat × List Nat)}
    (planned : planMerges state pivot effectiveMax rows = some plan) :
    plan = rows.map fun r => (r, xorRows (state.rows pivot) (state.rows r)) := by
  induction rows generalizing plan with
  | nil => exact (Option.some.inj planned).symm
  | cons r rows induction =>
    simp only [planMerges] at planned
    split at planned
    · cases planned
    · rcases Option.map_eq_some_iff.mp planned with ⟨rest, restPlanned, rfl⟩
      rw [induction restPlanned, List.map_cons]

/-- Committing a plan cancels the column in all planned rows. -/
theorem tracked_commitMerges {c pivot : Nat} (rows : List Nat) (state : MergeState)
    (tracked : state.Tracked input nRows nCols) (nodup : rows.Nodup)
    (notPivot : pivot ∉ rows)
    (cells : ∀ r, c ∈ state.rows r ↔ r = pivot ∨ r ∈ rows) :
    let last := (rows.map fun r =>
      (r, xorRows (state.rows pivot) (state.rows r))).foldl (commitMerge pivot) state
    last.Tracked input nRows nCols ∧ ∀ r, c ∈ last.rows r ↔ r = pivot := by
  induction rows generalizing state with
  | nil =>
    refine ⟨tracked, ?_⟩
    intro r
    simp [cells r]
  | cons r rows induction =>
    rcases List.nodup_cons.mp nodup with ⟨fresh, nodup⟩
    have different : pivot ≠ r := by
      rintro rfl
      exact notPivot List.mem_cons_self
    have inPivot : c ∈ state.rows pivot := (cells pivot).mpr (.inl rfl)
    have inRow : c ∈ state.rows r := (cells r).mpr (.inr List.mem_cons_self)
    have indexed := tracked.indexed
    have sums := indexed.sums_xorRows pivot r
    let next := commitMerge pivot state
      (r, xorRows (state.rows pivot) (state.rows r))
    have nextTracked : next.Tracked input nRows nCols :=
      tracked.replaceRow (indexed.alive_of_mem inPivot) (indexed.alive_of_mem inRow)
        different sums (.inl ⟨rfl, rfl⟩)
    have elsewhere : ∀ other, other ≠ r → next.rows other = state.rows other :=
      fun other notRow => Function.update_of_ne notRow _ _
    have here : next.rows r = xorRows (state.rows pivot) (state.rows r) :=
      Function.update_self _ _ _
    have cancelled : c ∉ next.rows r := by
      rw [here]
      intro member
      have total := sums.entries c
      rw [entry, entry, entry, if_pos member, if_pos inRow, if_pos inPivot] at total
      exact absurd total (by decide)
    have nextCells : ∀ other, c ∈ next.rows other ↔ other = pivot ∨ other ∈ rows := by
      intro other
      by_cases isRow : other = r
      · subst isRow
        exact iff_of_false cancelled
          (not_or.mpr ⟨different.symm, fresh⟩)
      · rw [elsewhere other isRow, cells other, List.mem_cons]
        simp [isRow]
    have samePlan : (rows.map fun other =>
        (other, xorRows (state.rows pivot) (state.rows other))) = rows.map fun other =>
            (other, xorRows (next.rows pivot) (next.rows other)) := by
      apply List.map_congr_left
      intro other member
      have notRow : other ≠ r := by
        rintro rfl
        exact fresh member
      rw [elsewhere pivot different, elsewhere other notRow]
    have rest := induction next nextTracked nodup
      (fun member => notPivot (List.mem_cons_of_mem _ member)) nextCells
    rw [← samePlan] at rest
    exact rest

private theorem pivotIndex_lt (rows : Nat → List Nat) {containing : List Nat}
    (nonempty : 0 < containing.length) :
    pivotIndex rows containing < containing.length := by
  have keeps : ∀ (places : List Nat) (best : Nat),
      (∀ i ∈ places, i < containing.length) → best < containing.length → places.foldl (fun best i =>
          if (rows (containing.getD i 0)).length < (rows (containing.getD best 0)).length
          then i else best) best < containing.length := by
    intro places
    induction places with
    | nil => exact fun best _ bound => bound
    | cons i places induction =>
      intro best inside bound
      apply induction
      · exact fun place member => inside place (List.mem_cons_of_mem _ member)
      · dsimp only
        split
        · exact inside i List.mem_cons_self
        · exact bound
  apply keeps _ 0 _ nonempty
  intro i member
  have range := List.mem_range'_1.mp member
  omega

theorem tracked_eliminateColumn (kMax effectiveMax : Nat) {current : HigherState}
    (tracked : current.state.Tracked input nRows nCols) (c : Nat) :
    (eliminateColumn kMax effectiveMax current c).state.Tracked input nRows
      nCols := by
  have indexed := tracked.indexed
  simp only [eliminateColumn, indexed.filter_alive]
  split
  · exact tracked
  split
  · exact tracked
  split
  · exact tracked
  next several =>
    split
    · exact tracked
    next plan planned =>
      split
      · exact tracked
      · have inside : pivotIndex current.state.rows (current.state.colRows c) <
            (current.state.colRows c).length := pivotIndex_lt _ (by omega)
        have nodup := indexed.nodup c
        rw [planMerges_eq planned, List.getD_eq_getElem _ _ inside, ← nodup.erase_getElem _ inside]
        have cells : ∀ r, c ∈ current.state.rows r ↔
            r = (current.state.colRows c)[pivotIndex current.state.rows (current.state.colRows c)] ∨
            r ∈ (current.state.colRows c).erase (current.state.colRows c)[
              pivotIndex current.state.rows (current.state.colRows c)] := by
          intro r
          rw [← indexed.mem, nodup.mem_erase_iff]
          by_cases isPivot : r = (current.state.colRows c)[
            pivotIndex current.state.rows (current.state.colRows c)]
          · rw [isPivot]
            exact iff_of_true (List.getElem_mem inside) (.inl rfl)
          · simp [isPivot]
        rcases tracked_commitMerges _ current.state tracked (nodup.erase _)
          (fun member => (nodup.mem_erase_iff.mp member).1 rfl) cells with
          ⟨committed, remaining⟩
        refine committed.deleteRow (c := c) ?_
        apply List.perm_singleton.mp
        apply (List.perm_ext_iff_of_nodup (committed.indexed.nodup c) (List.nodup_singleton _)).mpr
        intro r
        rw [committed.indexed.mem, remaining, List.mem_singleton]

private theorem tracked_weightPass (kMax effectiveMax w : Nat) {current : HigherState}
    (tracked : current.state.Tracked input nRows nCols) :
    (weightPass nCols kMax effectiveMax w current).state.Tracked input nRows
      nCols := by
  rw [weightPass]
  generalize (List.range nCols).filter (current.state.colWeight · = w) = columns
  induction columns generalizing current with
  | nil => exact tracked
  | cons c columns induction =>
    exact induction (tracked_eliminateColumn kMax effectiveMax tracked c)

theorem weightLoop_spec (effectiveMax : Nat) {kMax : BitVec 32}
    (finite : kMax ≠ BitVec.allOnes 32) (steps : Nat) (w : BitVec 32)
    (enough : kMax.toNat + 1 - w.toNat ≤ steps) {current : HigherState}
    (tracked : current.state.Tracked input nRows nCols) :
    ∃ last, (∀ fuel, steps ≤ fuel → weightLoop nCols effectiveMax kMax fuel w current = some last) ∧
      last.state.Tracked input nRows nCols := by
  have bound : kMax.toNat < 2 ^ 32 - 1 := by
    have different : kMax.toNat ≠ (BitVec.allOnes 32).toNat :=
      mt BitVec.eq_of_toNat_eq finite
    rw [BitVec.toNat_allOnes] at different
    have := kMax.isLt
    omega
  by_cases running : w ≤ kMax
  · have inside : w.toNat ≤ kMax.toNat := running
    have next : (w + 1).toNat = w.toNat + 1 := by
      rw [BitVec.toNat_add]
      exact Nat.mod_eq_of_lt (by simp; omega)
    cases steps with
    | zero => omega
    | succ steps =>
      rcases weightLoop_spec effectiveMax finite steps (w + 1) (by omega)
        (tracked_weightPass kMax.toNat effectiveMax w.toNat tracked) with
        ⟨last, loop, lastTracked⟩
      refine ⟨last, ?_, lastTracked⟩
      intro fuel sufficient
      cases fuel with
      | zero => omega
      | succ fuel =>
        rw [weightLoop, if_pos running]
        exact loop fuel (by omega)
  · refine ⟨current, ?_, tracked⟩
    intro fuel _
    cases fuel <;> rw [weightLoop, if_neg running]

private theorem le_allOnes (w : BitVec 32) : w ≤ BitVec.allOnes 32 := by
  rw [BitVec.le_def, BitVec.toNat_allOnes]
  have bound := w.isLt
  omega

theorem weightLoop_allOnes (effectiveMax fuel : Nat) (w : BitVec 32) (current : HigherState) :
    weightLoop nCols effectiveMax (BitVec.allOnes 32) fuel w current = none := by
  have running := le_allOnes w
  induction fuel generalizing w current with
  | zero => rw [weightLoop, if_pos running]
  | succ fuel induction =>
    rw [weightLoop, if_pos running]
    exact induction _ _ (le_allOnes _)

private theorem sortedRows_eq {state : MergeState} (indexed : state.Indexed nRows nCols) :
    sortedRows nRows nCols state.colWeight state.rowAlive state.rows =
      compactRows nRows nCols state.colWeight state.rowAlive state.rows := by
  rw [sortedRows, compactRows]
  congr 1
  apply List.map_congr_left
  intro r member
  rcases mem_aliveRows.mp member with ⟨inside, alive⟩
  have ascending : ((state.rows r).map
      (compactColumns nCols state.colWeight).1).Pairwise (· ≤ ·) := by
    apply List.pairwise_map.mpr
    refine (indexed.ascending r).imp_of_mem ?_
    intro c c' cInRow c'InRow less
    have covers := indexed.covers
    exact (compactColumns_lt (covers.bound r inside alive c cInRow)
      (covers.kept r inside alive c cInRow)
      (covers.bound r inside alive c' c'InRow)
      (covers.kept r inside alive c' c'InRow) less).le
  exact ascending.insertionSort_eq

theorem mergeHigherWeight_spec (twiceAverage : Nat → Nat → Nat)
    {merged : MergeResult} (wellFormed : merged.reduced.WellFormed)
    (reduction : Reduction input merged.reduced merged.rowMap merged.mergeTree)
    {kMax : BitVec 32} (finite : kMax ≠ BitVec.allOnes 32) (maxWeight : BitVec 32) :
    ∃ enough result, (∀ fuel, enough ≤ fuel →
        mergeHigherWeight twiceAverage fuel merged kMax maxWeight = some result) ∧
      result.reduced.WellFormed ∧
      Reduction input result.reduced result.rowMap result.mergeTree := by
  let start : HigherState :=
    ⟨initial merged.reduced merged.rowMap merged.mergeTree, 0, 0⟩
  let effectiveMax := max maxWeight.toNat (twiceAverage
    ((List.range merged.reduced.nRows).map fun r =>
      (start.state.rows r).length).sum merged.reduced.nRows)
  have tracked : start.state.Tracked input merged.reduced.nRows
    merged.reduced.nCols := tracked_initial wellFormed reduction
  rcases weightLoop_spec effectiveMax finite (kMax.toNat + 1) 3 (by omega)
    tracked with ⟨last, loop, lastTracked⟩
  have same : finishHigher merged.reduced.nRows merged.reduced.nCols last =
      last.state.finish merged.reduced.nRows merged.reduced.nCols
        last.colsEliminated last.rowsRemoved := by
    rw [finishHigher, sortedRows_eq lastTracked.indexed]
    rfl
  refine ⟨kMax.toNat + 1, _, ?_, lastTracked.finish last.colsEliminated last.rowsRemoved⟩
  intro fuel sufficient
  rw [← same]
  exact congrArg (fun reached : Option HigherState => reached >>= fun last =>
    pure (finishHigher merged.reduced.nRows merged.reduced.nCols last))
      (loop fuel sufficient)

end HigherWeight

/-! ## The pipeline -/

def preprocessMatrix (twiceAverage : Nat → Nat → Nat) (fuel : Nat)
    (expanded : HostMatrixCSR) (kMax maxWeight : BitVec 32) :
    Option MergeResult := do
  let sr := removeSingletons expanded
  let w2 ← mergeWeight2 fuel sr.reduced sr.rowMap
  mergeHigherWeight twiceAverage fuel w2 kMax maxWeight

theorem preprocessMatrix_spec (twiceAverage : Nat → Nat → Nat)
    {input : HostMatrixCSR} (wellFormed : input.WellFormed) {kMax : BitVec 32}
    (finite : kMax ≠ BitVec.allOnes 32) (maxWeight : BitVec 32) :
    ∃ enough result, (∀ fuel, enough ≤ fuel →
        preprocessMatrix twiceAverage fuel input kMax maxWeight = some result) ∧
      result.reduced.WellFormed ∧
      Reduction input result.reduced result.rowMap result.mergeTree := by
  rcases removeSingletons_spec wellFormed with ⟨singletonWellFormed, size, expands⟩
  rcases mergeWeight2_spec singletonWellFormed size expands with
    ⟨enough2, w2, run2, w2WellFormed, w2Reduction⟩
  rcases mergeHigherWeight_spec twiceAverage w2WellFormed w2Reduction finite
    maxWeight with ⟨enough, result, run, resultWellFormed, reduction⟩
  refine ⟨max enough2 enough, result, ?_, resultWellFormed, reduction⟩
  intro fuel sufficient
  have first := run2 fuel ((le_max_left _ _).trans sufficient)
  rw [preprocessMatrix, first]
  exact run fuel ((le_max_right _ _).trans sufficient)

theorem preprocessMatrix_allOnes (twiceAverage : Nat → Nat → Nat) (fuel : Nat)
    (input : HostMatrixCSR) (maxWeight : BitVec 32) :
    preprocessMatrix twiceAverage fuel input (BitVec.allOnes 32) maxWeight =
      none := by
  rw [preprocessMatrix]
  cases mergeWeight2 fuel (removeSingletons input).reduced
      (removeSingletons input).rowMap with
  | none => rfl
  | some w2 =>
    exact congrArg (fun reached : Option HigherState => reached >>= fun last =>
      pure (finishHigher w2.reduced.nRows w2.reduced.nCols last))
        (weightLoop_allOnes _ fuel 3 _)

/-- The pipeline returns a kernel bijection for every weight limit but the
largest 32-bit number, with which it never returns. -/
theorem preprocessMatrix_kernelBijection_iff {input : HostMatrixCSR}
    (wellFormed : input.WellFormed) (twiceAverage : Nat → Nat → Nat)
    (kMax maxWeight : BitVec 32) :
    (∃ enough result, (∀ fuel, enough ≤ fuel →
        preprocessMatrix twiceAverage fuel input kMax maxWeight = some result) ∧
      KernelBijection input result) ↔ kMax ≠ BitVec.allOnes 32 := by
  constructor
  · rintro ⟨enough, result, run, -⟩ rfl
    have returned := run enough le_rfl
    rw [preprocessMatrix_allOnes] at returned
    cases returned
  · intro finite
    rcases preprocessMatrix_spec twiceAverage wellFormed finite maxWeight with
      ⟨enough, result, run, -, reduction⟩
    exact ⟨enough, result, run, reduction.kernelBijection⟩

def smallMatrix : HostMatrixCSR := ofRows 3 [[0, 1], [0, 2], [1, 2], [0, 1, 2]]

theorem preprocessMatrix_kernelBijection_small : ∃ enough result, (∀ fuel, enough ≤ fuel →
        preprocessMatrix (fun nnz nRows => 2 * nnz / max 1 nRows) fuel smallMatrix
          10 200 = some result) ∧
      KernelBijection smallMatrix result :=
  (preprocessMatrix_kernelBijection_iff (by decide) _ 10 200).mpr (by decide)

theorem preprocessMatrix_diverges : ¬ ∀ (input : HostMatrixCSR) (twiceAverage : Nat → Nat → Nat)
      (kMax maxWeight : BitVec 32), input.WellFormed →
      ∃ enough result, (∀ fuel, enough ≤ fuel →
          preprocessMatrix twiceAverage fuel input kMax maxWeight = some result) ∧
        KernelBijection input result := by
  intro law
  rcases law smallMatrix (fun nnz nRows => 2 * nnz / max 1 nRows)
    (BitVec.allOnes 32) 200 (by decide) with ⟨enough, result, run, -⟩
  have returned := run enough le_rfl
  rw [preprocessMatrix_allOnes] at returned
  cases returned

end CudaMpqs
