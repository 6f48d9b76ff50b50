import CudaMpqs.Foundation.Transition
import CudaMpqs.Matrix.MergeState

/-! # Column merges

`mergeWeight2` and `mergeHigherWeight` of `merge_filter.cpp`. Loops that the
source bounds only by its state or by a 32-bit limit run on fuel. -/

namespace CudaMpqs

open HostMatrixCSR MergeState

/-! ## Columns of weight two -/

structure Weight2State where
  state : MergeState
  w2Cols : List Nat
  merges : Nat

def insertColumn (c : Nat) (cols : List Nat) : List Nat :=
  if c ∈ cols then cols else cols.orderedInsert (· ≤ ·) c

def insertWeight2 (colWeight : Nat → Nat) (cols w2Cols : List Nat) : List Nat :=
  cols.foldl (fun w2Cols c =>
    if colWeight c = 2 then insertColumn c w2Cols else w2Cols) w2Cols

def mergeRows (current : Weight2State) (r1 r2 : Nat) : Weight2State :=
  let state := current.state
  let newRow := xorRows (state.rows r1) (state.rows r2)
  let tree := state.tree.pushNode (state.nodeOf r1) (state.nodeOf r2)
  let colWeight := updateAll (· - 1) (state.rows r1) state.colWeight
  let colWeight := updateAll (· - 1) (state.rows r2) colWeight
  let colRows := unindex r2 (state.rows r2) state.colRows
  let colRows := unindex r1 ((state.rows r1).filter (· ∉ newRow)) colRows
  let colWeight := updateAll (· + 1) newRow colWeight
  let colRows := index r1 (newRow.filter (· ∉ state.rows r1)) colRows
  let w2Cols := insertWeight2 colWeight (state.rows r1) current.w2Cols
  let w2Cols := insertWeight2 colWeight (state.rows r2) w2Cols
  let w2Cols := insertWeight2 colWeight newRow w2Cols
  { state :=
      { rows := Function.update (Function.update state.rows r1 newRow) r2 []
        nodeOf := Function.update state.nodeOf r1 tree.lastNode
        rowAlive := Function.update state.rowAlive r2 false
        colWeight, colRows, tree }
    w2Cols
    merges := current.merges + 1 }

def processColumn (current : Weight2State) (c : Nat) : Weight2State :=
  if current.state.colWeight c != 2 then current
  else
    match (current.state.colRows c).filter current.state.rowAlive with
    | r1 :: r2 :: _ => mergeRows current r1 r2
    | _ => current

def mergeLoop : Nat → Weight2State → Option Weight2State
  | 0, current => if current.w2Cols.isEmpty then some current else none
  | fuel + 1, current =>
    match current.w2Cols with
    | [] => some current
    | c :: rest =>
      mergeLoop fuel (processColumn { current with w2Cols := rest } c)

def mergeStep (current : Weight2State) : Weight2State :=
  match current.w2Cols with
  | [] => current
  | c :: rest => processColumn { current with w2Cols := rest } c

def leafCount (rowMap : List Nat) : Nat :=
  match rowMap.max? with
  | none => 0
  | some largest => largest + 1

def mergeWeight2 (fuel : Nat) (input : HostMatrixCSR) (inputRowMap : List Nat) :
    Option MergeResult := do
  let state := initial input inputRowMap ⟨leafCount inputRowMap, []⟩
  let w2Cols := (List.range input.nCols).filter (state.colWeight · = 2)
  let last ← mergeLoop fuel ⟨state, w2Cols, 0⟩
  return last.state.finish input.nRows input.nCols last.merges last.merges

/-! ## Columns of higher weight -/

def pivotIndex (rows : Nat → List Nat) (containing : List Nat) : Nat :=
  (List.range' 1 (containing.length - 1)).foldl (fun best i =>
    if (rows (containing.getD i 0)).length < (rows (containing.getD best 0)).length
    then i else best) 0

/-- The sums of the pivot and the other rows, unless one is too heavy. -/
def planMerges (state : MergeState) (pivot effectiveMax : Nat) :
    List Nat → Option (List (Nat × List Nat))
  | [] => some []
  | r :: rest =>
    let candidate := xorRows (state.rows pivot) (state.rows r)
    if effectiveMax < candidate.length then none
    else (planMerges state pivot effectiveMax rest).map ((r, candidate) :: ·)

def commitMerge (pivot : Nat) (state : MergeState) (planned : Nat × List Nat) : MergeState :=
  state.replaceRow planned.1 planned.2 (state.nodeOf pivot)
    (state.nodeOf planned.1)

structure HigherState where
  state : MergeState
  colsEliminated : Nat
  rowsRemoved : Nat

/-- Cancel a column in all rows but the pivot and delete the pivot, or leave the
column alone. -/
def eliminateColumn (kMax effectiveMax : Nat) (current : HigherState) (c : Nat) : HigherState :=
  let state := current.state
  if state.colWeight c = 0 then current
  else if kMax < state.colWeight c then current
  else
    let containing := (state.colRows c).filter state.rowAlive
    if containing.length < 2 then current
    else
      let pivotIdx := pivotIndex state.rows containing
      let pivot := containing.getD pivotIdx 0
      match planMerges state pivot effectiveMax (containing.eraseIdx pivotIdx) with
      | none => current
      | some plan =>
        if plan.isEmpty then current
        else
          { state := (plan.foldl (commitMerge pivot) state).deleteRow pivot
            colsEliminated := current.colsEliminated + 1
            rowsRemoved := current.rowsRemoved + 1 }

def weightPass (nCols kMax effectiveMax w : Nat) (current : HigherState) : HigherState :=
  ((List.range nCols).filter (current.state.colWeight · = w)).foldl
    (eliminateColumn kMax effectiveMax) current

def weightLoop (nCols effectiveMax : Nat) (kMax : BitVec 32) :
    Nat → BitVec 32 → HigherState → Option HigherState
  | 0, w, current => if w ≤ kMax then none else some current
  | fuel + 1, w, current =>
    if w ≤ kMax then
      weightLoop nCols effectiveMax kMax fuel (w + 1)
        (weightPass nCols kMax.toNat effectiveMax w.toNat current)
    else some current

def sortedRows (nRows nCols : Nat) (colWeight : Nat → Nat) (rowAlive : Nat → Bool)
    (rows : Nat → List Nat) : HostMatrixCSR :=
  HostMatrixCSR.ofRows (compactColumns nCols colWeight).2
    ((aliveRows nRows rowAlive).map fun r =>
      ((rows r).map (compactColumns nCols colWeight).1).insertionSort (· ≤ ·))

def finishHigher (nRows nCols : Nat) (last : HigherState) : MergeResult :=
  { last.state.finish nRows nCols last.colsEliminated last.rowsRemoved with
    reduced := sortedRows nRows nCols last.state.colWeight last.state.rowAlive
      last.state.rows }

def mergeHigherWeight (twiceAverage : Nat → Nat → Nat) (fuel : Nat)
    (input : MergeResult) (kMax maxWeight : BitVec 32) : Option MergeResult := do
  let nRows := input.reduced.nRows
  let nCols := input.reduced.nCols
  let state := initial input.reduced input.rowMap input.mergeTree
  let totalNnz := ((List.range nRows).map fun r => (state.rows r).length).sum
  let effectiveMax := max maxWeight.toNat (twiceAverage totalNnz nRows)
  let last ← weightLoop nCols effectiveMax kMax fuel 3 ⟨state, 0, 0⟩
  return finishHigher nRows nCols last

/-! ## Weight two: one merge -/

section Weight2

variable {input : HostMatrixCSR} {nRows nCols : Nat}

theorem cells_of_weight_two {state : MergeState}
    (indexed : state.Indexed nRows nCols) {c : Nat} (weight : state.colWeight c = 2) :
    ∃ r1 r2, state.colRows c = [r1, r2] ∧ r1 ≠ r2 := by
  rw [indexed.weight c] at weight
  rcases List.length_eq_two.mp weight with ⟨r1, r2, rows⟩
  have nodup := indexed.nodup c
  rw [rows] at nodup
  exact ⟨r1, r2, rows, by simpa using nodup⟩

theorem weight_ge {state : MergeState} (indexed : state.Indexed nRows nCols)
    {r1 r2 : Nat} (different : r1 ≠ r2) (c : Nat) :
    ((if c ∈ state.rows r1 then 1 else 0) + if c ∈ state.rows r2 then 1 else 0) ≤
      state.colWeight c := by
  have counted : ∀ rows : List Nat, rows.Nodup →
      ((if r1 ∈ rows then 1 else 0) + if r2 ∈ rows then 1 else 0) ≤
        rows.length := by
    intro rows nodup
    by_cases first : r1 ∈ rows
    · by_cases second : r2 ∈ rows
      · have inside : [r1, r2].Subperm rows := by
          apply List.subperm_of_subset
          · simp [different]
          · simp [first, second]
        simpa [first, second] using inside.length_le
      · have positive : 1 ≤ rows.length := List.length_pos_of_mem first
        simpa [first, second] using positive
    · by_cases second : r2 ∈ rows
      · have positive : 1 ≤ rows.length := List.length_pos_of_mem second
        simpa [first, second] using positive
      · simp [first, second]
  have bound := counted (state.colRows c) (indexed.nodup c)
  simp only [indexed.mem] at bound
  rwa [indexed.weight c]

variable {current : Weight2State}

theorem mergeRows_state {r1 r2 : Nat} (indexed : current.state.Indexed nRows nCols)
    (different : r1 ≠ r2) :
    (mergeRows current r1 r2).state = ((current.state.replaceRow r1
        (xorRows (current.state.rows r1) (current.state.rows r2))
        (current.state.nodeOf r1) (current.state.nodeOf r2)).deleteRow r2) := by
  have kept : Function.update current.state.rows r1
      (xorRows (current.state.rows r1) (current.state.rows r2)) r2 =
        current.state.rows r2 := Function.update_of_ne different.symm _ _
  have firstNodup := indexed.rows_nodup r1
  have secondNodup := indexed.rows_nodup r2
  have newNodup : (xorRows (current.state.rows r1)
      (current.state.rows r2)).Nodup :=
    (ascending_xorRows (indexed.ascending r1) (indexed.ascending r2)).imp
      fun less => less.ne
  simp only [mergeRows, replaceRow, deleteRow, index, unindex, kept,
    MergeState.mk.injEq, true_and, and_true]
  constructor
  · funext c
    rw [updateAll_apply _ newNodup, updateAll_apply _ secondNodup,
      updateAll_apply _ firstNodup, updateAll_apply _ secondNodup,
      updateAll_apply _ newNodup, updateAll_apply _ firstNodup]
    have enough := weight_ge indexed different c
    split <;> split <;> split <;> simp_all
    omega
  · funext c
    rw [updateAll_apply _ (newNodup.filter _), updateAll_apply _ (firstNodup.filter _),
      updateAll_apply _ secondNodup, updateAll_apply _ secondNodup,
      updateAll_apply _ (newNodup.filter _), updateAll_apply _ (firstNodup.filter _)]
    by_cases first : c ∈ current.state.rows r1 <;>
      by_cases second : c ∈ current.state.rows r2 <;>
      by_cases merged : c ∈ xorRows (current.state.rows r1)
        (current.state.rows r2) <;>
      simp [first, second, merged, List.filter_append, List.filter_filter, Bool.and_comm, different]

theorem tracked_mergeRows {c r1 r2 : Nat} (tracked : current.state.Tracked input nRows nCols)
    (cells : current.state.colRows c = [r1, r2]) (different : r1 ≠ r2) :
    (mergeRows current r1 r2).state.Tracked input nRows nCols := by
  have indexed := tracked.indexed
  have inFirst : c ∈ current.state.rows r1 :=
    (indexed.mem c r1).mp (by simp [cells])
  have inSecond : c ∈ current.state.rows r2 :=
    (indexed.mem c r2).mp (by simp [cells])
  have sums := indexed.sums_xorRows_comm r2 r1
  have replaced := tracked.replaceRow (indexed.alive_of_mem inSecond)
    (indexed.alive_of_mem inFirst) different.symm sums (.inr ⟨rfl, rfl⟩)
  rw [mergeRows_state indexed different]
  apply replaced.deleteRow (c := c)
  have cancelled : c ∉ xorRows (current.state.rows r1) (current.state.rows r2) := by
    intro member
    have total := sums.entries c
    rw [entry, entry, entry, if_pos member, if_pos inFirst, if_pos inSecond] at total
    exact absurd total (by decide)
  rw [colRows_replaceRow indexed r1 (sums.ascending.imp fun less => less.ne),
    if_pos inFirst, if_neg cancelled, cells]
  simp [different.symm]

section

variable (indexed : current.state.Indexed nRows nCols)

include indexed

theorem indexed_mergeRows {r1 r2 : Nat} (different : r1 ≠ r2)
    (alive : current.state.rowAlive r1 = true) :
    (mergeRows current r1 r2).state.Indexed nRows nCols := by
  have sums := indexed.sums_xorRows_comm r2 r1
  rw [mergeRows_state indexed different]
  exact (indexed.replaceRow alive sums.ascending (sums.bound indexed) _ _).deleteRow r2

private theorem processColumn_cases (c : Nat) :
    (current.state.colWeight c ≠ 2 ∧ processColumn current c = current) ∨
      ∃ r1 r2, current.state.colRows c = [r1, r2] ∧ r1 ≠ r2 ∧
        processColumn current c = mergeRows current r1 r2 := by
  rw [processColumn]
  by_cases weight : current.state.colWeight c = 2
  · rcases cells_of_weight_two indexed weight with ⟨r1, r2, cells, different⟩
    refine .inr ⟨r1, r2, cells, different, ?_⟩
    have alive := indexed.filter_alive c
    rw [cells] at alive ⊢
    rw [alive]
    simp [weight]
  · exact .inl ⟨weight, by simp [weight]⟩

theorem mergeStep_cases : (current.w2Cols = [] ∧ mergeStep current = current) ∨
    (∃ c rest, current.w2Cols = c :: rest ∧ current.state.colWeight c ≠ 2 ∧
      mergeStep current = { current with w2Cols := rest }) ∨
    ∃ c rest r1 r2, current.w2Cols = c :: rest ∧ current.state.colRows c = [r1, r2] ∧
      r1 ≠ r2 ∧ mergeStep current = mergeRows { current with w2Cols := rest } r1 r2 := by
  cases columns : current.w2Cols with
  | nil => exact .inl ⟨rfl, by simp only [mergeStep, columns]⟩
  | cons c rest =>
    have popped : ({ current with w2Cols := rest } : Weight2State).state.Indexed nRows
      nCols := indexed
    have turn : mergeStep current = processColumn { current with w2Cols := rest } c := by
      simp only [mergeStep, columns]
    rcases processColumn_cases popped c with
      ⟨weight, same⟩ | ⟨r1, r2, cells, different, merged⟩
    · exact .inr (.inl ⟨c, rest, rfl, weight, turn.trans same⟩)
    · exact .inr (.inr ⟨c, rest, r1, r2, rfl, cells, different, turn.trans merged⟩)

theorem card_aliveSet_mergeRows {c r1 r2 : Nat} (cells : current.state.colRows c = [r1, r2]) :
    ((mergeRows current r1 r2).state.aliveSet nRows).card <
      (current.state.aliveSet nRows).card := by
  have present : c ∈ current.state.rows r2 := (indexed.mem c r2).mp (by simp [cells])
  have alive := indexed.alive_of_mem present
  have inside := indexed.rowBound r2 alive
  apply Finset.card_lt_card
  refine (Finset.ssubset_iff_of_subset ?_).mpr
    ⟨r2, by simp [aliveSet, inside, alive], by simp [aliveSet, mergeRows]⟩
  intro r member
  simp only [aliveSet, mergeRows, Finset.mem_filter, Function.update_apply]
    at member ⊢
  refine ⟨member.1, ?_⟩
  have stillAlive := member.2
  split at stillAlive
  · cases stillAlive
  · exact stillAlive

/-! ## Weight two: the loop -/

theorem indexed_mergeStep : (mergeStep current).state.Indexed nRows nCols := by
  rcases mergeStep_cases indexed with
    ⟨-, step⟩ | ⟨c, rest, -, -, step⟩ | ⟨c, rest, r1, r2, -, cells, different, step⟩
  · rwa [step]
  · rwa [step]
  · rw [step]
    have present : c ∈ current.state.rows r1 := (indexed.mem c r1).mp (by simp [cells])
    exact indexed_mergeRows indexed different (indexed.alive_of_mem present)

end

theorem tracked_mergeStep (tracked : current.state.Tracked input nRows nCols) :
    (mergeStep current).state.Tracked input nRows nCols := by
  rcases mergeStep_cases tracked.indexed with
    ⟨-, step⟩ | ⟨c, rest, -, -, step⟩ | ⟨c, rest, r1, r2, -, cells, different, step⟩
  · rwa [step]
  · rwa [step]
  · rw [step]
    exact tracked_mergeRows tracked cells different

/-- The worklist runs empty: a merge kills a row, and any other turn shortens it. -/
theorem exists_w2Cols_nil (indexed : current.state.Indexed nRows nCols) :
    ∃ turns, (mergeStep^[turns] current).w2Cols = [] := by
  have decreases : ∀ current : Weight2State, current.state.Indexed nRows nCols →
      ¬ current.w2Cols = [] → toLex (((mergeStep current).state.aliveSet nRows).card,
            (mergeStep current).w2Cols.length) <
          toLex ((current.state.aliveSet nRows).card, current.w2Cols.length) := by
    intro current indexed more
    rcases mergeStep_cases indexed with
      ⟨none, -⟩ | ⟨c, rest, columns, -, step⟩ | ⟨c, rest, r1, r2, -, cells, -, step⟩
    · exact absurd none more
    · rw [step, columns]
      exact Transition.remaining_lt_of_count (Nat.lt_succ_self _)
    · rw [step]
      exact Transition.remaining_lt_of_stage (card_aliveSet_mergeRows indexed cells)
  rcases @Transition.exists_replicate_reaches _ Unit (fun current _ => mergeStep current) ()
    (fun current => current.state.Indexed nRows nCols) (fun current => current.w2Cols = [])
    _ _ _ (fun current => toLex ((current.state.aliveSet nRows).card, current.w2Cols.length))
    (fun _ => indexed_mergeStep) decreases current indexed with ⟨turns, done⟩
  rw [Transition.run_replicate] at done
  exact ⟨turns, done⟩

theorem mergeLoop_eq {turns : Nat} (done : (mergeStep^[turns] current).w2Cols = []) {fuel : Nat}
    (sufficient : turns ≤ fuel) : mergeLoop fuel current = some (mergeStep^[turns] current) := by
  induction fuel generalizing turns current with
  | zero =>
    rw [Nat.le_zero.mp sufficient] at done ⊢
    have empty : current.w2Cols = [] := done
    simp [mergeLoop, empty]
  | succ fuel induction =>
    cases columns : current.w2Cols with
    | nil =>
      have stays : mergeStep current = current := by simp only [mergeStep, columns]
      rw [mergeLoop, Function.iterate_fixed stays]
      simp only [columns]
    | cons c rest =>
      cases turns with
      | zero => exact absurd (columns.symm.trans done) (List.cons_ne_nil _ _)
      | succ turns =>
        have turn : processColumn { current with w2Cols := rest } c =
            mergeStep current := by
          simp only [mergeStep, columns]
        rw [Function.iterate_succ_apply] at done ⊢
        simp only [mergeLoop, columns, turn]
        exact induction done (Nat.le_of_succ_le_succ sufficient)

theorem mergeLoop_spec (current : Weight2State)
    (tracked : current.state.Tracked input nRows nCols) :
    ∃ enough last, (∀ fuel, enough ≤ fuel → mergeLoop fuel current = some last) ∧
      last.state.Tracked input nRows nCols := by
  rcases exists_w2Cols_nil tracked.indexed with ⟨turns, done⟩
  refine ⟨turns, _, fun fuel sufficient => mergeLoop_eq done sufficient, ?_⟩
  exact Function.Iterate.rec (fun current : Weight2State =>
    current.state.Tracked input nRows nCols) tracked (fun _ => tracked_mergeStep) turns

private theorem lt_leafCount {rowMap : List Nat} {r : Nat} (member : r ∈ rowMap) :
    r < leafCount rowMap := by
  rw [leafCount]
  cases largest : rowMap.max? with
  | none =>
    rw [List.max?_eq_none_iff.mp largest] at member
    cases member
  | some value =>
    have bound := (List.max?_eq_some_iff.mp largest).2 r member
    exact Nat.lt_succ_of_le bound

theorem mergeWeight2_spec {matrix : HostMatrixCSR} (wellFormed : matrix.WellFormed)
    {rowMap : List Nat} (size : rowMap.length = matrix.nRows)
    (expands : Elimination.Expands (Finset.range matrix.nRows)
      (fun i => entry (matrix.row i)) (fun i => parity [rowMap.getD i 0])
      input.leftKernel) :
    ∃ enough result, (∀ fuel, enough ≤ fuel → mergeWeight2 fuel matrix rowMap = some result) ∧
      result.reduced.WellFormed ∧
      Reduction input result.reduced result.rowMap result.mergeTree := by
  have reduction : Reduction input matrix rowMap ⟨leafCount rowMap, []⟩ := by
    refine ⟨fun i => [rowMap.getD i 0], ?_, expands⟩
    intro i inside
    refine .leaf _ (lt_leafCount ?_)
    rw [List.getD_eq_getElem _ _ (size ▸ inside)]
    exact List.getElem_mem _
  rcases mergeLoop_spec ⟨initial matrix rowMap ⟨leafCount rowMap, []⟩,
      (List.range matrix.nCols).filter
        ((initial matrix rowMap ⟨leafCount rowMap, []⟩).colWeight · = 2), 0⟩
    (tracked_initial wellFormed reduction) with ⟨enough, last, loop, tracked⟩
  refine ⟨enough, _, ?_, tracked.finish last.merges last.merges⟩
  intro fuel sufficient
  simp only [mergeWeight2, loop fuel sufficient]
  rfl

end Weight2

end CudaMpqs
