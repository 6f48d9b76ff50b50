import CudaMpqs.Matrix.SingletonRemoval

/-! # The state of a merge pass

Rows, column weights, the inverted index and the merge tree of
`merge_filter.cpp`, and the two row operations that the merge passes apply. -/

namespace CudaMpqs

open Elimination HostMatrixCSR

def xorRows : List Nat → List Nat → List Nat
  | [], right => right
  | left, [] => left
  | a :: left, b :: right =>
    if a < b then a :: xorRows left (b :: right)
    else if b < a then b :: xorRows (a :: left) right
    else xorRows left right
termination_by left right => left.length + right.length

variable {left right : List Nat}

private theorem lt_of_mem_xorRows {bound : Nat} (belowLeft : ∀ c ∈ left, bound < c)
    (belowRight : ∀ c ∈ right, bound < c) : ∀ c ∈ xorRows left right, bound < c := by
  fun_induction xorRows left right with
  | case1 right => exact belowRight
  | case2 left notNil => exact belowLeft
  | case3 a left b right less induction =>
    intro c member
    rcases List.mem_cons.mp member with rfl | member
    · exact belowLeft _ List.mem_cons_self
    · exact induction (fun item inside => belowLeft item (by simp [inside]))
        belowRight c member
  | case4 a left b right notLess greater induction =>
    intro c member
    rcases List.mem_cons.mp member with rfl | member
    · exact belowRight _ List.mem_cons_self
    · exact induction belowLeft
        (fun item inside => belowRight item (by simp [inside])) c member
  | case5 a left b right notLess notGreater induction =>
    exact induction (fun item inside => belowLeft item (by simp [inside]))
      fun item inside => belowRight item (by simp [inside])

theorem ascending_xorRows (leftAscending : left.Pairwise (· < ·))
    (rightAscending : right.Pairwise (· < ·)) : (xorRows left right).Pairwise (· < ·) := by
  fun_induction xorRows left right with
  | case1 right => exact rightAscending
  | case2 left notNil => exact leftAscending
  | case3 a left b right less induction =>
    rcases List.pairwise_cons.mp leftAscending with ⟨below, rest⟩
    refine List.pairwise_cons.mpr ⟨?_, induction rest rightAscending⟩
    apply lt_of_mem_xorRows below
    intro c member
    rcases List.mem_cons.mp member with rfl | member
    · exact less
    · exact less.trans ((List.pairwise_cons.mp rightAscending).1 c member)
  | case4 a left b right notLess greater induction =>
    rcases List.pairwise_cons.mp rightAscending with ⟨below, rest⟩
    refine List.pairwise_cons.mpr ⟨?_, induction leftAscending rest⟩
    refine lt_of_mem_xorRows ?_ below
    intro c member
    rcases List.mem_cons.mp member with rfl | member
    · exact greater
    · exact greater.trans ((List.pairwise_cons.mp leftAscending).1 c member)
  | case5 a left b right notLess notGreater induction =>
    exact induction (List.pairwise_cons.mp leftAscending).2
      (List.pairwise_cons.mp rightAscending).2

private theorem entry_cons {c : Nat} {cols : List Nat} (below : ∀ item ∈ cols, c < item)
    (column : Nat) :
    entry (c :: cols) column = (if column = c then 1 else 0) + entry cols column := by
  by_cases head : column = c
  · subst head
    have fresh : column ∉ cols := fun member => lt_irrefl _ (below column member)
    simp [entry, fresh]
  · simp [entry, head]

theorem entry_xorRows (leftAscending : left.Pairwise (· < ·))
    (rightAscending : right.Pairwise (· < ·)) (column : Nat) :
    entry (xorRows left right) column = entry left column + entry right column := by
  fun_induction xorRows left right with
  | case1 right => simp [entry]
  | case2 left notNil => simp [entry]
  | case3 a left b right less induction =>
    rcases List.pairwise_cons.mp leftAscending with ⟨below, rest⟩
    have whole := ascending_xorRows leftAscending rightAscending
    rw [xorRows, if_pos less] at whole
    rw [entry_cons (List.pairwise_cons.mp whole).1, entry_cons below,
      induction rest rightAscending]
    ring
  | case4 a left b right notLess greater induction =>
    rcases List.pairwise_cons.mp rightAscending with ⟨below, rest⟩
    have whole := ascending_xorRows leftAscending rightAscending
    rw [xorRows, if_neg notLess, if_pos greater] at whole
    rw [entry_cons (List.pairwise_cons.mp whole).1, entry_cons below,
      induction leftAscending rest]
    ring
  | case5 a left b right notLess notGreater induction =>
    rcases List.pairwise_cons.mp leftAscending with ⟨belowLeft, leftRest⟩
    rcases List.pairwise_cons.mp rightAscending with ⟨belowRight, rightRest⟩
    have same : a = b := by omega
    subst same
    have cancels : ∀ bit : ZMod 2, bit + bit = 0 := by decide
    rw [induction leftRest rightRest, entry_cons belowLeft, entry_cons belowRight]
    rw [add_add_add_comm, cancels, zero_add]

/-! ## The state -/

structure MergeState where
  rows : Nat → List Nat
  nodeOf : Nat → Nat
  rowAlive : Nat → Bool
  colWeight : Nat → Nat
  colRows : Nat → List Nat
  tree : MergeTree

namespace MergeState

def unindex (r : Nat) (cols : List Nat) (colRows : Nat → List Nat) : Nat → List Nat :=
  updateAll (·.filter (· != r)) cols colRows

def index (r : Nat) (cols : List Nat) (colRows : Nat → List Nat) : Nat → List Nat :=
  updateAll (· ++ [r]) cols colRows

def replaceRow (state : MergeState) (r : Nat) (candidate : List Nat)
    (left right : Nat) : MergeState where
  rows := Function.update state.rows r candidate
  nodeOf := Function.update state.nodeOf r (state.tree.pushNode left right).lastNode
  rowAlive := state.rowAlive
  colWeight := updateAll (· + 1) candidate
    (updateAll (· - 1) (state.rows r) state.colWeight)
  colRows := index r (candidate.filter (· ∉ state.rows r))
    (unindex r ((state.rows r).filter (· ∉ candidate)) state.colRows)
  tree := state.tree.pushNode left right

def deleteRow (state : MergeState) (r : Nat) : MergeState :=
  { state with
    rows := Function.update state.rows r []
    rowAlive := Function.update state.rowAlive r false
    colWeight := updateAll (· - 1) (state.rows r) state.colWeight
    colRows := unindex r (state.rows r) state.colRows }

structure Indexed (nRows nCols : Nat) (state : MergeState) : Prop where
  ascending : ∀ r, (state.rows r).Pairwise (· < ·)
  dead : ∀ r, state.rowAlive r = false → state.rows r = []
  rowBound : ∀ r, state.rowAlive r → r < nRows
  colBound : ∀ r, ∀ c ∈ state.rows r, c < nCols
  nodup : ∀ c, (state.colRows c).Nodup
  mem : ∀ c r, r ∈ state.colRows c ↔ c ∈ state.rows r
  weight : ∀ c, state.colWeight c = (state.colRows c).length

variable {nRows nCols : Nat} {state : MergeState}

theorem Indexed.alive_of_mem (indexed : state.Indexed nRows nCols) {r c : Nat}
    (present : c ∈ state.rows r) : state.rowAlive r = true := by
  by_contra dying
  have dead : state.rowAlive r = false := by simpa using dying
  rw [indexed.dead r dead] at present
  cases present

theorem Indexed.rows_nodup (indexed : state.Indexed nRows nCols) (r : Nat) : (state.rows r).Nodup :=
  (indexed.ascending r).imp fun less => less.ne

theorem Indexed.filter_alive (indexed : state.Indexed nRows nCols) (c : Nat) :
    (state.colRows c).filter state.rowAlive = state.colRows c := by
  apply List.filter_eq_self.mpr
  intro r member
  exact indexed.alive_of_mem ((indexed.mem c r).mp member)

/-! ## Deleting a row -/

theorem colRows_deleteRow (indexed : state.Indexed nRows nCols) (r c : Nat) :
    (state.deleteRow r).colRows c = (state.colRows c).filter (· != r) := by
  simp only [deleteRow, unindex]
  rw [updateAll_apply _ (indexed.rows_nodup r)]
  by_cases present : c ∈ state.rows r
  · rw [if_pos present]
  · rw [if_neg present]
    symm
    apply List.filter_eq_self.mpr
    intro other member
    have different : other ≠ r := by
      rintro rfl
      exact present ((indexed.mem c other).mp member)
    simpa using different

theorem length_filter_ne {rows : List Nat} (nodup : rows.Nodup) (r : Nat) :
    (rows.filter (· != r)).length = rows.length - if r ∈ rows then 1 else 0 := by
  have erased : rows.filter (· != r) = rows.erase r :=
    (nodup.erase_eq_filter r).symm
  rw [erased, List.length_erase]
  split <;> rfl

theorem colWeight_deleteRow (indexed : state.Indexed nRows nCols) (r c : Nat) :
    (state.deleteRow r).colWeight c = state.colWeight c - if c ∈ state.rows r then 1 else 0 := by
  simp only [deleteRow]
  rw [updateAll_apply _ (indexed.rows_nodup r)]
  split <;> rfl

theorem Indexed.deleteRow (indexed : state.Indexed nRows nCols) (r : Nat) :
    (state.deleteRow r).Indexed nRows nCols where
  ascending := by
    intro other
    simp only [MergeState.deleteRow, Function.update_apply]
    split
    · exact List.Pairwise.nil
    · exact indexed.ascending other
  dead := by
    intro other dead
    simp only [MergeState.deleteRow, Function.update_apply] at dead ⊢
    split
    · rfl
    · next different =>
        rw [if_neg different] at dead
        exact indexed.dead other dead
  rowBound := by
    intro other alive
    simp only [MergeState.deleteRow, Function.update_apply] at alive
    split at alive
    · cases alive
    · exact indexed.rowBound other alive
  colBound := by
    intro other c present
    simp only [MergeState.deleteRow, Function.update_apply] at present
    split at present
    · cases present
    · exact indexed.colBound other c present
  nodup := by
    intro c
    rw [colRows_deleteRow indexed]
    exact (indexed.nodup c).filter _
  mem := by
    intro c other
    rw [colRows_deleteRow indexed, List.mem_filter, indexed.mem]
    simp only [MergeState.deleteRow, Function.update_apply]
    by_cases same : other = r
    · simp [same]
    · simp [same]
  weight := by
    intro c
    rw [colWeight_deleteRow indexed, colRows_deleteRow indexed,
      length_filter_ne (indexed.nodup c), indexed.weight c]
    simp only [indexed.mem]

/-! ## Replacing a row -/

variable {candidate : List Nat}

theorem colRows_replaceRow (indexed : state.Indexed nRows nCols) (r : Nat)
    (candidateNodup : candidate.Nodup) (left right c : Nat) :
    (state.replaceRow r candidate left right).colRows c = if c ∈ state.rows r then
        if c ∈ candidate then state.colRows c
        else (state.colRows c).filter (· != r)
      else if c ∈ candidate then state.colRows c ++ [r]
      else state.colRows c := by
  simp only [replaceRow, index, unindex]
  rw [updateAll_apply _ (candidateNodup.filter _),
    updateAll_apply _ ((indexed.rows_nodup r).filter _)]
  by_cases before : c ∈ state.rows r
  · by_cases after : c ∈ candidate
    · simp [before, after]
    · simp [before, after]
  · by_cases after : c ∈ candidate
    · simp [before, after]
    · simp [before, after]

theorem colWeight_replaceRow (indexed : state.Indexed nRows nCols) (r : Nat)
    (candidateNodup : candidate.Nodup) (left right c : Nat) :
    (state.replaceRow r candidate left right).colWeight c =
      (state.colWeight c - if c ∈ state.rows r then 1 else 0) + if c ∈ candidate then 1 else 0 := by
  simp only [replaceRow]
  rw [updateAll_apply _ candidateNodup, updateAll_apply _ (indexed.rows_nodup r)]
  split <;> split <;> rfl

theorem Indexed.replaceRow (indexed : state.Indexed nRows nCols) {r : Nat}
    (alive : state.rowAlive r = true) (ascending : candidate.Pairwise (· < ·))
    (bound : ∀ c ∈ candidate, c < nCols) (left right : Nat) :
    (state.replaceRow r candidate left right).Indexed nRows nCols := by
  have candidateNodup : candidate.Nodup := ascending.imp fun less => less.ne
  constructor
  · intro other
    simp only [MergeState.replaceRow, Function.update_apply]
    split
    · exact ascending
    · exact indexed.ascending other
  · intro other dead
    have different : other ≠ r := by
      rintro rfl
      exact Bool.noConfusion (alive.symm.trans dead)
    simp only [MergeState.replaceRow, Function.update_of_ne different]
    exact indexed.dead other dead
  · exact indexed.rowBound
  · intro other c present
    simp only [MergeState.replaceRow, Function.update_apply] at present
    split at present
    · exact bound c present
    · exact indexed.colBound other c present
  · intro c
    rw [colRows_replaceRow indexed r candidateNodup]
    split
    · split
      · exact indexed.nodup c
      · exact (indexed.nodup c).filter _
    · next before =>
        split
        · have fresh : r ∉ state.colRows c := mt (indexed.mem c r).mp before
          exact List.nodup_append.mpr ⟨indexed.nodup c, List.nodup_singleton r, by
            intro other member item single
            rw [List.mem_singleton] at single
            rintro rfl
            exact fresh (single ▸ member)⟩
        · exact indexed.nodup c
  · intro c other
    have old := indexed.mem c other
    rw [colRows_replaceRow indexed r candidateNodup]
    simp only [MergeState.replaceRow, Function.update_apply]
    by_cases same : other = r
    · subst same
      by_cases before : c ∈ state.rows other <;> by_cases after : c ∈ candidate <;>
        simp [before, after, old]
    · by_cases before : c ∈ state.rows r <;> by_cases after : c ∈ candidate <;>
        simp [before, after, same, old]
  · intro c
    rw [colWeight_replaceRow indexed r candidateNodup,
      colRows_replaceRow indexed r candidateNodup, indexed.weight c]
    have counted : c ∈ state.rows r → 0 < (state.colRows c).length := fun before =>
      List.length_pos_of_mem ((indexed.mem c r).mpr before)
    by_cases before : c ∈ state.rows r
    · have positive := counted before
      by_cases after : c ∈ candidate
      · simp only [before, after, if_true]
        omega
      · simp only [before, after, if_true, if_false]
        rw [length_filter_ne (indexed.nodup c), if_pos ((indexed.mem c r).mpr before)]
        rfl
    · by_cases after : c ∈ candidate
      · simp [before, after]
      · simp [before, after]

/-! ## The kernel behind the state -/

def aliveSet (nRows : Nat) (state : MergeState) : Finset Nat :=
  (Finset.range nRows).filter (state.rowAlive ·)

/-- The alive rows record leaves whose combinations are the kernel of the
input. -/
structure Tracked (input : HostMatrixCSR) (nRows nCols : Nat)
    (state : MergeState) : Prop where
  indexed : state.Indexed nRows nCols
  reduction : ∃ leaves : Nat → List Nat,
    (∀ r, state.rowAlive r → state.tree.Expansion (state.nodeOf r) (leaves r)) ∧
    Expands (state.aliveSet nRows) (fun r => entry (state.rows r))
      (fun r => parity (leaves r)) input.leftKernel

variable {input : HostMatrixCSR}

theorem Tracked.mem_aliveSet (tracked : state.Tracked input nRows nCols) {r : Nat} :
    r ∈ state.aliveSet nRows ↔ state.rowAlive r := by
  rw [aliveSet, Finset.mem_filter, Finset.mem_range]
  exact ⟨fun both => both.2, fun alive => ⟨tracked.indexed.rowBound r alive, alive⟩⟩

structure Sums (state : MergeState) (candidate : List Nat)
    (source destination : Nat) : Prop where
  ascending : candidate.Pairwise (· < ·)
  entries : ∀ c, entry candidate c = entry (state.rows destination) c + entry (state.rows source) c

theorem Indexed.sums_xorRows (indexed : state.Indexed nRows nCols) (source destination : Nat) :
    state.Sums (xorRows (state.rows source) (state.rows destination)) source destination where
  ascending := ascending_xorRows (indexed.ascending _) (indexed.ascending _)
  entries := by
    intro c
    rw [entry_xorRows (indexed.ascending _) (indexed.ascending _), add_comm]

theorem Indexed.sums_xorRows_comm (indexed : state.Indexed nRows nCols) (source destination : Nat) :
    state.Sums (xorRows (state.rows destination) (state.rows source)) source destination where
  ascending := ascending_xorRows (indexed.ascending _) (indexed.ascending _)
  entries := entry_xorRows (indexed.ascending _) (indexed.ascending _)

theorem Sums.bound (indexed : state.Indexed nRows nCols) {source destination : Nat}
    (sums : state.Sums candidate source destination) : ∀ c ∈ candidate, c < nCols := by
  intro c member
  have total := sums.entries c
  rw [entry, if_pos member] at total
  by_cases inDestination : c ∈ state.rows destination
  · exact indexed.colBound destination c inDestination
  · by_cases inSource : c ∈ state.rows source
    · exact indexed.colBound source c inSource
    · simp [entry, inDestination, inSource] at total

def Joins (state : MergeState) (left right source destination : Nat) : Prop :=
  left = state.nodeOf source ∧ right = state.nodeOf destination ∨
    left = state.nodeOf destination ∧ right = state.nodeOf source

/-- Adding an alive row to another one keeps the kernel. -/
theorem Tracked.replaceRow (tracked : state.Tracked input nRows nCols) {source destination : Nat}
    (sourceAlive : state.rowAlive source = true)
    (destinationAlive : state.rowAlive destination = true) (different : source ≠ destination)
    (sums : state.Sums candidate source destination) {left right : Nat}
    (joins : state.Joins left right source destination) :
    (state.replaceRow destination candidate left right).Tracked input nRows
      nCols := by
  refine ⟨tracked.indexed.replaceRow destinationAlive sums.ascending
    (sums.bound tracked.indexed) left right, ?_⟩
  rcases tracked.reduction with ⟨leaves, expansions, expands⟩
  have joined : ∃ newLeaves, (state.tree.pushNode left right).Expansion
        (state.tree.pushNode left right).lastNode newLeaves ∧
      ∀ leaf, parity newLeaves leaf =
        parity (leaves destination) leaf + parity (leaves source) leaf := by
    have ofSource := expansions source sourceAlive
    have ofDestination := expansions destination destinationAlive
    rcases joins with ⟨rfl, rfl⟩ | ⟨rfl, rfl⟩
    · exact ⟨_, MergeTree.expansion_lastNode ofSource ofDestination, parity_append _ _⟩
    · refine ⟨_, MergeTree.expansion_lastNode ofDestination ofSource, ?_⟩
      intro leaf
      rw [parity_append, add_comm]
  rcases joined with ⟨newLeaves, newExpansion, newParity⟩
  refine ⟨Function.update leaves destination newLeaves, ?_, ?_⟩
  · intro r alive
    by_cases same : r = destination
    · subst same
      simp only [MergeState.replaceRow, Function.update_self]
      exact newExpansion
    · simp only [MergeState.replaceRow, Function.update_of_ne same]
      exact (expansions r alive).pushNode left right
  · apply expands.addRow (tracked.mem_aliveSet.mpr sourceAlive)
      (tracked.mem_aliveSet.mpr destinationAlive) different
    · intro r _ c
      by_cases same : r = destination
      · subst same
        simp only [MergeState.replaceRow, Function.update_self, if_true]
        exact sums.entries c
      · simp only [MergeState.replaceRow, Function.update_of_ne same, if_neg same, add_zero]
    · intro r _ leaf
      by_cases same : r = destination
      · subst same
        simp only [Function.update_self, if_true]
        exact newParity leaf
      · simp only [Function.update_of_ne same, if_neg same, add_zero]

theorem Tracked.deleteRow (tracked : state.Tracked input nRows nCols) {r c : Nat}
    (single : state.colRows c = [r]) :
    (state.deleteRow r).Tracked input nRows nCols := by
  refine ⟨tracked.indexed.deleteRow r, ?_⟩
  rcases tracked.reduction with ⟨leaves, expansions, expands⟩
  have present : c ∈ state.rows r :=
    (tracked.indexed.mem c r).mp (single ▸ List.mem_singleton_self r)
  have alive := tracked.indexed.alive_of_mem present
  have others : ∀ other ∈ (state.aliveSet nRows).erase r,
      entry (state.rows other) c = 0 := by
    intro other member
    apply if_neg
    intro otherPresent
    have listed := (tracked.indexed.mem c other).mpr otherPresent
    rw [single, List.mem_singleton] at listed
    exact (Finset.mem_erase.mp member).1 listed
  have erased : (state.deleteRow r).aliveSet nRows =
      (state.aliveSet nRows).erase r := by
    ext other
    rw [aliveSet, aliveSet, Finset.mem_erase, Finset.mem_filter, Finset.mem_filter]
    simp only [MergeState.deleteRow, Function.update_apply]
    by_cases same : other = r
    · simp [same]
    · simp [same]
  refine ⟨leaves, ?_, ?_⟩
  · intro other otherAlive
    simp only [MergeState.deleteRow, Function.update_apply] at otherAlive ⊢
    split at otherAlive
    · cases otherAlive
    · exact expansions other otherAlive
  · rw [erased]
    refine (expands.deleteRow (tracked.mem_aliveSet.mpr alive) (if_pos present)
      others).congr ?_ fun _ _ => rfl
    intro other member
    have different := (Finset.mem_erase.mp member).1
    simp only [MergeState.deleteRow, Function.update_of_ne different]

/-! ## The beginning and the end of a pass -/

def columnRows (nRows : Nat) (rows : Nat → List Nat) : Nat → List Nat :=
  (List.range nRows).foldl (fun colRows r => index r (rows r) colRows) fun _ => []

theorem columnRows_eq {rows : Nat → List Nat} (nRows : Nat)
    (nodup : ∀ r < nRows, (rows r).Nodup) (c : Nat) :
    columnRows nRows rows c = (List.range nRows).filter fun r => c ∈ rows r := by
  induction nRows with
  | zero => rfl
  | succ nRows induction =>
    have prior := induction fun r inside => nodup r (by omega)
    rw [columnRows] at prior ⊢
    rw [List.range_succ, List.foldl_append, List.filter_append, ← prior,
      List.foldl_cons, List.foldl_nil, index,
      updateAll_apply _ (nodup nRows (Nat.lt_succ_self _))]
    by_cases present : c ∈ rows nRows
    · simp [present]
    · simp [present]

/-- Row-major rows with their index; nothing outside the matrix is alive. -/
def initial (matrix : HostMatrixCSR) (rowMap : List Nat) (tree : MergeTree) : MergeState where
  rows := fun r => if r < matrix.nRows then matrix.row r else []
  nodeOf := fun r => rowMap.getD r 0
  rowAlive := fun r => decide (r < matrix.nRows)
  colWeight := columnWeights matrix.nRows matrix.row
  colRows := columnRows matrix.nRows matrix.row
  tree := tree

theorem indexed_initial {matrix : HostMatrixCSR} (wellFormed : matrix.WellFormed)
    (rowMap : List Nat) (tree : MergeTree) :
    (initial matrix rowMap tree).Indexed matrix.nRows matrix.nCols where
  ascending := by
    intro r
    simp only [initial]
    split
    · next inside => exact wellFormed.ascending r inside
    · exact List.Pairwise.nil
  dead := by
    intro r dead
    simp only [initial, decide_eq_false_iff_not] at dead ⊢
    rw [if_neg dead]
  rowBound := fun r alive => of_decide_eq_true alive
  colBound := by
    intro r c present
    simp only [initial] at present
    split at present
    · next inside => exact wellFormed.bound r inside c present
    · cases present
  nodup := by
    intro c
    simp only [initial, columnRows_eq matrix.nRows (fun r => wellFormed.nodup)]
    exact List.nodup_range.filter _
  mem := by
    intro c r
    simp only [initial, columnRows_eq matrix.nRows (fun r => wellFormed.nodup)]
    rw [List.mem_filter, List.mem_range, decide_eq_true_iff]
    by_cases inside : r < matrix.nRows
    · simp [inside]
    · simp [inside]
  weight := by
    intro c
    simp only [initial, columnRows_eq matrix.nRows (fun r => wellFormed.nodup),
      columnWeights_eq matrix.nRows (fun r => wellFormed.nodup)]
    exact List.countP_eq_length_filter

theorem tracked_initial {matrix : HostMatrixCSR} (wellFormed : matrix.WellFormed)
    {rowMap : List Nat} {tree : MergeTree}
    (reduction : Reduction input matrix rowMap tree) :
    (initial matrix rowMap tree).Tracked input matrix.nRows matrix.nCols := by
  refine ⟨indexed_initial wellFormed rowMap tree, ?_⟩
  rcases reduction with ⟨leaves, expansions, expands⟩
  have alive : (initial matrix rowMap tree).aliveSet matrix.nRows =
      Finset.range matrix.nRows := by
    rw [aliveSet]
    apply Finset.filter_true_of_mem
    intro r member
    exact decide_eq_true (Finset.mem_range.mp member)
  refine ⟨leaves, fun r alive => expansions r (of_decide_eq_true alive), ?_⟩
  rw [alive]
  refine expands.congr ?_ fun _ _ => rfl
  intro r member
  simp only [initial, if_pos (Finset.mem_range.mp member)]

def finish (state : MergeState) (nRows nCols mergesPerformed rowsRemoved : Nat) : MergeResult where
  reduced := compactRows nRows nCols state.colWeight state.rowAlive state.rows
  rowMap := (aliveRows nRows state.rowAlive).map state.nodeOf
  mergeTree := state.tree
  mergesPerformed := mergesPerformed
  rowsRemoved := rowsRemoved

theorem Indexed.covers (indexed : state.Indexed nRows nCols) :
    Covers nRows nCols state.colWeight state.rowAlive state.rows where
  bound := fun r _ _ => indexed.colBound r
  kept := by
    intro r _ _ c present
    rw [indexed.weight c]
    exact List.length_pos_of_mem ((indexed.mem c r).mpr present)
  ascending := fun r _ _ => indexed.ascending r

theorem Tracked.finish (tracked : state.Tracked input nRows nCols)
    (mergesPerformed rowsRemoved : Nat) :
    let result := state.finish nRows nCols mergesPerformed rowsRemoved
    result.reduced.WellFormed ∧
      Reduction input result.reduced result.rowMap result.mergeTree := by
  have covers := tracked.indexed.covers
  refine ⟨covers.wellFormed, ?_⟩
  rcases tracked.reduction with ⟨leaves, expansions, expands⟩
  refine ⟨fun i => leaves (placeOf nRows state.rowAlive i), ?_, covers.expands expands⟩
  intro i inside
  have bound : i < (aliveRows nRows state.rowAlive).length := by
    rwa [← nRows_compactRows]
  simp only [MergeState.finish]
  rw [getD_rowMap state.nodeOf bound]
  exact expansions _ (mem_aliveRows.mp (placeOf_mem bound)).2

end MergeState

end CudaMpqs
