import CudaMpqs.Matrix.Compaction

/-! # Singleton removal

`removeSingletons` of `merge_filter.cpp`: rows with a column of weight 1 are
deleted until no such column is left. -/

namespace CudaMpqs

open Elimination

def updateAll {α : Type} (change : α → α) (cols : List Nat) (entries : Nat → α) : Nat → α :=
  cols.foldl (fun entries c => Function.update entries c (change (entries c)))
    entries

theorem updateAll_apply {α : Type} (change : α → α) {cols : List Nat}
    (nodup : cols.Nodup) (entries : Nat → α) (c : Nat) :
    updateAll change cols entries c = if c ∈ cols then change (entries c) else entries c := by
  induction cols generalizing entries with
  | nil => simp [updateAll]
  | cons head cols induction =>
    rcases List.nodup_cons.mp nodup with ⟨fresh, nodup⟩
    have rest := induction nodup
      (Function.update entries head (change (entries head)))
    rw [updateAll] at rest ⊢
    rw [List.foldl_cons, rest]
    by_cases isHead : c = head
    · subst isHead
      rw [if_neg fresh, if_pos List.mem_cons_self, Function.update_self]
    · rw [Function.update_of_ne isHead]
      simp [isHead]

theorem HostMatrixCSR.WellFormed.nodup {matrix : HostMatrixCSR}
    (wellFormed : matrix.WellFormed) {r : Nat} (inside : r < matrix.nRows) :
    (matrix.row r).Nodup :=
  (wellFormed.ascending r inside).imp fun less => less.ne

def columnWeights (nRows : Nat) (rows : Nat → List Nat) : Nat → Nat :=
  (List.range nRows).foldl (fun colWeight r => updateAll (· + 1) (rows r) colWeight)
    fun _ => 0

theorem columnWeights_eq {rows : Nat → List Nat} (nRows : Nat)
    (nodup : ∀ r < nRows, (rows r).Nodup) (c : Nat) :
    columnWeights nRows rows c = (List.range nRows).countP fun r => c ∈ rows r := by
  induction nRows with
  | zero => rfl
  | succ nRows induction =>
    have prior := induction fun r inside => nodup r (by omega)
    rw [columnWeights] at prior ⊢
    rw [List.range_succ, List.foldl_append, List.countP_append, ← prior,
      List.foldl_cons, List.foldl_nil,
      updateAll_apply _ (nodup nRows (Nat.lt_succ_self _)), List.countP_singleton]
    by_cases present : c ∈ rows nRows
    · simp [present]
    · simp [present]

/-! ## The passes -/

structure SingletonState where
  rowAlive : Nat → Bool
  colWeight : Nat → Nat
  removedThisPass : Nat
  totalRemoved : Nat
  iteration : Nat

def removeRow (matrix : HostMatrixCSR) (state : SingletonState) (r : Nat) : SingletonState :=
  { state with
    rowAlive := Function.update state.rowAlive r false
    colWeight := updateAll (· - 1) (matrix.row r) state.colWeight
    removedThisPass := state.removedThisPass + 1 }

def visitRow (matrix : HostMatrixCSR) (state : SingletonState) (r : Nat) : SingletonState :=
  if !state.rowAlive r then state
  else if (matrix.row r).any (state.colWeight · == 1) then
    removeRow matrix state r
  else state

def singletonPass (matrix : HostMatrixCSR) (state : SingletonState) : SingletonState :=
  let after := (List.range matrix.nRows).foldl (visitRow matrix)
    { state with removedThisPass := 0 }
  { after with
    totalRemoved := after.totalRemoved + after.removedThisPass
    iteration := after.iteration + 1 }

def singletonLoop (matrix : HostMatrixCSR) : Nat → SingletonState → SingletonState
  | 0, state => state
  | remaining + 1, state =>
    let after := singletonPass matrix state
    if after.removedThisPass = 0 then after
    else singletonLoop matrix remaining after

def kMaxSingletonIterations : Nat := 100

structure SingletonResult where
  reduced : HostMatrixCSR
  rowMap : List Nat
  colMap : List Nat
  iterations : Nat
  rowsRemoved : Nat
  colsRemoved : Nat
deriving DecidableEq

def removeSingletons (input : HostMatrixCSR) : SingletonResult :=
  let state := singletonLoop input kMaxSingletonIterations
    ⟨fun _ => true, columnWeights input.nRows input.row, 0, 0, 0⟩
  let reduced := compactRows input.nRows input.nCols state.colWeight
    state.rowAlive input.row
  { reduced
    rowMap := aliveRows input.nRows state.rowAlive
    colMap := (List.range input.nCols).filter (0 < state.colWeight ·)
    iterations := state.iteration
    rowsRemoved := state.totalRemoved
    colsRemoved := input.nCols - reduced.nCols }

/-! ## What the passes keep -/

structure SingletonValid (matrix : HostMatrixCSR) (state : SingletonState) :
    Prop where
  weight : ∀ c, state.colWeight c = ((Finset.range matrix.nRows).filter fun r =>
      state.rowAlive r ∧ c ∈ matrix.row r).card
  expands : Expands ((Finset.range matrix.nRows).filter (state.rowAlive ·))
    (fun r => HostMatrixCSR.entry (matrix.row r)) (fun r => parity [r])
    matrix.leftKernel

variable {matrix : HostMatrixCSR} {state : SingletonState}

theorem combine_parity_singleton (alive : Finset Nat) {x : Nat → ZMod 2}
    (support : ∀ r, r ∉ alive → x r = 0) :
    combine alive (fun r => parity [r]) x = x := by
  funext leaf
  rw [combine]
  by_cases inside : leaf ∈ alive
  · rw [Finset.sum_eq_single_of_mem leaf inside]
    · simp [parity]
    · intro r _ other
      simp [parity, other]
  · rw [support leaf inside]
    apply Finset.sum_eq_zero
    intro r member
    have other : r ≠ leaf := by
      rintro rfl
      exact inside member
    simp [parity, other]

theorem expands_self (matrix : HostMatrixCSR) : Expands (Finset.range matrix.nRows)
      (fun r => HostMatrixCSR.entry (matrix.row r)) (fun r => parity [r])
      matrix.leftKernel := by
  refine (Set.bijOn_id matrix.leftKernel).congr ?_
  intro x member
  exact (combine_parity_singleton _ member.1).symm

/-- Deleting a row with a column of its own loses no kernel vector. -/
theorem SingletonValid.removeRow (valid : SingletonValid matrix state)
    (wellFormed : matrix.WellFormed) {r c : Nat} (inside : r < matrix.nRows)
    (alive : state.rowAlive r = true) (present : c ∈ matrix.row r)
    (singleton : state.colWeight c = 1) :
    SingletonValid matrix (removeRow matrix state r) := by
  have erased : (Finset.range matrix.nRows).filter
      (Function.update state.rowAlive r false ·) =
        ((Finset.range matrix.nRows).filter (state.rowAlive ·)).erase r := by
    ext other
    rw [Finset.mem_erase, Finset.mem_filter, Finset.mem_filter, Function.update_apply]
    by_cases same : other = r
    · simp [same]
    · simp [same]
  constructor
  · intro column
    have weights := valid.weight column
    have aliveAfter : (CudaMpqs.removeRow matrix state r).rowAlive =
        Function.update state.rowAlive r false := rfl
    have weightAfter : (CudaMpqs.removeRow matrix state r).colWeight =
        updateAll (· - 1) (matrix.row r) state.colWeight := rfl
    have rest : (Finset.range matrix.nRows).filter (fun other =>
        (CudaMpqs.removeRow matrix state r).rowAlive other ∧ column ∈ matrix.row other) =
          ((Finset.range matrix.nRows).filter fun other =>
            state.rowAlive other ∧ column ∈ matrix.row other).erase r := by
      ext other
      rw [Finset.mem_erase, Finset.mem_filter, Finset.mem_filter, aliveAfter, Function.update_apply]
      by_cases same : other = r
      · simp [same]
      · simp [same]
    rw [rest, weightAfter, updateAll_apply _ (wellFormed.nodup inside), weights]
    by_cases inRow : column ∈ matrix.row r
    · rw [if_pos inRow, Finset.card_erase_of_mem]
      simp [inside, alive, inRow]
    · rw [if_neg inRow, Finset.erase_eq_of_notMem]
      simp [inRow]
  · have only : ∀ other ∈ ((Finset.range matrix.nRows).filter
        (state.rowAlive ·)).erase r, c ∉ matrix.row other := by
      intro other member otherPresent
      rcases Finset.mem_erase.mp member with ⟨different, member⟩
      rcases Finset.mem_filter.mp member with ⟨otherInside, otherAlive⟩
      rw [valid.weight c] at singleton
      apply different
      refine Finset.card_le_one.mp singleton.le other ?_ r ?_
      · exact Finset.mem_filter.mpr ⟨otherInside, otherAlive, otherPresent⟩
      · exact Finset.mem_filter.mpr ⟨Finset.mem_range.mpr inside, alive, present⟩
    have expands := valid.expands.deleteRow
      (Finset.mem_filter.mpr ⟨Finset.mem_range.mpr inside, alive⟩)
      (if_pos present) fun other member => if_neg (only other member)
    rwa [← erased] at expands

theorem SingletonValid.visitRow (valid : SingletonValid matrix state)
    (wellFormed : matrix.WellFormed) {r : Nat} (inside : r < matrix.nRows) :
    SingletonValid matrix (visitRow matrix state r) := by
  rw [CudaMpqs.visitRow]
  split
  · exact valid
  · next notDead =>
      split
      · next found =>
          rcases List.any_eq_true.mp found with ⟨c, present, singleton⟩
          exact valid.removeRow wellFormed inside (by simpa using notDead) present
            (beq_iff_eq.mp singleton)
      · exact valid

theorem SingletonValid.singletonPass (valid : SingletonValid matrix state)
    (wellFormed : matrix.WellFormed) :
    SingletonValid matrix (singletonPass matrix state) := by
  have visits : ∀ (rows : List Nat) (state : SingletonState),
      (∀ r ∈ rows, r < matrix.nRows) → SingletonValid matrix state →
        SingletonValid matrix (rows.foldl (CudaMpqs.visitRow matrix) state) := by
    intro rows
    induction rows with
    | nil => exact fun state _ valid => valid
    | cons r rows induction =>
      intro state bound valid
      apply induction
      · exact fun other member => bound other (List.mem_cons_of_mem _ member)
      · exact valid.visitRow wellFormed (bound r List.mem_cons_self)
  have after := visits (List.range matrix.nRows) { state with removedThisPass := 0 }
    (fun r member => List.mem_range.mp member) ⟨valid.weight, valid.expands⟩
  exact ⟨after.weight, after.expands⟩

theorem SingletonValid.singletonLoop (remaining : Nat)
    (valid : SingletonValid matrix state) (wellFormed : matrix.WellFormed) :
    SingletonValid matrix (singletonLoop matrix remaining state) := by
  induction remaining generalizing state with
  | zero => exact valid
  | succ remaining induction =>
    have after := valid.singletonPass wellFormed
    rw [CudaMpqs.singletonLoop]
    split
    · exact after
    · exact induction after

theorem singletonValid_initial (wellFormed : matrix.WellFormed) : SingletonValid matrix
      ⟨fun _ => true, columnWeights matrix.nRows matrix.row, 0, 0, 0⟩ where
  weight := by
    intro c
    simp only [columnWeights_eq matrix.nRows (fun r => wellFormed.nodup)]
    rw [List.countP_eq_length_filter, ← List.toFinset_card_of_nodup (List.nodup_range.filter _)]
    congr 1
    ext r
    simp
  expands := by
    simpa using expands_self matrix

theorem SingletonValid.covers (valid : SingletonValid matrix state)
    (wellFormed : matrix.WellFormed) :
    Covers matrix.nRows matrix.nCols state.colWeight state.rowAlive matrix.row where
  bound := fun r inside _ => wellFormed.bound r inside
  kept := by
    intro r inside alive c present
    rw [valid.weight c, Finset.card_pos]
    exact ⟨r, Finset.mem_filter.mpr ⟨Finset.mem_range.mpr inside, alive, present⟩⟩
  ascending := fun r inside _ => wellFormed.ascending r inside

theorem removeSingletons_spec {input : HostMatrixCSR} (wellFormed : input.WellFormed) :
    (removeSingletons input).reduced.WellFormed ∧ (removeSingletons input).rowMap.length =
        (removeSingletons input).reduced.nRows ∧
      Expands (Finset.range (removeSingletons input).reduced.nRows)
        (fun i => HostMatrixCSR.entry ((removeSingletons input).reduced.row i))
        (fun i => parity [(removeSingletons input).rowMap.getD i 0])
        input.leftKernel := by
  have valid := (singletonValid_initial wellFormed).singletonLoop
    kMaxSingletonIterations wellFormed
  have covers := valid.covers wellFormed
  exact ⟨covers.wellFormed, nRows_compactRows.symm, covers.expands valid.expands⟩

end CudaMpqs
