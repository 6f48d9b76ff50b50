import CudaMpqs.Matrix.SingletonRemoval

/-! # When singleton removal converges

The passes of `removeSingletons` stop at a fixed point or at their cap. A pass that
removes nothing has seen no column of weight 1. -/

namespace CudaMpqs

variable {matrix : HostMatrixCSR} {state : SingletonState}

/-! ## One pass -/

def Removable (matrix : HostMatrixCSR) (state : SingletonState) (r : Nat) : Prop :=
  state.rowAlive r = true ∧ ∃ c ∈ matrix.row r, state.colWeight c = 1

theorem visitRow_of_removable {r : Nat} (removable : Removable matrix state r) :
    visitRow matrix state r = removeRow matrix state r := by
  rcases removable with ⟨alive, c, present, single⟩
  have found : (matrix.row r).any (state.colWeight · == 1) = true :=
    List.any_eq_true.mpr ⟨c, present, beq_iff_eq.mpr single⟩
  simp [visitRow, alive, found]

theorem visitRow_of_not_removable {r : Nat} (stays : ¬ Removable matrix state r) :
    visitRow matrix state r = state := by
  rw [visitRow]
  split
  · rfl
  · next alive =>
      split
      · next found =>
          rcases List.any_eq_true.mp found with ⟨c, present, single⟩
          exact absurd ⟨by simpa using alive, c, present, beq_iff_eq.mp single⟩ stays
      · rfl

theorem removedThisPass_le (rows : List Nat) (state : SingletonState) :
    state.removedThisPass ≤ (rows.foldl (visitRow matrix) state).removedThisPass := by
  induction rows generalizing state with
  | nil => exact le_rfl
  | cons r rows induction =>
    apply le_trans _ (induction _)
    by_cases removable : Removable matrix state r
    · rw [visitRow_of_removable removable]
      exact Nat.le_succ _
    · rw [visitRow_of_not_removable removable]

theorem foldl_visitRow_of_stays {rows : List Nat} (stays : ∀ r ∈ rows, ¬ Removable matrix state r) :
    rows.foldl (visitRow matrix) state = state := by
  induction rows with
  | nil => rfl
  | cons r rows induction =>
    rw [List.foldl_cons, visitRow_of_not_removable (stays r List.mem_cons_self)]
    exact induction fun other member => stays other (List.mem_cons_of_mem _ member)

theorem stays_of_removedThisPass {rows : List Nat}
    (same : (rows.foldl (visitRow matrix) state).removedThisPass =
      state.removedThisPass) : ∀ r ∈ rows, ¬ Removable matrix state r := by
  induction rows with
  | nil => nofun
  | cons r rows induction =>
    by_cases removable : Removable matrix state r
    · rw [List.foldl_cons, visitRow_of_removable removable] at same
      have grows := @removedThisPass_le matrix rows (removeRow matrix state r)
      have one : (removeRow matrix state r).removedThisPass =
          state.removedThisPass + 1 := rfl
      omega
    · rw [List.foldl_cons, visitRow_of_not_removable removable] at same
      intro other member
      rcases List.mem_cons.mp member with rfl | member
      · exact removable
      · exact induction same other member

def Converged (matrix : HostMatrixCSR) (state : SingletonState) : Prop :=
  (singletonPass matrix state).removedThisPass = 0

instance (matrix : HostMatrixCSR) (state : SingletonState) :
    Decidable (Converged matrix state) := inferInstanceAs (Decidable (_ = _))

theorem converged_iff :
    Converged matrix state ↔ ∀ r < matrix.nRows, ¬ Removable matrix state r := by
  have start : ∀ r, Removable matrix { state with removedThisPass := 0 } r ↔
      Removable matrix state r := fun r => Iff.rfl
  constructor
  · intro none r inside
    exact mt (start r).mpr (stays_of_removedThisPass none r (List.mem_range.mpr inside))
  · intro stays
    rw [Converged, singletonPass, foldl_visitRow_of_stays]
    intro r member
    rw [start]
    exact stays r (List.mem_range.mp member)

theorem Converged.singletonPass (converged : Converged matrix state) :
    Converged matrix (singletonPass matrix state) := by
  have stays := converged_iff.mp converged
  have same : (List.range matrix.nRows).foldl (visitRow matrix)
      { state with removedThisPass := 0 } = { state with removedThisPass := 0 } :=
    foldl_visitRow_of_stays fun r member => stays r (List.mem_range.mp member)
  rw [converged_iff, CudaMpqs.singletonPass, same]
  exact stays

theorem SingletonValid.converged_iff_colWeight (valid : SingletonValid matrix state) :
    Converged matrix state ↔ ∀ c, state.colWeight c ≠ 1 := by
  rw [converged_iff]
  constructor
  · intro stays c single
    have one := single
    rw [valid.weight, Finset.card_eq_one] at one
    rcases one with ⟨r, isRow⟩
    have member : r ∈ (Finset.range matrix.nRows).filter fun r =>
        state.rowAlive r ∧ c ∈ matrix.row r := isRow ▸ Finset.mem_singleton_self r
    rcases Finset.mem_filter.mp member with ⟨inside, alive, present⟩
    exact stays r (Finset.mem_range.mp inside) ⟨alive, c, present, single⟩
  · rintro none r - ⟨-, c, -, single⟩
    exact none c single

/-! ## The loop -/

theorem aliveRows_foldl_visitRow {rows : List Nat} (inside : ∀ r ∈ rows, r < matrix.nRows)
    (state : SingletonState) :
    (aliveRows matrix.nRows (rows.foldl (visitRow matrix) state).rowAlive).length +
        (rows.foldl (visitRow matrix) state).removedThisPass =
      (aliveRows matrix.nRows state.rowAlive).length + state.removedThisPass := by
  induction rows generalizing state with
  | nil => rfl
  | cons r rows induction =>
    rw [List.foldl_cons, induction fun other member =>
      inside other (List.mem_cons_of_mem _ member)]
    by_cases removable : Removable matrix state r
    · have fewer := length_aliveRows_update (inside r List.mem_cons_self) removable.1
      rw [visitRow_of_removable removable]
      simp only [removeRow]
      omega
    · rw [visitRow_of_not_removable removable]

private theorem iteration_foldl_visitRow (rows : List Nat) (state : SingletonState) :
    (rows.foldl (visitRow matrix) state).iteration = state.iteration := by
  induction rows generalizing state with
  | nil => rfl
  | cons r rows induction =>
    rw [List.foldl_cons, induction]
    by_cases removable : Removable matrix state r
    · rw [visitRow_of_removable removable]
      rfl
    · rw [visitRow_of_not_removable removable]

theorem iteration_singletonPass : (singletonPass matrix state).iteration = state.iteration + 1 :=
  congrArg (· + 1) (iteration_foldl_visitRow _ _)

private theorem aliveRows_singletonPass :
    (aliveRows matrix.nRows (singletonPass matrix state).rowAlive).length +
        (singletonPass matrix state).removedThisPass =
      (aliveRows matrix.nRows state.rowAlive).length :=
  aliveRows_foldl_visitRow (fun _ member => List.mem_range.mp member)
    { state with removedThisPass := 0 }

theorem singletonLoop_converges (matrix : HostMatrixCSR) (remaining : Nat)
    (state : SingletonState) :
    Converged matrix (singletonLoop matrix remaining state) ∨
      (singletonLoop matrix remaining state).iteration = state.iteration + remaining ∧
        (aliveRows matrix.nRows (singletonLoop matrix remaining state).rowAlive).length +
          remaining ≤ (aliveRows matrix.nRows state.rowAlive).length := by
  induction remaining generalizing state with
  | zero => exact .inr ⟨rfl, le_rfl⟩
  | succ remaining induction =>
    rw [singletonLoop]
    split
    · next none => exact .inl (Converged.singletonPass none)
    · next some =>
        have counted := @aliveRows_singletonPass matrix state
        have next := @iteration_singletonPass matrix state
        rcases induction (singletonPass matrix state) with converged | ⟨iteration, fewer⟩
        · exact .inl converged
        · exact .inr ⟨by omega, by omega⟩

/-! ## The reduced matrix -/

def singletonStart (input : HostMatrixCSR) : SingletonState :=
  ⟨fun _ => true, columnWeights input.nRows input.row, 0, 0, 0⟩

def lastState (input : HostMatrixCSR) : SingletonState :=
  singletonLoop input kMaxSingletonIterations (singletonStart input)

theorem singletonValid_lastState {input : HostMatrixCSR} (wellFormed : input.WellFormed) :
    SingletonValid input (lastState input) :=
  (singletonValid_initial wellFormed).singletonLoop kMaxSingletonIterations wellFormed

theorem SingletonValid.weight_countP (valid : SingletonValid matrix state) (c : Nat) :
    state.colWeight c =
      (List.range matrix.nRows).countP fun r => c ∈ matrix.row r ∧ state.rowAlive r := by
  rw [valid.weight, List.countP_eq_length_filter,
    ← List.toFinset_card_of_nodup (List.nodup_range.filter _)]
  congr 1
  ext r
  simp [and_comm]

private theorem removeSingletons_columns {input : HostMatrixCSR} (wellFormed : input.WellFormed)
    (good : Nat → Prop) :
    (∀ c < (removeSingletons input).reduced.nCols,
        good ((removeSingletons input).reduced.columnWeight c)) ↔
      ∀ c < input.nCols, 0 < (lastState input).colWeight c →
        good ((lastState input).colWeight c) := by
  have valid := singletonValid_lastState wellFormed
  exact (valid.covers wellFormed).forall_columnWeight valid.weight_countP good

theorem removeSingletons_columns_iff {input : HostMatrixCSR} (wellFormed : input.WellFormed) :
    (∀ c < (removeSingletons input).reduced.nCols,
        (removeSingletons input).reduced.columnWeight c ≠ 1) ↔
      Converged input (lastState input) := by
  have valid := singletonValid_lastState wellFormed
  rw [removeSingletons_columns wellFormed (· ≠ 1), valid.converged_iff_colWeight]
  constructor
  · intro none c single
    have positive : 0 < (lastState input).colWeight c := by omega
    have present := positive
    rw [valid.weight, Finset.card_pos] at present
    rcases present with ⟨r, member⟩
    rcases Finset.mem_filter.mp member with ⟨inside, -, inRow⟩
    have bound := wellFormed.bound r (Finset.mem_range.mp inside) c inRow
    exact none c bound positive single
  · exact fun none c _ _ => none c

private theorem converged_or_capped (input : HostMatrixCSR) : Converged input (lastState input) ∨
      (removeSingletons input).iterations = kMaxSingletonIterations ∧
        kMaxSingletonIterations < input.nRows := by
  rcases singletonLoop_converges input kMaxSingletonIterations (singletonStart input) with
    converged | ⟨iteration, fewer⟩
  · exact .inl converged
  · by_cases converged : Converged input (lastState input)
    · exact .inl converged
    · refine .inr ⟨iteration.trans (Nat.zero_add _), ?_⟩
      have all : (aliveRows input.nRows (singletonStart input).rowAlive).length =
          input.nRows := by
        simp [aliveRows, singletonStart]
      rw [converged_iff, not_forall] at converged
      rcases converged with ⟨r, removable⟩
      rw [Classical.not_imp, not_not] at removable
      have left : r ∈ aliveRows input.nRows (lastState input).rowAlive :=
        mem_aliveRows.mpr ⟨removable.1, removable.2.1⟩
      have positive := List.length_pos_of_mem left
      rw [lastState] at positive
      omega

/-- No column of the reduced matrix has exactly one entry, exactly when the passes have
converged: always when they stop before their cap, and on every matrix with no more rows
than the cap allows passes. -/
theorem removeSingletons_converges {input : HostMatrixCSR} (wellFormed : input.WellFormed) :
    ((∀ c < (removeSingletons input).reduced.nCols,
        (removeSingletons input).reduced.columnWeight c ≠ 1) ↔
      Converged input (lastState input)) ∧
    ((removeSingletons input).iterations < kMaxSingletonIterations →
      Converged input (lastState input)) ∧
    (input.nRows ≤ kMaxSingletonIterations → Converged input (lastState input)) := by
  have cases := converged_or_capped input
  refine ⟨removeSingletons_columns_iff wellFormed, fun early => ?_, fun small => ?_⟩
  · rcases cases with converged | ⟨capped, -⟩
    · exact converged
    · omega
  · rcases cases with converged | ⟨-, large⟩
    · exact converged
    · omega

/-- Two rows stay of four: the last falls for its own column, and then the third. -/
theorem removeSingletons_converges_pair :
    (⟨[0, 1, 2, 4, 6], [0, 0, 0, 1, 1, 2], 4, 3⟩ : HostMatrixCSR).WellFormed ∧
      (removeSingletons ⟨[0, 1, 2, 4, 6], [0, 0, 0, 1, 1, 2], 4, 3⟩).reduced.nRows = 2 ∧
      ∀ c < (removeSingletons ⟨[0, 1, 2, 4, 6], [0, 0, 0, 1, 1, 2], 4, 3⟩).reduced.nCols,
        (removeSingletons ⟨[0, 1, 2, 4, 6], [0, 0, 0, 1, 1, 2], 4, 3⟩).reduced.columnWeight c ≠ 1 :=
  have wellFormed : (⟨[0, 1, 2, 4, 6], [0, 0, 0, 1, 1, 2], 4, 3⟩ : HostMatrixCSR).WellFormed := by
    decide
  have converges := removeSingletons_converges wellFormed
  ⟨wellFormed, by decide +kernel, converges.1.mpr (converges.2.2 (by decide))⟩

/-! ## A chain against the order of the rows -/

def chainRow : Nat → List Nat
  | 0 => [0]
  | 1 => [0]
  | r + 2 => [r, r + 1]

def chain (links : Nat) : HostMatrixCSR :=
  HostMatrixCSR.ofRows (links + 1) ((List.range (links + 2)).map chainRow)

def chainWeight (links c : Nat) : Nat :=
  if c = 0 then 3 else if c < links then 2 else if c = links then 1 else 0

theorem nRows_chain (links : Nat) : (chain links).nRows = links + 2 := by
  simp [chain]

theorem row_chain {links r : Nat} (inside : r < links + 2) : (chain links).row r = chainRow r := by
  have bound : r < ((List.range (links + 2)).map chainRow).length := by simpa using inside
  rw [chain, HostMatrixCSR.row_ofRows _ _ bound, List.getD_eq_getElem _ _ bound]
  simp

theorem chain_wellFormed (links : Nat) : (chain links).WellFormed := by
  apply HostMatrixCSR.wellFormed_ofRows
  · intro cols member c present
    rcases List.mem_map.mp member with ⟨r, inside, rfl⟩
    have bound := List.mem_range.mp inside
    match r with
    | 0 => simp [chainRow] at present; omega
    | 1 => simp [chainRow] at present; omega
    | r + 2 => simp [chainRow] at present; omega
  · intro cols member
    rcases List.mem_map.mp member with ⟨r, -, rfl⟩
    match r with
    | 0 => simp [chainRow]
    | 1 => simp [chainRow]
    | r + 2 => simp [chainRow]

private theorem columnWeights_succ {rows : Nat → List Nat} {nRows : Nat}
    (nodup : (rows nRows).Nodup) (c : Nat) :
    columnWeights (nRows + 1) rows c =
      columnWeights nRows rows c + if c ∈ rows nRows then 1 else 0 := by
  rw [columnWeights, List.range_succ, List.foldl_append, List.foldl_cons, List.foldl_nil,
    updateAll_apply _ nodup, columnWeights]
  split <;> rfl

theorem columnWeights_chainRow (links : Nat) :
    columnWeights (links + 3) chainRow = chainWeight (links + 1) := by
  have nodup : ∀ r, (chainRow r).Nodup
    | 0 => by simp [chainRow]
    | 1 => by simp [chainRow]
    | r + 2 => by simp [chainRow]
  induction links with
  | zero =>
    funext c
    rw [columnWeights_succ (nodup _), columnWeights_succ (nodup _), columnWeights_succ (nodup _)]
    simp only [columnWeights, List.range_zero, List.foldl_nil, chainRow, chainWeight,
      List.mem_cons, List.not_mem_nil, or_false]
    split_ifs <;> omega
  | succ links induction =>
    funext c
    rw [columnWeights_succ (nodup _), induction]
    simp only [chainRow, chainWeight, List.mem_cons, List.not_mem_nil, or_false]
    split_ifs <;> omega

structure InChain (links left : Nat) (state : SingletonState) : Prop where
  alive : ∀ r < links + 2, state.rowAlive r = decide (r < left + 2)
  weight : state.colWeight = chainWeight left

theorem inChain_start (links : Nat) :
    InChain (links + 1) (links + 1) (singletonStart (chain (links + 1))) where
  alive r inside := (decide_eq_true inside).symm
  weight := by
    have same : columnWeights (links + 3) (chain (links + 1)).row =
        columnWeights (links + 3) chainRow := by
      apply List.foldl_ext
      intro weights r member
      rw [row_chain (List.mem_range.mp member)]
    rw [singletonStart, nRows_chain, same, columnWeights_chainRow]

variable {links left : Nat}

theorem InChain.removable_iff (inChain : InChain links left state) (positive : 0 < left)
    {r : Nat} (inside : r < links + 2) :
    Removable (chain links) state r ↔ r = left + 1 := by
  have single : ∀ c, chainWeight left c = 1 ↔ c = left := by
    intro c
    grind [chainWeight]
  rw [Removable, inChain.alive r inside, inChain.weight, row_chain inside]
  simp only [single, decide_eq_true_iff, exists_eq_right]
  match r with
  | 0 =>
    simp [chainRow]
    omega
  | 1 => simp [chainRow]
  | r + 2 =>
    simp only [chainRow, List.mem_cons, List.not_mem_nil, or_false]
    omega

theorem InChain.removeRow (inChain : InChain links (left + 1) state) (positive : 0 < left)
    (inside : left < links) :
    InChain links left (removeRow (chain links) state (left + 2)) where
  alive := by
    intro r bound
    rw [CudaMpqs.removeRow]
    by_cases last : r = left + 2
    · simp [last]
    · simp only [Function.update_of_ne last, inChain.alive r bound]
      rw [decide_eq_decide]
      omega
  weight := by
    have nodup : (chainRow (left + 2)).Nodup := by simp [chainRow]
    funext c
    simp only [CudaMpqs.removeRow]
    rw [row_chain (by omega), updateAll_apply _ nodup, inChain.weight]
    simp only [chainRow, chainWeight, List.mem_cons, List.not_mem_nil, or_false]
    split_ifs <;> omega

/-- One pass takes the last row of the chain and no other. -/
theorem InChain.singletonPass (inChain : InChain links (left + 1) state)
    (positive : 0 < left) (inside : left < links) :
    InChain links left (singletonPass (chain links) state) ∧
      (CudaMpqs.singletonPass (chain links) state).removedThisPass ≠ 0 := by
  have start : InChain links (left + 1) { state with removedThisPass := 0 } :=
    ⟨inChain.alive, inChain.weight⟩
  have removed := start.removeRow positive inside
  rcases Nat.exists_eq_add_of_lt inside with ⟨rest, rfl⟩
  have split : List.range (left + rest + 1 + 2) = List.range (left + 2) ++
      (left + 2) :: (List.range rest).map (left + 3 + ·) := by
    have size : left + rest + 1 + 2 = left + 2 + (rest + 1) := by omega
    rw [size, List.range_add, @List.range_succ_eq_map rest, List.map_cons, List.map_map]
    congr 2
    apply List.map_congr_left
    intro r _
    simp only [Function.comp_apply]
    omega
  have before : (List.range (left + 2)).foldl (visitRow (chain (left + rest + 1)))
      { state with removedThisPass := 0 } = { state with removedThisPass := 0 } := by
    apply foldl_visitRow_of_stays
    intro r member
    have bound := List.mem_range.mp member
    rw [start.removable_iff (by omega) (by omega)]
    omega
  have last : visitRow (chain (left + rest + 1)) { state with removedThisPass := 0 }
      (left + 2) = CudaMpqs.removeRow (chain (left + rest + 1))
        { state with removedThisPass := 0 } (left + 2) :=
    visitRow_of_removable ((start.removable_iff (by omega) (by omega)).mpr rfl)
  have after : ((List.range rest).map (left + 3 + ·)).foldl
      (visitRow (chain (left + rest + 1))) (CudaMpqs.removeRow (chain (left + rest + 1))
        { state with removedThisPass := 0 } (left + 2)) =
      CudaMpqs.removeRow (chain (left + rest + 1)) { state with removedThisPass := 0 }
        (left + 2) := by
    apply foldl_visitRow_of_stays
    intro r member
    rcases List.mem_map.mp member with ⟨offset, below, rfl⟩
    have bound := List.mem_range.mp below
    rw [removed.removable_iff positive (by omega)]
    omega
  rw [CudaMpqs.singletonPass, nRows_chain, split, List.foldl_append, before, List.foldl_cons,
    last, after]
  exact ⟨⟨removed.alive, removed.weight⟩, Nat.succ_ne_zero _⟩

theorem InChain.singletonLoop (positive : 0 < left) (remaining : Nat)
    (inside : left + remaining ≤ links) (inChain : InChain links (left + remaining) state) :
    InChain links left (singletonLoop (chain links) remaining state) := by
  induction remaining generalizing state with
  | zero => exact inChain
  | succ remaining induction =>
    have pass := @InChain.singletonPass state links (left + remaining) inChain (by omega)
      (by omega)
    rw [CudaMpqs.singletonLoop, if_neg pass.2]
    exact induction (by omega) pass.1

/-- One link more than the cap has passes: a column of weight 1 is left. -/
theorem removeSingletons_chain : ¬ ∀ input : HostMatrixCSR, input.WellFormed →
    ∀ c < (removeSingletons input).reduced.nCols,
      (removeSingletons input).reduced.columnWeight c ≠ 1 := by
  intro every
  have wellFormed := chain_wellFormed 101
  have converged := (removeSingletons_columns_iff wellFormed).mp (every _ wellFormed)
  have none := (singletonValid_lastState wellFormed).converged_iff_colWeight.mp converged
  have last : InChain 101 1 (lastState (chain 101)) :=
    InChain.singletonLoop Nat.one_pos kMaxSingletonIterations le_rfl (inChain_start 100)
  apply none 1
  rw [last.weight]
  rfl

end CudaMpqs
