import CudaMpqs.Matrix.MergeFilter

/-! # The columns that weight-2 merging leaves

A merge takes two from the weight of every column that both of its rows have. The
worklist of `mergeWeight2` holds all columns of weight 2, so none is left at the end;
what else is left depends on the columns of weight 3 that two merged rows share. -/

namespace CudaMpqs

open HostMatrixCSR MergeState

variable {nRows nCols : Nat}

def weight2Start (input : HostMatrixCSR) (inputRowMap : List Nat) : Weight2State :=
  let state := initial input inputRowMap ⟨leafCount inputRowMap, []⟩
  ⟨state, (List.range input.nCols).filter (state.colWeight · = 2), 0⟩

/-! ## Weights -/

private theorem mem_xorRows {left right : List Nat} (leftAscending : left.Pairwise (· < ·))
    (rightAscending : right.Pairwise (· < ·)) (c : Nat) :
    c ∈ xorRows left right ↔ ¬ (c ∈ left ↔ c ∈ right) := by
  have total := entry_xorRows leftAscending rightAscending c
  by_cases inLeft : c ∈ left <;> by_cases inRight : c ∈ right <;>
    by_cases inSum : c ∈ xorRows left right <;>
    simp [entry, inLeft, inRight, inSum] at total ⊢

variable {current : Weight2State}

theorem colWeight_mergeRows {r1 r2 : Nat} (indexed : current.state.Indexed nRows nCols)
    (different : r1 ≠ r2) (alive : current.state.rowAlive r1 = true) (c : Nat) :
    (mergeRows current r1 r2).state.colWeight c = current.state.colWeight c -
        if c ∈ current.state.rows r1 ∧ c ∈ current.state.rows r2 then 2 else 0 := by
  have sums := indexed.sums_xorRows_comm r2 r1
  have replaced := indexed.replaceRow alive sums.ascending (sums.bound indexed)
    (current.state.nodeOf r1) (current.state.nodeOf r2)
  have kept : (current.state.replaceRow r1 (xorRows (current.state.rows r1) (current.state.rows r2))
      (current.state.nodeOf r1) (current.state.nodeOf r2)).rows r2 =
        current.state.rows r2 := Function.update_of_ne different.symm _ _
  have enough := weight_ge indexed different c
  have inSum := mem_xorRows (indexed.ascending r1) (indexed.ascending r2) c
  rw [mergeRows_state indexed different, colWeight_deleteRow replaced,
    colWeight_replaceRow indexed r1 (sums.ascending.imp fun less => less.ne), kept]
  by_cases first : c ∈ current.state.rows r1
  · by_cases second : c ∈ current.state.rows r2
    · simp [first, second] at inSum
      simp [first, second, inSum]
      omega
    · simp [first, second] at inSum enough
      simp [first, second, inSum]
      omega
  · by_cases second : c ∈ current.state.rows r2
    · simp [first, second] at inSum
      simp [first, second, inSum]
    · simp [first, second] at inSum
      simp [first, second, inSum]

private theorem mem_insertWeight2 {colWeight : Nat → Nat} {cols w2Cols : List Nat} {c : Nat} :
    c ∈ insertWeight2 colWeight cols w2Cols ↔ c ∈ w2Cols ∨ c ∈ cols ∧ colWeight c = 2 := by
  induction cols generalizing w2Cols with
  | nil => simp [insertWeight2]
  | cons head cols induction =>
    have inserted : c ∈ insertColumn head w2Cols ↔ c = head ∨ c ∈ w2Cols := by
      rw [insertColumn]
      split
      · next old => exact ⟨.inr, fun either => either.elim (fun same => same ▸ old) id⟩
      · exact List.mem_orderedInsert _
    rw [insertWeight2, List.foldl_cons, ← insertWeight2, induction, List.mem_cons]
    by_cases weight : colWeight head = 2
    · rw [if_pos weight, inserted]
      by_cases same : c = head
      · simp [same, weight]
      · simp [same]
    · rw [if_neg weight]
      by_cases same : c = head
      · simp [same, weight]
      · simp [same]

theorem mem_w2Cols_mergeRows {r1 r2 c : Nat} :
    c ∈ (mergeRows current r1 r2).w2Cols ↔ c ∈ current.w2Cols ∨
      (c ∈ current.state.rows r1 ∨ c ∈ current.state.rows r2 ∨
        c ∈ xorRows (current.state.rows r1) (current.state.rows r2)) ∧
      (mergeRows current r1 r2).state.colWeight c = 2 := by
  simp only [mergeRows, mem_insertWeight2]
  tauto

/-! ## The worklist -/

theorem MergeState.Indexed.lt_of_weight {state : MergeState}
    (indexed : state.Indexed nRows nCols) {c : Nat} (positive : 0 < state.colWeight c) :
    c < nCols := by
  rw [indexed.weight, List.length_pos_iff_exists_mem] at positive
  rcases positive with ⟨r, member⟩
  exact indexed.colBound r c ((indexed.mem c r).mp member)

structure Listed (nRows nCols : Nat) (current : Weight2State) : Prop where
  indexed : current.state.Indexed nRows nCols
  listed : ∀ c, current.state.colWeight c = 2 → c ∈ current.w2Cols

theorem listed_start {input : HostMatrixCSR} (wellFormed : input.WellFormed)
    (inputRowMap : List Nat) :
    Listed input.nRows input.nCols (weight2Start input inputRowMap) := by
  have indexed := indexed_initial wellFormed inputRowMap ⟨leafCount inputRowMap, []⟩
  refine ⟨indexed, fun c weight => ?_⟩
  have inside := indexed.lt_of_weight (weight ▸ Nat.two_pos)
  exact List.mem_filter.mpr ⟨List.mem_range.mpr inside, decide_eq_true weight⟩

theorem Listed.mergeStep (listed : Listed nRows nCols current) :
    Listed nRows nCols (mergeStep current) := by
  refine ⟨indexed_mergeStep listed.indexed, ?_⟩
  intro column weight
  rcases mergeStep_cases listed.indexed with
    ⟨none, step⟩ | ⟨c, rest, columns, changed, step⟩ |
    ⟨c, rest, r1, r2, columns, cells, different, step⟩
  · rw [step] at weight ⊢
    exact listed.listed column weight
  · rw [step] at weight ⊢
    have old := listed.listed column weight
    rw [columns] at old
    rcases List.mem_cons.mp old with rfl | old
    · exact absurd weight changed
    · exact old
  · have inFirst : c ∈ current.state.rows r1 :=
      (listed.indexed.mem c r1).mp (by simp [cells])
    have inSecond : c ∈ current.state.rows r2 :=
      (listed.indexed.mem c r2).mp (by simp [cells])
    have popped : ({ current with w2Cols := rest } : Weight2State).state.Indexed nRows nCols :=
      listed.indexed
    have change := colWeight_mergeRows popped different
      (listed.indexed.alive_of_mem inFirst) column
    rw [step] at weight ⊢
    rw [mem_w2Cols_mergeRows]
    by_cases shared : column ∈ current.state.rows r1 ∧ column ∈ current.state.rows r2
    · exact .inr ⟨.inl shared.1, weight⟩
    · rw [if_neg shared, weight, Nat.sub_zero] at change
      have old := listed.listed column change.symm
      rw [columns] at old
      rcases List.mem_cons.mp old with rfl | old
      · exact absurd ⟨inFirst, inSecond⟩ shared
      · exact .inl old

/-! ## Columns of weight 1 -/

def nextMerge (current : Weight2State) : Option (Nat × Nat) :=
  match current.w2Cols with
  | [] => none
  | c :: _ =>
    if current.state.colWeight c ≠ 2 then none
    else
      match (current.state.colRows c).filter current.state.rowAlive with
      | r1 :: r2 :: _ => some (r1, r2)
      | _ => none

def SparesTriples (current : Weight2State) : Prop :=
  ∀ r1 r2, nextMerge current = some (r1, r2) →
    ∀ c ∈ current.state.rows r1, c ∈ current.state.rows r2 → current.state.colWeight c ≠ 3

private theorem nextMerge_of_cells (indexed : current.state.Indexed nRows nCols) {c r1 r2 : Nat}
    {rest : List Nat} (columns : current.w2Cols = c :: rest)
    (cells : current.state.colRows c = [r1, r2]) : nextMerge current = some (r1, r2) := by
  have weight : current.state.colWeight c = 2 := by
    rw [indexed.weight, cells]
    rfl
  have alive := indexed.filter_alive c
  rw [cells] at alive
  simp [nextMerge, columns, weight, cells, alive]

/-- A turn leaves a column of weight 1 if there was one before, or if it merges two rows
that share a column of weight 3. -/
theorem exists_single_mergeStep (indexed : current.state.Indexed nRows nCols) :
    (∃ c, (mergeStep current).state.colWeight c = 1) ↔
      (∃ c, current.state.colWeight c = 1) ∨ ¬ SparesTriples current := by
  rcases mergeStep_cases indexed with
    ⟨none, step⟩ | ⟨c, rest, columns, changed, step⟩ |
    ⟨c, rest, r1, r2, columns, cells, different, step⟩
  · have spares : SparesTriples current := by
      intro r1 r2 merged
      simp [nextMerge, none] at merged
    rw [step]
    exact ⟨.inl, fun either => either.elim id (absurd spares)⟩
  · have spares : SparesTriples current := by
      intro r1 r2 merged
      simp [nextMerge, columns, changed] at merged
    rw [step]
    exact ⟨.inl, fun either => either.elim id (absurd spares)⟩
  · have inFirst : c ∈ current.state.rows r1 := (indexed.mem c r1).mp (by simp [cells])
    have popped : ({ current with w2Cols := rest } : Weight2State).state.Indexed nRows nCols :=
      indexed
    have change : ∀ column,
        (mergeRows { current with w2Cols := rest } r1 r2).state.colWeight column =
          current.state.colWeight column - if column ∈ current.state.rows r1 ∧
            column ∈ current.state.rows r2 then 2 else 0 :=
      colWeight_mergeRows popped different (indexed.alive_of_mem inFirst)
    have enough := weight_ge indexed different
    have merges := nextMerge_of_cells indexed columns cells
    have apart : ∀ column, current.state.colWeight column = 1 →
        ¬ (column ∈ current.state.rows r1 ∧ column ∈ current.state.rows r2) := by
      intro column single shared
      have both := enough column
      rw [if_pos shared.1, if_pos shared.2] at both
      omega
    rw [step]
    constructor
    · rintro ⟨column, single⟩
      rw [change] at single
      by_cases shared : column ∈ current.state.rows r1 ∧ column ∈ current.state.rows r2
      · rw [if_pos shared] at single
        right
        intro spares
        exact spares r1 r2 merges column shared.1 shared.2 (by omega)
      · rw [if_neg shared] at single
        exact .inl ⟨column, single⟩
    · rintro (⟨column, single⟩ | dense)
      · refine ⟨column, ?_⟩
        rw [change, if_neg (apart column single)]
        exact single
      · simp only [SparesTriples, not_forall, not_not] at dense
        rcases dense with ⟨first, second, isNext, column, inFirst, inSecond, triple⟩
        rw [merges, Option.some_inj, Prod.mk.injEq] at isNext
        rcases isNext with ⟨rfl, rfl⟩
        refine ⟨column, ?_⟩
        rw [change, if_pos ⟨inFirst, inSecond⟩, triple]

/-! ## Runs -/

/-- A run keeps columns of weight 1 out exactly when its merges spare the triples. -/
theorem no_single_iff (indexed : current.state.Indexed nRows nCols)
    (none : ∀ c, current.state.colWeight c ≠ 1) (turns : Nat) :
    (∀ c, (mergeStep^[turns] current).state.colWeight c ≠ 1) ↔
      ∀ earlier < turns, SparesTriples (mergeStep^[earlier] current) := by
  induction turns with
  | zero => exact ⟨fun _ _ early => absurd early (Nat.not_lt_zero _), fun _ => none⟩
  | succ turns induction =>
    have kept := Function.Iterate.rec (fun current : Weight2State =>
      current.state.Indexed nRows nCols) indexed (fun _ => indexed_mergeStep) turns
    have turn := not_congr (exists_single_mergeStep kept)
    rw [not_exists, not_or, not_exists, not_not] at turn
    rw [Function.iterate_succ_apply', turn, induction]
    constructor
    · rintro ⟨before, last⟩ earlier early
      rcases Nat.lt_succ_iff_lt_or_eq.mp early with early | rfl
      · exact before earlier early
      · exact last
    · intro every
      exact ⟨fun earlier early => every earlier (Nat.lt_succ_of_lt early),
        every turns (Nat.lt_succ_self _)⟩

theorem sparesTriples_of_done {turns : Nat} (done : (mergeStep^[turns] current).w2Cols = []) :
    (∀ earlier < turns, SparesTriples (mergeStep^[earlier] current)) ↔
      ∀ earlier, SparesTriples (mergeStep^[earlier] current) := by
  have idle : mergeStep (mergeStep^[turns] current) = mergeStep^[turns] current := by
    rw [mergeStep, done]
  constructor
  · intro every earlier
    by_cases early : earlier < turns
    · exact every earlier early
    · rcases Nat.exists_eq_add_of_le (Nat.le_of_not_lt early) with ⟨more, rfl⟩
      rw [Nat.add_comm, Function.iterate_add_apply, Function.iterate_fixed idle]
      intro r1 r2 merged
      simp [nextMerge, done] at merged
  · exact fun every earlier _ => every earlier

theorem MergeState.Indexed.weight_countP {state : MergeState}
    (indexed : state.Indexed nRows nCols) (c : Nat) :
    state.colWeight c = (List.range nRows).countP fun r => c ∈ state.rows r ∧ state.rowAlive r := by
  rw [indexed.weight, List.countP_eq_length_filter]
  apply List.Perm.length_eq
  rw [List.perm_ext_iff_of_nodup (indexed.nodup c) (List.nodup_range.filter _)]
  intro r
  rw [indexed.mem, List.mem_filter, List.mem_range, decide_eq_true_iff]
  constructor
  · intro present
    have alive := indexed.alive_of_mem present
    exact ⟨indexed.rowBound r alive, present, alive⟩
  · exact fun both => both.2.1

theorem Listed.finish_columns (listed : Listed nRows nCols current) (done : current.w2Cols = [])
    (mergesPerformed rowsRemoved : Nat) :
    (∀ c < (current.state.finish nRows nCols mergesPerformed rowsRemoved).reduced.nCols,
        (current.state.finish nRows nCols mergesPerformed rowsRemoved).reduced.columnWeight c = 0 ∨
          3 ≤ (current.state.finish nRows nCols mergesPerformed
            rowsRemoved).reduced.columnWeight c) ↔
      ∀ c, current.state.colWeight c ≠ 1 := by
  have indexed := listed.indexed
  refine (indexed.covers.forall_columnWeight indexed.weight_countP
    fun weight => weight = 0 ∨ 3 ≤ weight).trans ?_
  constructor
  · intro good c single
    have positive : 0 < current.state.colWeight c := by omega
    have either := good c (indexed.lt_of_weight positive) positive
    omega
  · intro noneSingle c inside positive
    have notOne := noneSingle c
    have notTwo : current.state.colWeight c ≠ 2 := by
      intro two
      have inList := listed.listed c two
      rw [done] at inList
      cases inList
    omega

private theorem colWeight_start {input : HostMatrixCSR} (wellFormed : input.WellFormed)
    (inputRowMap : List Nat) (c : Nat) :
    (weight2Start input inputRowMap).state.colWeight c = input.columnWeight c := by
  rw [columnWeight, rowList, List.countP_map]
  exact columnWeights_eq input.nRows (fun r => wellFormed.nodup) c

/-- After the weight-2 merges of a matrix without columns of weight 1, every column has
weight 0 or at least 3 exactly when no merge of the run combined two rows that shared a
column of weight 3. -/
theorem mergeWeight2_columns {input : HostMatrixCSR} (wellFormed : input.WellFormed)
    (noSingletons : ∀ c < input.nCols, input.columnWeight c ≠ 1)
    (inputRowMap : List Nat) :
    ∃ enough result, (∀ fuel, enough ≤ fuel → mergeWeight2 fuel input inputRowMap = some result) ∧
      ((∀ c < result.reduced.nCols, result.reduced.columnWeight c = 0 ∨
          3 ≤ result.reduced.columnWeight c) ↔
        ∀ turns, SparesTriples (mergeStep^[turns] (weight2Start input inputRowMap))) := by
  have start := listed_start wellFormed inputRowMap
  have noneSingle : ∀ c, (weight2Start input inputRowMap).state.colWeight c ≠ 1 := by
    intro c single
    have inside := start.indexed.lt_of_weight (single ▸ Nat.one_pos)
    rw [colWeight_start wellFormed] at single
    exact noSingletons c inside single
  rcases exists_w2Cols_nil start.indexed with ⟨turns, done⟩
  have last := Function.Iterate.rec (Listed input.nRows input.nCols) start
    (fun _ => Listed.mergeStep) turns
  refine ⟨turns, (mergeStep^[turns] (weight2Start input inputRowMap)).state.finish
    input.nRows input.nCols (mergeStep^[turns] (weight2Start input inputRowMap)).merges
    (mergeStep^[turns] (weight2Start input inputRowMap)).merges, ?_, ?_⟩
  · intro fuel sufficient
    have loop := mergeLoop_eq done sufficient
    rw [weight2Start] at loop
    simp only [mergeWeight2, loop]
    rfl
  · rw [last.finish_columns done, no_single_iff start.indexed noneSingle,
      sparesTriples_of_done done]

theorem mergeWeight2_columns_pair : (⟨[0, 1, 2], [0, 0], 2, 1⟩ : HostMatrixCSR).WellFormed ∧
    (∀ c < 1, (⟨[0, 1, 2], [0, 0], 2, 1⟩ : HostMatrixCSR).columnWeight c ≠ 1) ∧
    ∃ enough result, (∀ fuel, enough ≤ fuel →
      mergeWeight2 fuel ⟨[0, 1, 2], [0, 0], 2, 1⟩ [0, 1] = some result) ∧
      ((∀ c < result.reduced.nCols, result.reduced.columnWeight c = 0 ∨
          3 ≤ result.reduced.columnWeight c) ↔
        ∀ turns, SparesTriples
          (mergeStep^[turns] (weight2Start ⟨[0, 1, 2], [0, 0], 2, 1⟩ [0, 1]))) :=
  ⟨by decide, by decide, mergeWeight2_columns (by decide) (by decide) [0, 1]⟩

/-- Two equal rows of columns 0 and 1, and a third with column 1: merging the two leaves
column 1 to the third alone. -/
theorem mergeWeight2_columns_triple : ¬ ∀ input : HostMatrixCSR, input.WellFormed →
      (∀ c < input.nCols, input.columnWeight c ≠ 1) →
      ∀ inputRowMap fuel result, mergeWeight2 fuel input inputRowMap = some result →
        ∀ c < result.reduced.nCols, result.reduced.columnWeight c = 0 ∨
          3 ≤ result.reduced.columnWeight c := by
  intro every
  have single : (mergeWeight2 1 ⟨[0, 2, 4, 5], [0, 1, 0, 1, 1], 3, 2⟩ [0, 1, 2]).map
      (fun result => (result.reduced.nCols, result.reduced.columnWeight 0)) =
        some (1, 1) := by
    decide +kernel
  rcases Option.map_eq_some_iff.mp single with ⟨result, merged, counts⟩
  rw [Prod.mk.injEq] at counts
  have either := every _ (by decide) (by decide) _ _ _ merged 0 (by omega)
  omega

end CudaMpqs
