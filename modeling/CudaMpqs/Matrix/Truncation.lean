import CudaMpqs.Matrix.SingletonRemoval

/-! # Matrix truncation

`truncateMatrix` of `matrix_truncation.cpp`: rows are admitted until every column is
covered, and the lightest of the others fill the budget. -/

namespace CudaMpqs

open Elimination

structure TruncationResult where
  truncated : HostMatrixCSR
  rowMap : List Nat
  rowsRemoved : Nat
  colsRemoved : Nat
deriving DecidableEq

def kCoverageThreshold : Nat := 1

def kRelaxationMaxIters : Nat := 64

structure Admission where
  admitted : Nat → Bool
  coverage : Nat → Nat
  count : Nat
  coveredCols : Nat

def noRows : Admission := ⟨fun _ => false, fun _ => 0, 0, 0⟩

def touchColumn (nCols : Nat) (state : Admission) (c : Nat) : Admission :=
  if c < nCols then
    { state with
      coverage := Function.update state.coverage c (state.coverage c + 1)
      coveredCols :=
        if state.coverage c = 0 then state.coveredCols + 1 else state.coveredCols }
  else state

def admitRow (input : HostMatrixCSR) (state : Admission) (r : Nat) : Admission :=
  (input.row r).foldl (touchColumn input.nCols)
    { state with
      admitted := Function.update state.admitted r true
      count := state.count + 1 }

def useful (input : HostMatrixCSR) (state : Admission) (r : Nat) : Bool :=
  (input.row r).any fun c => c < input.nCols && state.coverage c < kCoverageThreshold

/-! ## The passes -/

def coveragePass (input : HostMatrixCSR) (target : Nat) : List Nat → Admission → Admission
  | [], state => state
  | r :: order, state =>
    if target ≤ state.count then state
    else coveragePass input target order
      (if useful input state r then admitRow input state r else state)

def fillPass (input : HostMatrixCSR) (target : Nat) : List Nat → Admission → Admission
  | [], state => state
  | r :: order, state =>
    if target ≤ state.count then state
    else fillPass input target order
      (if state.admitted r then state else admitRow input state r)

/-- The two loops of a relaxation turn; they pass over admitted rows before the
budget is checked. -/
def relaxPass (input : HostMatrixCSR) (target : Nat) (wanted : Admission → Nat → Bool) :
    List Nat → Admission → Admission
  | [], state => state
  | r :: order, state =>
    if state.admitted r then relaxPass input target wanted order state
    else if target ≤ state.count then state
    else relaxPass input target wanted order
      (if wanted state r then admitRow input state r else state)

def relaxLoop (input : HostMatrixCSR) (grow : Nat → Nat) (colsWithCoverage : Nat)
    (order : List Nat) : Nat → Nat → Admission → Admission
  | 0, _, state => state
  | iterations + 1, relaxedTarget, state =>
    if colsWithCoverage ≤ state.coveredCols then state
    else if input.nRows ≤ relaxedTarget then state
    else
      let grown := min (grow relaxedTarget) input.nRows
      let newTarget :=
        if grown = relaxedTarget then min (relaxedTarget + 1) input.nRows else grown
      let covering := relaxPass input newTarget (useful input) order state
      relaxLoop input grow colsWithCoverage order iterations newTarget
        (relaxPass input newTarget (fun _ _ => true) order covering)

/-! ## The result -/

def rowWeight (input : HostMatrixCSR) (r : Nat) : Nat :=
  input.rowOffsets.getD (r + 1) 0 - input.rowOffsets.getD r 0

def lighterFirst (input : HostMatrixCSR) (a b : Nat) : Prop :=
  if rowWeight input a ≠ rowWeight input b then rowWeight input a < rowWeight input b
  else a ≤ b

instance (input : HostMatrixCSR) : DecidableRel (lighterFirst input) := fun a b => by
  unfold lighterFirst
  infer_instance

def rowOrder (input : HostMatrixCSR) : List Nat :=
  (List.range input.nRows).insertionSort (lighterFirst input)

def inputColCount (input : HostMatrixCSR) : Nat → Nat :=
  updateAll (· + 1) (input.colIndices.filter (· < input.nCols)) fun _ => 0

def colsWithCoverage (input : HostMatrixCSR) : Nat :=
  (List.range input.nCols).countP (0 < inputColCount input ·)

def truncationTarget (input : HostMatrixCSR) (nExtraCols kExcess : Nat) : Nat :=
  min (input.nCols + nExtraCols + kExcess) input.nRows

def admitRows (input : HostMatrixCSR) (grow : Nat → Nat) (target : Nat) : Admission :=
  let covering := coveragePass input target (rowOrder input) noRows
  let filled := fillPass input target (rowOrder input) covering
  if filled.coveredCols < colsWithCoverage input then
    relaxLoop input grow (colsWithCoverage input) (rowOrder input) kRelaxationMaxIters
      target filled
  else filled

def selectedColWeight (input : HostMatrixCSR) (admitted : Nat → Bool) : Nat → Nat :=
  updateAll (· + 1) ((aliveRows input.nRows admitted).flatMap input.row) fun _ => 0

def truncateMatrix (enabled : Bool) (grow : Nat → Nat) (input : HostMatrixCSR)
    (inputRowMap : List Nat) (nExtraCols kExcess : Nat) : TruncationResult :=
  let target := truncationTarget input nExtraCols kExcess
  if !enabled then ⟨input, inputRowMap, 0, 0⟩
  else if input.nRows ≤ target then ⟨input, inputRowMap, 0, 0⟩
  else
    let final := admitRows input grow target
    if final.coveredCols < colsWithCoverage input then ⟨input, inputRowMap, 0, 0⟩
    else
      let truncated := compactRows input.nRows input.nCols
        (selectedColWeight input final.admitted) final.admitted input.row
      { truncated
        rowMap := (aliveRows input.nRows final.admitted).map (inputRowMap.getD · 0)
        rowsRemoved := input.nRows - (aliveRows input.nRows final.admitted).length
        colsRemoved := input.nCols - truncated.nCols }

/-! ## Counting -/

theorem updateAll_count (cols : List Nat) (counts : Nat → Nat) (c : Nat) :
    updateAll (· + 1) cols counts c = counts c + cols.count c := by
  induction cols generalizing counts with
  | nil => rfl
  | cons head cols induction =>
    have rest := induction (Function.update counts head (counts head + 1))
    rw [updateAll] at rest ⊢
    rw [List.foldl_cons, rest, List.count_cons]
    by_cases same : head = c
    · rw [← same, Function.update_self]
      simp only [beq_self_eq_true, if_true]
      omega
    · rw [Function.update_of_ne (Ne.symm same)]
      simp [same]

theorem keptBelow_bump (weight : Nat → Nat) (c bound : Nat) :
    keptBelow (Function.update weight c (weight c + 1)) bound =
      keptBelow weight bound + if c < bound ∧ weight c = 0 then 1 else 0 := by
  induction bound with
  | zero => simp [keptBelow]
  | succ bound induction =>
    rw [keptBelow_succ, keptBelow_succ, induction]
    by_cases here : bound = c
    · rw [here, Function.update_self]
      by_cases empty : weight c = 0
      · simp [empty]
      · simp [empty]
    · rw [Function.update_of_ne here]
      by_cases below : c < bound
      · have within : c < bound + 1 := by omega
        simp only [below, within, true_and]
        omega
      · have beyond : ¬ c < bound + 1 := by omega
        simp [below, beyond]

theorem keptBelow_le (weight : Nat → Nat) (bound : Nat) : keptBelow weight bound ≤ bound := by
  have length := List.countP_le_length (p := fun c => decide (0 < weight c))
    (l := List.range bound)
  rwa [List.length_range] at length

theorem keptBelow_congr {left right : Nat → Nat} {bound : Nat}
    (same : ∀ c < bound, 0 < left c ↔ 0 < right c) :
    keptBelow left bound = keptBelow right bound := by
  apply List.countP_congr
  intro c member
  simpa using same c (List.mem_range.mp member)

theorem length_aliveRows_admit {nRows r : Nat} {admitted : Nat → Bool} (inside : r < nRows)
    (fresh : admitted r = false) :
    (aliveRows nRows (Function.update admitted r true)).length =
      (aliveRows nRows admitted).length + 1 := by
  have back := length_aliveRows_update inside (Function.update_self r true admitted)
  rw [Function.update_idem, ← fresh, Function.update_eq_self] at back
  exact back.symm

/-! ## Admitting rows -/

structure Tracks (input : HostMatrixCSR) (state : Admission) : Prop where
  count : state.count = (aliveRows input.nRows state.admitted).length
  coverage : ∀ c, 0 < state.coverage c ↔
    ∃ r < input.nRows, state.admitted r = true ∧ c ∈ input.row r
  covered : state.coveredCols = keptBelow state.coverage input.nCols

structure Extends (before after : Admission) : Prop where
  admitted : ∀ r, before.admitted r = true → after.admitted r = true
  coverage : ∀ c, 0 < before.coverage c → 0 < after.coverage c

theorem Extends.refl (state : Admission) : Extends state state :=
  ⟨fun _ inside => inside, fun _ positive => positive⟩

theorem Extends.trans {first second third : Admission} (left : Extends first second)
    (right : Extends second third) : Extends first third :=
  ⟨fun r inside => right.admitted r (left.admitted r inside),
    fun c positive => right.coverage c (left.coverage c positive)⟩

variable {input : HostMatrixCSR}

theorem tracks_noRows : Tracks input noRows where
  count := by
    have none : aliveRows input.nRows noRows.admitted = [] :=
      List.filter_eq_nil_iff.mpr fun r _ => Bool.false_ne_true
    rw [none]
    rfl
  coverage := by simp [noRows]
  covered := by simp [noRows, keptBelow]

theorem foldl_touchColumn {cols : List Nat} {nCols : Nat}
    (bound : ∀ c ∈ cols, c < nCols) (state : Admission) :
    let after := cols.foldl (touchColumn nCols) state
    after.admitted = state.admitted ∧ after.count = state.count ∧
      (∀ c, after.coverage c = state.coverage c + cols.count c) ∧
        (state.coveredCols = keptBelow state.coverage nCols →
          after.coveredCols = keptBelow after.coverage nCols) := by
  induction cols generalizing state with
  | nil => exact ⟨rfl, rfl, fun _ => rfl, id⟩
  | cons head cols induction =>
    have inside := bound head List.mem_cons_self
    obtain ⟨admitted, count, coverage, covered⟩ :=
      induction (fun c member => bound c (List.mem_cons_of_mem head member))
        (touchColumn nCols state head)
    have touched : touchColumn nCols state head =
        { state with
          coverage := Function.update state.coverage head (state.coverage head + 1)
          coveredCols := if state.coverage head = 0 then state.coveredCols + 1
            else state.coveredCols } := if_pos inside
    rw [List.foldl_cons]
    refine ⟨by rw [admitted, touched], by rw [count, touched], ?_, ?_⟩
    · intro c
      rw [coverage, touched, List.count_cons]
      by_cases same : head = c
      · simp only [same, Function.update_self, beq_self_eq_true, if_true]
        omega
      · simp only [Function.update_of_ne (Ne.symm same)]
        simp [same]
    · intro before
      apply covered
      rw [touched]
      simp only
      rw [keptBelow_bump, before]
      by_cases empty : state.coverage head = 0
      · simp [empty, inside]
      · simp [empty]

section Passes

variable (wellFormed : input.WellFormed)

include wellFormed

theorem Tracks.admitRow {state : Admission} (tracks : Tracks input state) {r : Nat}
    (inside : r < input.nRows) (fresh : state.admitted r = false) :
    Tracks input (admitRow input state r) ∧ Extends state (admitRow input state r) ∧
      (CudaMpqs.admitRow input state r).count = state.count + 1 ∧
        (CudaMpqs.admitRow input state r).admitted r = true ∧
          ∀ c ∈ input.row r, 0 < (CudaMpqs.admitRow input state r).coverage c := by
  obtain ⟨admitted, count, coverage, covered⟩ :=
    foldl_touchColumn (wellFormed.bound r inside)
      { state with
        admitted := Function.update state.admitted r true
        count := state.count + 1 }
  have touches : ∀ c, (CudaMpqs.admitRow input state r).coverage c =
      state.coverage c + (input.row r).count c := coverage
  have switched : (CudaMpqs.admitRow input state r).admitted =
      Function.update state.admitted r true := admitted
  refine ⟨⟨?_, ?_, covered tracks.covered⟩, ⟨?_, ?_⟩, count, ?_, ?_⟩
  · rw [switched, length_aliveRows_admit inside fresh, ← tracks.count]
    exact count
  · intro c
    rw [touches, switched, Nat.add_pos_iff_pos_or_pos, tracks.coverage, List.count_pos_iff]
    constructor
    · rintro (⟨earlier, within, taken, present⟩ | present)
      · refine ⟨earlier, within, ?_, present⟩
        by_cases same : earlier = r
        · rw [same, Function.update_self]
        · rwa [Function.update_of_ne same]
      · exact ⟨r, inside, Function.update_self _ _ _, present⟩
    · rintro ⟨row, within, taken, present⟩
      by_cases same : row = r
      · rw [same] at present
        exact .inr present
      · simp only [Function.update_of_ne same] at taken
        exact .inl ⟨row, within, taken, present⟩
  · intro earlier taken
    rw [switched]
    by_cases same : earlier = r
    · rw [same, Function.update_self]
    · rwa [Function.update_of_ne same]
  · intro c positive
    rw [touches]
    omega
  · rw [switched]
    exact Function.update_self _ _ _
  · intro c present
    rw [touches]
    have counted := List.count_pos_iff.mpr present
    omega

/-- Every admitted row covers a column, so the pass goes over all of the rows. -/
theorem coveragePass_spec {target : Nat} (fewer : input.nCols < target)
    {order : List Nat} (bound : ∀ r ∈ order, r < input.nRows) {state : Admission}
    (tracks : Tracks input state) (economical : state.count ≤ state.coveredCols) :
    let after := coveragePass input target order state
    Tracks input after ∧ Extends state after ∧ after.count ≤ after.coveredCols ∧
      ∀ r ∈ order, ∀ c ∈ input.row r, 0 < after.coverage c := by
  induction order generalizing state with
  | nil => exact ⟨tracks, .refl state, economical, fun r member => by cases member⟩
  | cons r order induction =>
    have inside := bound r List.mem_cons_self
    have later := fun row member => bound row (List.mem_cons_of_mem r member)
    have budget : ¬ target ≤ state.count := by
      have few := keptBelow_le state.coverage input.nCols
      rw [← tracks.covered] at few
      omega
    rw [coveragePass, if_neg budget]
    by_cases wanted : useful input state r = true
    · rw [if_pos wanted]
      obtain ⟨c, present, uncovered⟩ := List.any_eq_true.mp wanted
      have empty : state.coverage c = 0 := by
        have below := of_decide_eq_true (Bool.and_eq_true_iff.mp uncovered).2
        rw [kCoverageThreshold] at below
        omega
      have fresh : state.admitted r = false := by
        by_contra taken
        have positive := (tracks.coverage c).mpr
          ⟨r, inside, Bool.eq_true_of_not_eq_false taken, present⟩
        omega
      obtain ⟨admits, grows, count, _, covers⟩ := tracks.admitRow wellFormed inside fresh
      have more : state.coveredCols + 1 ≤ (admitRow input state r).coveredCols := by
        rw [tracks.covered, admits.covered]
        have columnInside := wellFormed.bound r inside c present
        have bumped := keptBelow_bump state.coverage c input.nCols
        rw [if_pos ⟨columnInside, empty⟩] at bumped
        rw [← bumped]
        apply List.countP_mono_left
        intro d _ positive
        apply decide_eq_true
        by_cases same : d = c
        · rw [same]
          exact covers c present
        · rw [Function.update_of_ne same] at positive
          exact grows.coverage d (of_decide_eq_true positive)
      obtain ⟨final, extend, economy, rest⟩ :=
        induction later admits (by omega)
      refine ⟨final, grows.trans extend, economy, ?_⟩
      intro row member d inRow
      rcases List.mem_cons.mp member with same | other
      · rw [same] at inRow
        exact extend.coverage d (covers d inRow)
      · exact rest row other d inRow
    · rw [if_neg wanted]
      obtain ⟨final, extend, economy, rest⟩ := induction later tracks economical
      refine ⟨final, extend, economy, ?_⟩
      intro row member d inRow
      rcases List.mem_cons.mp member with same | other
      · rw [same] at inRow
        apply extend.coverage
        by_contra uncovered
        apply wanted
        apply List.any_eq_true.mpr
        refine ⟨d, inRow, ?_⟩
        have columnInside := wellFormed.bound r inside d inRow
        have empty : state.coverage d < kCoverageThreshold := by
          rw [kCoverageThreshold]
          omega
        rw [decide_eq_true columnInside, decide_eq_true empty]
        rfl
      · exact rest row other d inRow

/-- The fill stops at the target or has admitted every row. -/
theorem fillPass_spec {target : Nat} {order : List Nat}
    (bound : ∀ r ∈ order, r < input.nRows) {state : Admission}
    (tracks : Tracks input state) (within : state.count ≤ target) :
    let after := fillPass input target order state
    Tracks input after ∧ Extends state after ∧ after.count ≤ target ∧
      (after.count = target ∨ ∀ r ∈ order, after.admitted r = true) := by
  induction order generalizing state with
  | nil => exact ⟨tracks, .refl state, within, .inr fun r member => by cases member⟩
  | cons r order induction =>
    have inside := bound r List.mem_cons_self
    have later := fun row member => bound row (List.mem_cons_of_mem r member)
    rw [fillPass]
    by_cases full : target ≤ state.count
    · rw [if_pos full]
      exact ⟨tracks, .refl state, within, .inl (by omega)⟩
    · rw [if_neg full]
      have finish : ∀ next : Admission, Tracks input next → Extends state next →
          next.count ≤ target → next.admitted r = true →
            let after := fillPass input target order next
            Tracks input after ∧ Extends state after ∧ after.count ≤ target ∧
              (after.count = target ∨ ∀ row ∈ r :: order, after.admitted row = true) := by
        intro next nextTracks grows nextWithin taken
        obtain ⟨final, extend, under, ending⟩ := induction later nextTracks nextWithin
        refine ⟨final, grows.trans extend, under, ?_⟩
        rcases ending with reached | all
        · exact .inl reached
        · refine .inr fun row member => ?_
          rcases List.mem_cons.mp member with same | other
          · rw [same]
            exact extend.admitted r taken
          · exact all row other
      by_cases taken : state.admitted r = true
      · rw [if_pos taken]
        exact finish state tracks (.refl state) within taken
      · rw [if_neg taken]
        obtain ⟨admits, grows, count, nowTaken, _⟩ :=
          tracks.admitRow wellFormed inside (eq_false_of_ne_true taken)
        exact finish _ admits grows (by omega) nowTaken

end Passes

/-! ## The admitted rows -/

theorem HostMatrixCSR.WellFormed.mem_colIndices (wellFormed : input.WellFormed) {c : Nat} :
    c ∈ input.colIndices ↔ ∃ r < input.nRows, c ∈ input.row r := by
  constructor
  · intro member
    obtain ⟨k, inside, found⟩ := List.getElem_of_mem member
    have locate : ∀ count ≤ input.nRows, k < input.rowOffsets.getD count 0 →
        ∃ r < count, input.rowOffsets.getD r 0 ≤ k ∧
          k < input.rowOffsets.getD (r + 1) 0 := by
      intro count
      induction count with
      | zero =>
        intro _ below
        rw [wellFormed.first] at below
        exact absurd below (Nat.not_lt_zero k)
      | succ count induction =>
        intro fits below
        by_cases start : input.rowOffsets.getD count 0 ≤ k
        · exact ⟨count, Nat.lt_succ_self count, start, below⟩
        · obtain ⟨r, less, holds⟩ := induction (by omega) (by omega)
          exact ⟨r, by omega, holds⟩
    obtain ⟨r, less, start, stop⟩ :=
      locate input.nRows le_rfl (by rw [wellFormed.last]; exact inside)
    refine ⟨r, less, ?_⟩
    rw [HostMatrixCSR.row, Slice.slice, ← found]
    apply List.mem_iff_getElem.mpr
    refine ⟨k - input.rowOffsets.getD r 0, ?_, ?_⟩
    · rw [List.length_take, List.length_drop]
      omega
    · rw [List.getElem_take, List.getElem_drop]
      congr 1
      omega
  · rintro ⟨r, _, present⟩
    exact List.mem_of_mem_drop (List.mem_of_mem_take present)

theorem inputColCount_pos (wellFormed : input.WellFormed) {c : Nat} :
    0 < inputColCount input c ↔ ∃ r < input.nRows, c ∈ input.row r := by
  rw [inputColCount, updateAll_count, Nat.zero_add, List.count_pos_iff, List.mem_filter,
    wellFormed.mem_colIndices]
  constructor
  · exact fun present => present.1
  · rintro ⟨r, inside, present⟩
    exact ⟨⟨r, inside, present⟩, decide_eq_true (wellFormed.bound r inside c present)⟩

private theorem mem_rowOrder {r : Nat} : r ∈ rowOrder input ↔ r < input.nRows := by
  rw [rowOrder, List.mem_insertionSort, List.mem_range]

/-- With fewer columns than the target no relaxation is needed. -/
theorem admitRows_spec (wellFormed : input.WellFormed) (grow : Nat → Nat) {target : Nat}
    (fewer : input.nCols < target) (enough : target < input.nRows) :
    let final := admitRows input grow target
    Tracks input final ∧ final.count = target ∧ final.coveredCols = colsWithCoverage input ∧
        ∀ r < input.nRows, ∀ c ∈ input.row r, 0 < final.coverage c := by
  have bound : ∀ r ∈ rowOrder input, r < input.nRows := fun r => mem_rowOrder.mp
  obtain ⟨coverTracks, _, economy, covers⟩ :=
    coveragePass_spec wellFormed fewer bound tracks_noRows le_rfl
  have within : (coveragePass input target (rowOrder input) noRows).count ≤ target := by
    have few := keptBelow_le
      (coveragePass input target (rowOrder input) noRows).coverage input.nCols
    rw [← coverTracks.covered] at few
    omega
  obtain ⟨fillTracks, grows, under, ending⟩ :=
    fillPass_spec wellFormed bound coverTracks within
  have allCovered : ∀ r < input.nRows, ∀ c ∈ input.row r,
      0 < (fillPass input target (rowOrder input)
        (coveragePass input target (rowOrder input) noRows)).coverage c := by
    intro r inside c present
    exact grows.coverage c (covers r (mem_rowOrder.mpr inside) c present)
  have count : (fillPass input target (rowOrder input)
      (coveragePass input target (rowOrder input) noRows)).count = target := by
    rcases ending with reached | all
    · exact reached
    · have every : aliveRows input.nRows (fillPass input target (rowOrder input)
          (coveragePass input target (rowOrder input) noRows)).admitted =
            List.range input.nRows := by
        apply List.filter_eq_self.mpr
        intro r member
        exact all r (mem_rowOrder.mpr (List.mem_range.mp member))
      have total := fillTracks.count
      rw [every, List.length_range] at total
      omega
  have covered : (fillPass input target (rowOrder input)
      (coveragePass input target (rowOrder input) noRows)).coveredCols =
        colsWithCoverage input := by
    rw [fillTracks.covered]
    apply keptBelow_congr
    intro c _
    rw [inputColCount_pos wellFormed]
    constructor
    · intro positive
      obtain ⟨r, inside, _, present⟩ := (fillTracks.coverage c).mp positive
      exact ⟨r, inside, present⟩
    · rintro ⟨r, inside, present⟩
      exact allCovered r inside c present
  intro final
  have settled : final = fillPass input target (rowOrder input)
      (coveragePass input target (rowOrder input) noRows) :=
    if_neg (by rw [covered]; exact lt_irrefl _)
  rw [settled]
  exact ⟨fillTracks, count, covered, allCovered⟩

/-! ## The truncated matrix -/

structure Truncates (input : HostMatrixCSR) (inputRowMap : List Nat) (target : Nat)
    (result : TruncationResult) (admitted : Nat → Bool) (renumber : Nat → Nat) :
    Prop where
  wellFormed : result.truncated.WellFormed
  nRows : result.truncated.nRows = target
  selected : (aliveRows input.nRows admitted).length = target
  rows : ∀ i < target, result.truncated.row i =
    (input.row (placeOf input.nRows admitted i)).map renumber
  rowMap : ∀ i < target, result.rowMap.getD i 0 =
    inputRowMap.getD (placeOf input.nRows admitted i) 0
  columns : Set.BijOn renumber {c | c < input.nCols} {c | c < result.truncated.nCols}
  kept : ∀ c < input.nCols, (∃ r < input.nRows, c ∈ input.row r) →
    ∃ i < target, renumber c ∈ result.truncated.row i
  kernel : Set.BijOn (scatter (Finset.range target) (placeOf input.nRows admitted))
    result.truncated.leftKernel
      {x ∈ input.leftKernel | ∀ r, admitted r = false → x r = 0}

theorem kernel_admitted (admitted : Nat → Bool) :
    Kernel ((Finset.range input.nRows).filter (admitted ·))
        (fun r => HostMatrixCSR.entry (input.row r)) =
      {x ∈ input.leftKernel | ∀ r, admitted r = false → x r = 0} := by
  rw [kernel_subset (Finset.filter_subset _ _)]
  ext x
  constructor
  · rintro ⟨kernel, support⟩
    refine ⟨kernel, fun r off => support r ?_⟩
    simp [off]
  · rintro ⟨kernel, support⟩
    refine ⟨kernel, fun r outside => ?_⟩
    by_cases inside : r < input.nRows
    · exact support r (by simpa [inside] using outside)
    · exact kernel.1 r (by simpa using inside)

theorem aliveRows_all (nRows : Nat) : aliveRows nRows (fun _ => true) = List.range nRows :=
  List.filter_eq_self.mpr fun _ _ => rfl

private theorem placeOf_all {nRows i : Nat} (inside : i < nRows) :
    placeOf nRows (fun _ => true) i = i := by
  rw [placeOf, aliveRows_all, List.getD_eq_getElem _ _ (by simpa using inside),
    List.getElem_range]

theorem truncates_unchanged (wellFormed : input.WellFormed) (inputRowMap : List Nat) :
    Truncates input inputRowMap input.nRows ⟨input, inputRowMap, 0, 0⟩ (fun _ => true) id where
  wellFormed := wellFormed
  nRows := rfl
  selected := by rw [aliveRows_all, List.length_range]
  rows := by
    intro i inside
    rw [placeOf_all inside, List.map_id]
  rowMap := by
    intro i inside
    rw [placeOf_all inside]
  columns := Set.bijOn_id _
  kept := fun c _ present => present
  kernel := by
    have compacts : Compacts (Finset.range input.nRows) (placeOf input.nRows fun _ => true)
        (fun r => HostMatrixCSR.entry (input.row r))
        fun r => HostMatrixCSR.entry (input.row r) := by
      have same : ∀ r ∈ Finset.range input.nRows,
          placeOf input.nRows (fun _ => true) r = r :=
        fun r member => placeOf_all (Finset.mem_range.mp member)
      refine ⟨?_, fun c => .inr ⟨c, fun r member => by rw [same r member]⟩,
        fun c => .inr ⟨c, fun r member => by rw [same r member]⟩⟩
      intro left leftMember right rightMember equal
      rwa [same left leftMember, same right rightMember] at equal
    have image := @image_placeOf input.nRows fun _ => true
    rw [aliveRows_all, List.length_range] at image
    rw [← kernel_admitted, ← image]
    exact compacts.scatter_bijOn

/-- A truncation to more rows than the matrix has columns keeps every column and the
kernel of the rows it selects. -/
theorem truncateMatrix_spec (grow : Nat → Nat) (input : HostMatrixCSR)
    (wellFormed : input.WellFormed)
    (covered : ∀ c < input.nCols, ∃ r < input.nRows, c ∈ input.row r)
    (inputRowMap : List Nat) (nExtraCols kExcess : Nat)
    (fewer : input.nCols < truncationTarget input nExtraCols kExcess) :
    ∃ admitted renumber, Truncates input inputRowMap (truncationTarget input nExtraCols kExcess)
        (truncateMatrix true grow input inputRowMap nExtraCols kExcess) admitted
        renumber := by
  by_cases small : input.nRows ≤ truncationTarget input nExtraCols kExcess
  · have all : truncationTarget input nExtraCols kExcess = input.nRows :=
      le_antisymm (min_le_right _ _) small
    have same : truncateMatrix true grow input inputRowMap nExtraCols kExcess =
        ⟨input, inputRowMap, 0, 0⟩ := if_pos small
    rw [same, all]
    exact ⟨_, _, truncates_unchanged wellFormed inputRowMap⟩
  · obtain ⟨tracks, count, total, covers⟩ :=
      admitRows_spec wellFormed grow fewer (not_le.mp small)
    generalize finalIs : admitRows input grow
      (truncationTarget input nExtraCols kExcess) = final at tracks count total covers
    have result : truncateMatrix true grow input inputRowMap nExtraCols kExcess =
        { truncated := compactRows input.nRows input.nCols
            (selectedColWeight input final.admitted) final.admitted input.row
          rowMap := (aliveRows input.nRows final.admitted).map (inputRowMap.getD · 0)
          rowsRemoved := input.nRows - (aliveRows input.nRows final.admitted).length
          colsRemoved := input.nCols - (compactRows input.nRows input.nCols
            (selectedColWeight input final.admitted) final.admitted input.row).nCols } := by
      rw [truncateMatrix, finalIs]
      simp only [Bool.not_true, Bool.false_eq_true, if_false, if_neg small, total, lt_irrefl]
    have weight : ∀ c, 0 < selectedColWeight input final.admitted c ↔
        ∃ r < input.nRows, final.admitted r = true ∧ c ∈ input.row r := by
      intro c
      rw [selectedColWeight, updateAll_count, Nat.zero_add, List.count_pos_iff, List.mem_flatMap]
      simp only [mem_aliveRows, and_assoc]
    have selected : (aliveRows input.nRows final.admitted).length =
        truncationTarget input nExtraCols kExcess := by rw [← tracks.count, count]
    have columns : Covers input.nRows input.nCols (selectedColWeight input final.admitted)
        final.admitted input.row :=
      ⟨fun r inside _ => wellFormed.bound r inside,
        fun r inside taken c present => (weight c).mpr ⟨r, inside, taken, present⟩,
        fun r inside _ => wellFormed.ascending r inside⟩
    have positive : ∀ c < input.nCols, 0 < selectedColWeight input final.admitted c := by
      intro c inside
      obtain ⟨r, rowInside, present⟩ := covered c inside
      exact (weight c).mpr ((tracks.coverage c).mp (covers r rowInside c present))
    have assigned := compactColumns_eq (selectedColWeight input final.admitted) input.nCols
    rw [result]
    refine ⟨final.admitted,
      (compactColumns input.nCols (selectedColWeight input final.admitted)).1, ?_⟩
    constructor
    · exact columns.wellFormed
    · rw [nRows_compactRows, selected]
    · exact selected
    · intro i inside
      exact row_compactRows (by rw [selected]; exact inside)
    · intro i inside
      exact getD_rowMap _ (by rw [selected]; exact inside)
    · have nCols : (compactRows input.nRows input.nCols
          (selectedColWeight input final.admitted) final.admitted input.row).nCols =
            input.nCols := by
        rw [compactRows, HostMatrixCSR.nCols_ofRows, assigned.1, keptBelow]
        rw [List.countP_eq_length.mpr, List.length_range]
        intro c member
        exact decide_eq_true (positive c (List.mem_range.mp member))
      have identity : ∀ c < input.nCols,
          (compactColumns input.nCols (selectedColWeight input final.admitted)).1 c = c := by
        intro c inside
        rw [assigned.2 c inside (positive c inside), keptBelow,
          List.countP_eq_length.mpr, List.length_range]
        intro d member
        exact decide_eq_true (positive d ((List.mem_range.mp member).trans inside))
      rw [nCols]
      exact (Set.bijOn_id _).congr fun c inside => (identity c inside).symm
    · intro c inside _
      obtain ⟨r, rowInside, taken, present⟩ := (weight c).mp (positive c inside)
      obtain ⟨i, within, place⟩ := List.getElem_of_mem (mem_aliveRows.mpr ⟨rowInside, taken⟩)
      refine ⟨i, by rw [← selected]; exact within, ?_⟩
      rw [row_compactRows within, placeOf, List.getD_eq_getElem _ _ within, place]
      exact List.mem_map_of_mem present
    · rw [← kernel_admitted, ← image_placeOf, ← selected]
      rw [HostMatrixCSR.leftKernel, nRows_compactRows]
      exact columns.compacts.scatter_bijOn

def tallColumn : HostMatrixCSR := HostMatrixCSR.ofRows 1 [[], [0], [0], []]

theorem truncateMatrix_spec_tallColumn : ∃ admitted renumber, Truncates tallColumn [3, 2, 1, 0] 3
      (truncateMatrix true id tallColumn [3, 2, 1, 0] 0 2) admitted renumber :=
  truncateMatrix_spec id tallColumn (by decide) (by decide) [3, 2, 1, 0] 0 2 (by decide)

end CudaMpqs
