import CudaMpqs.Matrix.GpuBatchMerge
import CudaMpqs.Matrix.PackedCompaction

/-! # Compact-merge cycles

`gpuCompactMergeCycles` gives each merge pass a budget that is to keep it from merging
below its target. A pass stays above the target as long as it starts there, so that the
budget is not zero, and no round plans more merges than the budget has left. -/

namespace CudaMpqs.BatchMerge

open Combine Function Transition PackedRow RowJoin

/-! ## The driver -/

structure CycleParameters where
  floats : Floats
  kMax : BitVec 32
  maxWeight : BitVec 32
  truncationFactor : ℚ
  maxCycles : Nat
  gf2FloorFactor : ℚ
  gf2MinFloor : Nat

variable (params : CycleParameters)

def cycleTarget (nCols : Nat) : Nat :=
  ⌈params.floats.double (params.truncationFactor * nCols)⌉.toNat

def computeCycleBudget (nRows nCols : Nat) : Nat :=
  if params.truncationFactor ≤ 0 then 0
  else
    let target := cycleTarget params nCols % 2 ^ 32
    if target < nRows then nRows - target else 0

def countGf2AliveCols (csr : DevicePackedCsr) : Nat :=
  if csr.rows.length = 0 ∨ csr.nCols = 0 then 0
  else (List.range csr.nCols).countP fun c => 0 < (csr.rows.map (oddCount c)).sum

def gf2Floor (csr : DevicePackedCsr) : Nat :=
  max params.gf2MinFloor
    (toUint32 (params.floats.double (params.gf2FloorFactor * countGf2AliveCols csr)))

def convergenceLimit (alive : Nat) : Nat :=
  toUint32 (params.floats.double (alive * params.floats.double (2 / 100)))

inductive CyclePhase where
  | cycling
  | finalPass
  | returned
deriving DecidableEq

structure CycleState where
  rows : Nat
  matrix : PackedCsr rows
  batch : BatchState matrix
  phase : CyclePhase
  cycle : Nat
  floor : Nat
  totalMerges : Nat
  cyclesRun : Nat
  cumulativeRowMap : List Nat
  cumulativeColMap : List Nat

def phaseOf (cycle : Nat) : CyclePhase := if cycle < params.maxCycles then .cycling else .finalPass

def CycleState.start (mont : Montgomery) (csr : DevicePackedCsr) (wellFormed : csr.WellFormed)
    (rows_lt : csr.rows.length < 2 ^ 31) (workspace : Workspace) : CycleState where
  rows := csr.rows.length
  matrix := sizedCsr params.floats mont csr wellFormed rows_lt
  batch := .start _ workspace
  phase := phaseOf params 0
  cycle := 0
  floor := gf2Floor params csr
  totalMerges := 0
  cyclesRun := 0
  cumulativeRowMap := List.range csr.rows.length
  cumulativeColMap := List.range csr.nCols

variable (state : CycleState)

def CycleState.budget : Nat := computeCycleBudget params state.rows state.matrix.nCols

def CycleState.merges : Nat := state.batch.w2Total + state.batch.hwTotal

def CycleState.stops : Bool :=
  decide (state.merges < convergenceLimit params (countAliveRows state.batch.device)) ||
    decide (((List.range state.matrix.nCols).countP fun c =>
      0 < state.batch.device.gf2ColWeight c) < state.floor)

def CycleState.returned (cyclesRun : Nat) : CycleState :=
  { state with
    phase := .returned
    totalMerges := state.totalMerges + state.merges
    cyclesRun := cyclesRun }

def CycleState.compacted (workspace : Workspace) : CycleState :=
  let result := gpuCompactPackedCSR state.matrix state.batch.device
  { rows := result.csr.rows.length
    matrix := sizedCsr params.floats state.matrix.mont result.csr
      (gpuCompactPackedCSR_relocated state.batch.reached).wellFormed
      ((length_rows_gpuCompactPackedCSR state.batch.reached).trans_lt state.matrix.rows_lt)
    batch := .start _ workspace
    phase := phaseOf params (state.cycle + 1)
    cycle := state.cycle + 1
    floor := state.floor
    totalMerges := state.totalMerges + state.merges
    cyclesRun := state.cyclesRun + 1
    cumulativeRowMap := result.rowMap.map (state.cumulativeRowMap.getD · 0)
    cumulativeColMap := result.colMap.map (state.cumulativeColMap.getD · 0) }

inductive CycleStep : CycleState → CycleState → Prop where
  | merge {state : CycleState} (running : state.phase ≠ .returned) {batch : BatchState state.matrix}
      (step : BatchStep params.floats params.kMax params.maxWeight (state.budget params)
        state.batch batch) :
      CycleStep state { state with batch := batch }
  | stop {state : CycleState} (cycling : state.phase = .cycling)
      (merged : state.batch.stage = .finished) (stops : state.stops params = true) :
      CycleStep state (state.returned (state.cyclesRun + 1))
  | compact {state : CycleState} (cycling : state.phase = .cycling)
      (merged : state.batch.stage = .finished) (goesOn : state.stops params = false)
      (workspace : Workspace) :
      CycleStep state (state.compacted params workspace)
  | finish {state : CycleState} (final : state.phase = .finalPass)
      (merged : state.batch.stage = .finished) :
      CycleStep state (state.returned state.cyclesRun)

inductive Cycles (Meets : CycleState → Prop) (start : CycleState) : CycleState → Prop where
  | start : Cycles Meets start start
  | step {state next : CycleState} (cycles : Cycles Meets start state) (meets : Meets state)
      (step : CycleStep params state next) : Cycles Meets start next

/-! ## The target -/

def CycleState.excess : Nat := state.rows - cycleTarget params state.matrix.nCols

/-- If a round begins, the pass started above its target, and the round plans no more
candidates than the budget has left. -/
def PlansWithinBudget : Prop :=
  let plan := planRound params.kMax (state.budget params) state.batch
  plan ≠ [] → cycleTarget params state.matrix.nCols < state.rows ∧
    plan.length ≤ state.budget params - state.merges

/-- The budget of a pass that starts above its target is its excess. -/
theorem CycleState.budget_eq (positive : 0 < params.truncationFactor)
    (above : cycleTarget params state.matrix.nCols < state.rows) :
    state.budget params = state.excess params := by
  have narrow : cycleTarget params state.matrix.nCols % 2 ^ 32 =
      cycleTarget params state.matrix.nCols :=
    Nat.mod_eq_of_lt (above.trans (state.matrix.rows_lt.trans (by decide)))
  simp only [CycleState.budget, computeCycleBudget, not_le.mpr positive, narrow, above, if_false,
    if_true, CycleState.excess]

/-- A pass that starts at its target or below has the budget zero, and never exhausts it. -/
theorem CycleState.budget_eq_zero (narrow : cycleTarget params state.matrix.nCols < 2 ^ 32)
    (below : state.rows ≤ cycleTarget params state.matrix.nCols) (merges : Nat) :
    state.budget params = 0 ∧ budgetExhausted (state.budget params) merges = false := by
  have zero : state.budget params = 0 := by
    simp only [CycleState.budget, computeCycleBudget, Nat.mod_eq_of_lt narrow,
      not_lt.mpr below, if_false, ite_self]
  exact ⟨zero, by rw [zero]; rfl⟩

structure CycleState.Within : Prop where
  counted : state.batch.Counted
  merges_le : state.merges ≤ state.excess params

variable {params} {state}

theorem CycleState.within_start (mont : Montgomery) (csr : DevicePackedCsr)
    (wellFormed : csr.WellFormed) (rows_lt : csr.rows.length < 2 ^ 31) (workspace : Workspace) :
    (CycleState.start params mont csr wellFormed rows_lt workspace).Within params :=
  ⟨BatchState.counted_start _ _, Nat.zero_le _⟩

theorem CycleState.Within.step {next : CycleState} (positive : 0 < params.truncationFactor)
    (within : state.Within params) (meets : PlansWithinBudget params state)
    (step : CycleStep params state next) : next.Within params := by
  have merges_le := within.merges_le
  cases step with
  | @merge batch running step =>
    have counted := within.counted.step step
    refine ⟨counted, ?_⟩
    have total := counted.total
    have before := within.counted.total
    unfold CycleState.merges at merges_le ⊢
    cases step with
    | round planned schedule finished =>
      rcases meets planned with ⟨above, few⟩
      have left : state.budget params - state.merges = state.excess params - state.merges := by
        rw [CycleState.budget_eq params state positive above]
      have executed : succeeded (runKernel
          (roundLaunch params.kMax (state.budget params) state.batch) schedule) ≤
            (planRound params.kMax (state.budget params) state.batch).length :=
        Nat.sub_le _ _
      have fits := executed.trans (few.trans left.le)
      unfold CycleState.merges at fits
      simp only [BatchState.afterRound] at total ⊢
      rw [total, ← before]
      exact Nat.add_le_of_le_sub' merges_le fits
    | leave nothing running' =>
      have same : (state.batch.nextStage params.floats params.maxWeight).cumulativeMerges =
          state.batch.cumulativeMerges := by
        unfold BatchState.nextStage
        cases state.batch.stage <;> rfl
      rw [total, same, ← before]
      exact merges_le
  | stop => exact ⟨within.counted, merges_le⟩
  | finish => exact ⟨within.counted, merges_le⟩
  | compact => exact ⟨BatchState.counted_start _ _, Nat.zero_le _⟩

/-- In a run whose rounds plan within the budget, no pass merges more rows than there are
above its target. A pass at its target or below has no budget that stops it: its next round
merges in some interleaving as soon as one candidate can be executed. -/
theorem gpuCompactMergeCycles_withinTarget (positive : 0 < params.truncationFactor) :
    (∀ {mont : Montgomery} {csr : DevicePackedCsr} {wellFormed : csr.WellFormed}
        {rows_lt : csr.rows.length < 2 ^ 31} {workspace : Workspace} {state : CycleState},
      Cycles params (PlansWithinBudget params)
          (.start params mont csr wellFormed rows_lt workspace) state →
        state.merges ≤ state.rows - cycleTarget params state.matrix.nCols ∧
          (state.rows ≤ cycleTarget params state.matrix.nCols → state.merges = 0) ∧
          min state.rows (cycleTarget params state.matrix.nCols) ≤
            countAliveRows state.batch.device) ∧
    ∀ state : CycleState, cycleTarget params state.matrix.nCols < 2 ^ 32 →
      state.rows ≤ cycleTarget params state.matrix.nCols →
        (∀ merges, budgetExhausted (state.budget params) merges = false) ∧
        ((∀ schedule, (runKernel (roundLaunch params.kMax (state.budget params) state.batch)
            schedule).Finished → succeeded (runKernel
              (roundLaunch params.kMax (state.budget params) state.batch) schedule) ≤ 0) ↔
          ∀ thread, ¬ Together (roundLaunch params.kMax (state.budget params) state.batch)
            {thread}) := by
  constructor
  · intro mont csr wellFormed rows_lt workspace state cycles
    have within : state.Within params := by
      induction cycles with
      | start => exact CycleState.within_start _ _ _ _ _
      | step cycles meets step induction => exact induction.step positive meets step
    have merges_le := within.merges_le
    have total := within.counted.total
    have alive := within.counted.alive
    unfold CycleState.excess at merges_le
    unfold CycleState.merges at merges_le ⊢
    refine ⟨merges_le, fun atTarget => by omega, ?_⟩
    omega
  · intro state narrow below
    refine ⟨fun merges => (CycleState.budget_eq_zero params state narrow below merges).2, ?_⟩
    rw [succeeded_le_iff state.batch.reached (separate_planRound _ _ _)]
    constructor
    · intro none thread together
      exact absurd (none _ together) (by rw [Finset.card_singleton]; decide)
    · intro none chosen together
      rw [Nat.le_zero, Finset.card_eq_zero]
      apply Finset.eq_empty_of_forall_notMem
      intro thread member
      exact none thread (together.subset (Finset.singleton_subset_iff.mpr member))

/-! ## Twins -/

def twinCsr : DevicePackedCsr where
  rows := [⟨[(0, 3), (1, 1)], UInt512.ofUInt32 1, 1, 0, 0⟩,
    ⟨[(0, 3), (2, 1)], UInt512.ofUInt32 1, 1, 0, 0⟩]
  nCols := 3

def exactFloats : Floats where
  double := id
  scaled entries := if entries.toNat < 2 ^ 31 then BitVec.ofNat 32 (entries.toNat * 3 / 2) else 0
  scaled_le := by
    intro entries
    split
    · rename_i small
      rw [BitVec.toNat_ofNat, Nat.mod_eq_of_lt (by omega)]
      omega
    · decide

def twinParameters (truncationFactor : ℚ) : CycleParameters where
  floats := exactFloats
  kMax := 10
  maxWeight := 200
  truncationFactor := truncationFactor
  maxCycles := 5
  gf2FloorFactor := 1 / 2
  gf2MinFloor := 0

def twinStart (truncationFactor : ℚ) : CycleState :=
  .start (twinParameters truncationFactor) (Montgomery.ofModulus (UInt512.ofUInt32 15)) twinCsr
    (by decide) (by decide) emptyWorkspace

def twinRound (truncationFactor : ℚ) : Launch 2 :=
  roundLaunch 10 ((twinStart truncationFactor).budget (twinParameters truncationFactor))
    (twinStart truncationFactor).batch

def twinMerged (truncationFactor : ℚ) (schedule : List (twinRound truncationFactor).Thread)
    (finished : (runKernel (twinRound truncationFactor) schedule).Finished) : CycleState :=
  { twinStart truncationFactor with
    batch := (twinStart truncationFactor).batch.afterRound 10 _ schedule finished }

theorem cycles_twinMerged {truncationFactor : ℚ} {Meets : CycleState → Prop}
    (meets : Meets (twinStart truncationFactor))
    (planned : (twinRound truncationFactor).candidates ≠ [])
    (schedule : List (twinRound truncationFactor).Thread)
    (finished : (runKernel (twinRound truncationFactor) schedule).Finished) :
    Cycles (twinParameters truncationFactor) Meets (twinStart truncationFactor)
      (twinMerged truncationFactor schedule finished) := by
  have running : (twinStart truncationFactor).phase ≠ .returned := nofun
  exact .step .start meets (.merge running (.round planned schedule finished))

def quarterTurns : List (twinRound (1 / 4)).Thread := List.replicate 40 ⟨0, by decide +kernel⟩

theorem gpuCompactMergeCycles_withinTarget_twins :
    Cycles (twinParameters (1 / 4)) (PlansWithinBudget (twinParameters (1 / 4)))
        (twinStart (1 / 4)) (twinMerged (1 / 4) quarterTurns (by decide +kernel)) ∧
      (twinMerged (1 / 4) quarterTurns (by decide +kernel)).merges ≤
        2 - cycleTarget (twinParameters (1 / 4)) 3 := by
  have meets : PlansWithinBudget (twinParameters (1 / 4)) (twinStart (1 / 4)) := by
    intro planned
    decide +kernel
  have cycles := cycles_twinMerged meets (by decide +kernel) quarterTurns (by decide +kernel)
  exact ⟨cycles, ((gpuCompactMergeCycles_withinTarget (by decide +kernel)).1 cycles).1⟩

def wideTurns : List (twinRound (5 / 4)).Thread := List.replicate 40 ⟨0, by decide +kernel⟩

private theorem wideTurns_finished : (runKernel (twinRound (5 / 4)) wideTurns).Finished := by
  decide +kernel

/-- A budget of zero is no budget, and a pass below its target merges. -/
theorem gpuCompactMergeCycles_mergesBelowTarget : ∃ state,
    Cycles (twinParameters (5 / 4)) (fun _ => True) (twinStart (5 / 4)) state ∧
      state.rows ≤ cycleTarget (twinParameters (5 / 4)) state.matrix.nCols ∧
      state.budget (twinParameters (5 / 4)) = 0 ∧ state.merges = 1 := by
  refine ⟨twinMerged (5 / 4) wideTurns wideTurns_finished,
    cycles_twinMerged trivial (by decide +kernel) wideTurns wideTurns_finished, ?_, ?_, ?_⟩
  · decide +kernel
  · decide +kernel
  · decide +kernel

end CudaMpqs.BatchMerge
