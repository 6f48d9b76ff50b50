import Mathlib.Data.Rat.Floor
import CudaMpqs.Matrix.SimultaneousMerges
import CudaMpqs.Matrix.PackedMatrix

/-! # The round loop

`gpuBatchMerge` plans and launches rounds, first of weight-2 and then of higher-weight
merges. It looks at the merge budget between two rounds only. -/

namespace CudaMpqs.BatchMerge

open Combine Function Transition PackedRow RowJoin

/-! ## Sizes -/

structure Floats where
  /-- The double nearest to a number. -/
  double : ℚ → ℚ
  /-- `static_cast<uint32_t>(est_entries * 1.5f)`; a float below `2 ^ 32` ends in zeros. -/
  scaled : BitVec 32 → BitVec 32
  scaled_le : ∀ entries, (scaled entries).toNat ≤ 2 ^ 32 - 2 ^ 8

def toUint32 (x : ℚ) : Nat := ⌊x⌋.toNat % 2 ^ 32

def stdMax (left right : BitVec 32) : BitVec 32 := if left < right then right else left

def estMerges (nRows : Nat) : BitVec 32 := BitVec.ofNat 32 (max nRows 1024)

def avgWeight (nRows nnz : Nat) : BitVec 32 :=
  if 0 < nRows then BitVec.ofNat 32 (nnz / nRows) else 32

def maxMergedEntries (floats : Floats) (nRows nnz : Nat) : BitVec 32 :=
  stdMax (floats.scaled (estMerges nRows * avgWeight nRows nnz * 2)) 1

def sizedCsr (floats : Floats) (mont : Montgomery) (csr : DevicePackedCsr)
    (wellFormed : csr.WellFormed) (rows_lt : csr.rows.length < 2 ^ 31) :
    PackedCsr csr.rows.length where
  csr r := csr.rowAt r
  mont := mont
  maxRows := estMerges csr.rows.length
  maxEntries := maxMergedEntries floats csr.rows.length
    (csr.rows.map fun row => row.entries.length).sum
  rows_lt := rows_lt
  maxRows_le := by
    have bound : max csr.rows.length 1024 < 2 ^ 31 := by omega
    rw [estMerges, BitVec.toNat_ofNat, Nat.mod_eq_of_lt (bound.trans (by decide))]
    exact bound.le
  maxEntries_le := by
    rw [maxMergedEntries, stdMax]
    split
    · decide
    · exact floats.scaled_le _
  nCols := csr.nCols
  ascending r := wellFormed.ascending _ (DevicePackedCsr.rowAt_mem r.isLt)
  column_lt r := wellFormed.column_lt _ (DevicePackedCsr.rowAt_mem r.isLt)

variable {rows : Nat}

def PackedCsr.nnz (matrix : PackedCsr rows) : Nat := ∑ row, (matrix.csr row).entries.length

def countAliveRows (device : Device rows) : Nat :=
  (List.finRange rows).countP fun row => (device.rowPtr row).isSome

def effectiveMax (floats : Floats) (matrix : PackedCsr rows) (device : Device rows)
    (maxWeight : BitVec 32) : BitVec 32 :=
  let avgInitial : ℚ :=
    if 0 < countAliveRows device then floats.double (matrix.nnz / countAliveRows device) else 32
  stdMax maxWeight (BitVec.ofNat 32 (toUint32 (2 * avgInitial)))

/-! ## Rounds -/

def kMaxMergeRounds : Nat := 200

inductive MergeStage where
  | weight2
  | higher (effectiveMax : BitVec 32)
  | finished
deriving DecidableEq

structure BatchState (matrix : PackedCsr rows) where
  device : Device rows
  reached : Reached matrix.toContext device
  stage : MergeStage
  w2Total : Nat
  w2Rounds : Nat
  hwTotal : Nat
  hwRounds : Nat
  totalAborts : Nat
  cumulativeMerges : Nat

variable {matrix : PackedCsr rows}

theorem PackedCsr.reached_fresh (matrix : PackedCsr rows) (workspace : Workspace) :
    Reached matrix.toContext (freshDevice matrix.toContext workspace) :=
  .fresh workspace

def BatchState.start (matrix : PackedCsr rows) (workspace : Workspace) : BatchState matrix where
  device := freshDevice matrix.toContext workspace
  reached := matrix.reached_fresh workspace
  stage := .weight2
  w2Total := 0
  w2Rounds := 0
  hwTotal := 0
  hwRounds := 0
  totalAborts := 0
  cumulativeMerges := 0

def budgetExhausted (maxTotalMerges cumulativeMerges : Nat) : Bool :=
  decide (0 < maxTotalMerges) && decide (maxTotalMerges ≤ cumulativeMerges)

/-- The candidates of the next round; none when the loop of the stage ends. -/
def planRound (kMax : BitVec 32) (maxTotalMerges : Nat) (state : BatchState matrix) :
    List (MergeCandidate rows) :=
  if budgetExhausted maxTotalMerges state.cumulativeMerges then []
  else
    match state.stage with
    | .weight2 =>
      if state.w2Rounds < kMaxMergeRounds then planWeight2Merges matrix state.device else []
    | .higher effectiveMax =>
      if state.hwRounds < kMaxMergeRounds then
        planHigherWeightMerges matrix state.device kMax effectiveMax
      else []
    | .finished => []

def roundLaunch (kMax : BitVec 32) (maxTotalMerges : Nat) (state : BatchState matrix) :
    Launch rows :=
  ⟨matrix.toContext, state.device, planRound kMax maxTotalMerges state⟩

def BatchState.countWeight2 (state : BatchState matrix) (merges : Nat) : BatchState matrix :=
  { state with w2Total := state.w2Total + merges, w2Rounds := state.w2Rounds + 1 }

def BatchState.countHigher (state : BatchState matrix) (merges : Nat) : BatchState matrix :=
  { state with hwTotal := state.hwTotal + merges, hwRounds := state.hwRounds + 1 }

def BatchState.count (state : BatchState matrix) (merges : Nat) : BatchState matrix :=
  match state.stage with
  | .weight2 => state.countWeight2 merges
  | .higher _ => state.countHigher merges
  | .finished => state

def BatchState.afterRound (state : BatchState matrix) (kMax : BitVec 32) (maxTotalMerges : Nat)
    (schedule : List (roundLaunch kMax maxTotalMerges state).Thread)
    (finished : (runKernel (roundLaunch kMax maxTotalMerges state) schedule).Finished) :
    BatchState matrix :=
  let kernel := runKernel (roundLaunch kMax maxTotalMerges state) schedule
  { state.count (succeeded kernel) with
    device := kernel.memory.toDevice
    reached := .launch state.reached schedule finished
    totalAborts := state.totalAborts + kernel.memory.abortCount
    cumulativeMerges := state.cumulativeMerges + succeeded kernel }

def BatchState.nextStage (state : BatchState matrix) (floats : Floats) (maxWeight : BitVec 32) :
    BatchState matrix :=
  match state.stage with
  | .weight2 =>
    { state with stage := .higher (effectiveMax floats matrix state.device maxWeight) }
  | _ => { state with stage := .finished }

inductive BatchStep (floats : Floats) (kMax maxWeight : BitVec 32) (maxTotalMerges : Nat) :
    BatchState matrix → BatchState matrix → Prop where
  | round {state : BatchState matrix} (planned : planRound kMax maxTotalMerges state ≠ [])
      (schedule : List (roundLaunch kMax maxTotalMerges state).Thread)
      (finished : (runKernel (roundLaunch kMax maxTotalMerges state) schedule).Finished) :
      BatchStep floats kMax maxWeight maxTotalMerges state
        (state.afterRound kMax maxTotalMerges schedule finished)
  | leave {state : BatchState matrix} (nothing : planRound kMax maxTotalMerges state = [])
      (running : state.stage ≠ .finished) :
      BatchStep floats kMax maxWeight maxTotalMerges state (state.nextStage floats maxWeight)

/-! ## Counting -/

structure BatchState.Counted (state : BatchState matrix) : Prop where
  total : state.w2Total + state.hwTotal = state.cumulativeMerges
  alive : countAliveRows state.device + state.cumulativeMerges = rows

theorem countAliveRows_eq (context : Context rows) (device : Device rows) :
    countAliveRows device = (RowJoin.aliveRows (device.table context)).card := by
  rw [countAliveRows, List.countP_eq_length_filter, RowJoin.aliveRows,
    ← List.toFinset_card_of_nodup ((List.nodup_finRange rows).filter _)]
  congr 1
  ext row
  simp [Device.table]

theorem BatchState.counted_start (matrix : PackedCsr rows) (workspace : Workspace) :
    (BatchState.start matrix workspace).Counted where
  total := rfl
  alive := by
    change (List.finRange rows).countP (fun _ => true) = rows
    simp

theorem separate_planRound (kMax : BitVec 32) (maxTotalMerges : Nat) (state : BatchState matrix) :
    (planRound kMax maxTotalMerges state).Pairwise Separate := by
  unfold planRound
  split
  · exact .nil
  split
  · split
    · exact separate_planWeight2Merges _ _
    · exact .nil
  · split
    · exact separate_planHigherWeightMerges state.reached _ _
    · exact .nil
  · exact .nil

private theorem countAliveRows_launch {launch : Launch rows} {schedule : List launch.Thread}
    (reached : Reached launch.context launch.device)
    (finished : (runKernel launch schedule).Finished) :
    countAliveRows (runKernel launch schedule).memory.toDevice +
      succeeded (runKernel launch schedule) = countAliveRows launch.device := by
  rcases executeMerges_launched launch reached schedule finished with ⟨order, launched⟩
  have consumed := card_aliveRows_replay launched.legal
  rw [countAliveRows_eq launch.context, countAliveRows_eq launch.context, launched.table,
    launched.succeeded_eq, ← consumed, mergedPairs, List.length_map]
  rfl

theorem BatchState.Counted.step {floats : Floats} {kMax maxWeight : BitVec 32}
    {maxTotalMerges : Nat} {state state' : BatchState matrix} (counted : state.Counted)
    (step : BatchStep floats kMax maxWeight maxTotalMerges state state') : state'.Counted := by
  have total := counted.total
  have alive := counted.alive
  cases step with
  | round planned schedule finished =>
    constructor
    · unfold BatchState.afterRound BatchState.count
      cases isStage : state.stage with
      | finished => exact absurd (by simp [planRound, isStage]) planned
      | _ =>
        simp only [BatchState.countWeight2, BatchState.countHigher]
        omega
    · have consumed := @countAliveRows_launch _ (roundLaunch kMax maxTotalMerges state) _
        state.reached finished
      change countAliveRows (runKernel _ schedule).memory.toDevice +
        (state.cumulativeMerges + succeeded _) = rows
      change _ = countAliveRows state.device at consumed
      omega
  | leave nothing running =>
    unfold BatchState.nextStage
    cases isStage : state.stage <;> exact ⟨total, alive⟩

end CudaMpqs.BatchMerge
