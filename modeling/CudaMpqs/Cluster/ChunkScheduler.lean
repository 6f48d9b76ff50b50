import Mathlib.Data.Rat.Floor
import CudaMpqs.Cluster.WorkPool

/-! # The chunk scheduler

`chunk_scheduler.cpp`: the contiguous ranges that the nodes begin with, and the
sizes of the chunks that they draw from the overflow pool afterwards. Locals of type
`uint64_t` are numbers, wrapped where an operation can leave 64 bits. -/

namespace CudaMpqs

open WorkPool

structure DoubleArithmetic (Double : Type) where
  ofNat : Nat → Double
  add : Double → Double → Double
  sub : Double → Double → Double
  mul : Double → Double → Double
  div : Double → Double → Double
  less : Double → Double → Bool
  lessEq : Double → Double → Bool
  ceil : Double → Double
  toUInt64 : Double → BitVec 64

def rationals : DoubleArithmetic ℚ where
  ofNat number := number
  add left right := left + right
  sub left right := left - right
  mul left right := left * right
  div left right := left / right
  less left right := decide (left < right)
  lessEq left right := decide (left ≤ right)
  ceil number := ⌈number⌉
  toUInt64 number := BitVec.ofNat 64 ⌊number⌋.toNat

/-! ## Throughput -/

structure WorkerThroughput (Double : Type) where
  relsPerSec : Double
  aValsPerSec : Double
  chunksCompleted : BitVec 32
  totalRels : BitVec 64
  totalAVals : BitVec 64

section Throughput

variable {Double : Type} (arithmetic : DoubleArithmetic Double)

def WorkerThroughput.fresh : WorkerThroughput Double :=
  ⟨arithmetic.ofNat 0, arithmetic.ofNat 0, 0, 0, 0⟩

def kEmaAlpha : Double := arithmetic.div (arithmetic.ofNat 3) (arithmetic.ofNat 10)

def ema (sample rate : Double) : Double :=
  arithmetic.add (arithmetic.mul (kEmaAlpha arithmetic) sample)
    (arithmetic.mul (arithmetic.sub (arithmetic.ofNat 1) (kEmaAlpha arithmetic)) rate)

def WorkerThroughput.update (worker : WorkerThroughput Double) (rels aVals : BitVec 64)
    (elapsed : Double) : WorkerThroughput Double :=
  if arithmetic.lessEq elapsed (arithmetic.ofNat 0) then worker
  else
    let srps := arithmetic.div (arithmetic.ofNat rels.toNat) elapsed
    let saps := arithmetic.div (arithmetic.ofNat aVals.toNat) elapsed
    { relsPerSec :=
        if worker.chunksCompleted = 0 then srps else ema arithmetic srps worker.relsPerSec
      aValsPerSec :=
        if worker.chunksCompleted = 0 then saps else ema arithmetic saps worker.aValsPerSec
      chunksCompleted := worker.chunksCompleted + 1
      totalRels := worker.totalRels + rels
      totalAVals := worker.totalAVals + aVals }

end Throughput

/-- The scheduler with its map of workers, in the order of the map. `capWindows` is
`MPQS_DEBUG_MAX_CHUNK_WINDOWS`, zero when it is not set. -/
structure ChunkScheduler (Double : Type) where
  numWorkers : BitVec 32
  totalA : BitVec 64
  hypercubeSize : BitVec 32
  quantum : BitVec 32
  capWindows : BitVec 64
  throughput : List (BitVec 8 × WorkerThroughput Double)

namespace ChunkScheduler

variable {Double : Type}

def create (numWorkers : BitVec 32) (totalA : BitVec 64) (hypercubeSize quantum : BitVec 32)
    (capWindows : BitVec 64) : ChunkScheduler Double :=
  ⟨numWorkers, totalA, hypercubeSize, quantum, capWindows, []⟩

/-! ## Alignment -/

def roundUp (size count : Nat) : Nat := wrap64 (wrap64 (count + size - 1) / size * size)

def roundToQuantum (scheduler : ChunkScheduler Double) (count : Nat) : Nat :=
  if scheduler.quantum ≤ 1 then count else roundUp scheduler.quantum.toNat count

def alignToHypercube (scheduler : ChunkScheduler Double) (count : Nat) : Nat :=
  if scheduler.hypercubeSize = 0 then count
  else roundUp scheduler.hypercubeSize.toNat count

def debugCap (scheduler : ChunkScheduler Double) : Nat :=
  let window := if 0 < scheduler.hypercubeSize then scheduler.hypercubeSize.toNat else 1
  wrap64 (scheduler.capWindows.toNat * window)

def applyDebugWindowCap (scheduler : ChunkScheduler Double) (count : Nat) : Nat :=
  if scheduler.capWindows = 0 then count else min count scheduler.debugCap

/-! ## Contiguous ranges -/

structure ContiguousRange where
  nodeId : Nat
  start : Nat
  count : Nat
deriving DecidableEq

def wEst (numNodes : Nat) (targetRels H : BitVec 32) : Nat :=
  let perWindow := (5 * H).toNat
  max (4 * numNodes) ((targetRels.toNat + perWindow - 1) / perWindow * 2)

def nodeCount (arithmetic : DoubleArithmetic Double) (scheduler : ChunkScheduler Double)
    (wEst : Nat) (H Q : BitVec 32) (headroomPct : Double) (windows : Nat) : Nat :=
  let count := wrap64 (windows * H.toNat)
  let maxCount := wrap64 (2 * wEst * H.toNat)
  let count :=
    if arithmetic.less (arithmetic.ofNat 0) headroomPct then
      let extended := (arithmetic.toUInt64 (arithmetic.ceil (arithmetic.mul
        (arithmetic.ofNat count) (arithmetic.add (arithmetic.ofNat 1)
          (arithmetic.div headroomPct (arithmetic.ofNat 100)))))).toNat
      let count := roundUp H.toNat extended
      let count := if 1 < Q then roundUp Q.toNat count else count
      if maxCount < count then
        let count := maxCount / H.toNat * H.toNat
        if 1 < Q then count / Q.toNat * Q.toNat else count
      else count
    else if 1 < Q then roundUp Q.toNat count else count
  scheduler.applyDebugWindowCap count

def layRanges (nodeId cursor : Nat) : List Nat → List ContiguousRange
  | [] => []
  | count :: counts =>
    ⟨nodeId % 2 ^ 8, cursor, count⟩ :: layRanges (nodeId + 1) (wrap64 (cursor + count)) counts

def smTotal (numNodes : Nat) (smCounts : List (BitVec 32)) : Nat :=
  let total := smCounts.foldl (· + ·) 0
  if total = 0 then numNodes else total.toNat

def smWindows (wEst sTotal : Nat) (sm : BitVec 32) : Nat :=
  let windows := wrap64 (wEst * sm.toNat + sTotal - 1) / sTotal
  if windows = 0 then 1 else windows

def computeContiguousRanges (arithmetic : DoubleArithmetic Double)
    (scheduler : ChunkScheduler Double) (smCounts : List (BitVec 32))
    (targetRels H Q : BitVec 32) (headroomPct : Double) : List ContiguousRange :=
  let numNodes := smCounts.length % 2 ^ 32
  if numNodes = 0 ∨ H = 0 then []
  else
    let wEst := wEst numNodes targetRels H
    let sTotal := smTotal numNodes smCounts
    layRanges 0 0 ((smCounts.take numNodes).map fun sm =>
      scheduler.nodeCount arithmetic wEst H Q headroomPct (smWindows wEst sTotal sm))

def throughputWindows (arithmetic : DoubleArithmetic Double) (wEst : Nat)
    (tTotal weight : Double) : Nat :=
  max 1 (arithmetic.toUInt64 (arithmetic.ceil (arithmetic.mul (arithmetic.ofNat wEst)
    (arithmetic.div weight tTotal)))).toNat

/-- `computeContiguousRanges` by throughput weights; without any throughput the split
is equal. -/
def computeThroughputRanges (arithmetic : DoubleArithmetic Double)
    (scheduler : ChunkScheduler Double) (throughputWeights : List Double)
    (targetRels H Q : BitVec 32) (headroomPct : Double) : List ContiguousRange :=
  let numNodes := throughputWeights.length % 2 ^ 32
  if numNodes = 0 ∨ H = 0 then []
  else
    let tTotal := throughputWeights.foldl arithmetic.add (arithmetic.ofNat 0)
    if arithmetic.lessEq tTotal (arithmetic.ofNat 0) then
      scheduler.computeContiguousRanges arithmetic (List.replicate numNodes 1) targetRels
        H Q headroomPct
    else
      let wEst := wEst numNodes targetRels H
      layRanges 0 0 ((throughputWeights.take numNodes).map fun weight =>
        scheduler.nodeCount arithmetic wEst H Q headroomPct
          (throughputWindows arithmetic wEst tTotal weight))

/-! ## Chunk sizes -/

def kMinChunkFallback : Nat := 16

def kCalibrationChunks : Nat := 2

def minChunk (scheduler : ChunkScheduler Double) : Nat :=
  max scheduler.hypercubeSize.toNat (max (4 * scheduler.quantum.toNat) kMinChunkFallback)

def maxChunk (scheduler : ChunkScheduler Double) : Nat :=
  let divisor := 2 * (scheduler.numWorkers.toNat + 1)
  max scheduler.minChunk
    (if 0 < divisor then scheduler.totalA.toNat / divisor else scheduler.totalA.toNat)

def baseChunk (scheduler : ChunkScheduler Double) : Nat :=
  let divisor := 10 * (scheduler.numWorkers.toNat + 1)
  let base :=
    if 0 < divisor then scheduler.totalA.toNat / divisor else scheduler.totalA.toNat
  max scheduler.minChunk (min base scheduler.maxChunk)

def recordCompletion (arithmetic : DoubleArithmetic Double)
    (scheduler : ChunkScheduler Double) (workerId : BitVec 8) (rels aVals : BitVec 64)
    (elapsed : Double) : ChunkScheduler Double :=
  { scheduler with
    throughput :=
      if scheduler.throughput.any (·.1 == workerId) then
        scheduler.throughput.map fun entry =>
          if entry.1 = workerId then
            (entry.1, entry.2.update arithmetic rels aVals elapsed)
          else entry
      else scheduler.throughput ++
        [(workerId, (WorkerThroughput.fresh arithmetic).update arithmetic rels aVals elapsed)] }

def clamp (value low high : Nat) : Nat :=
  if value < low then low else if high < value then high else value

/-- The base chunk scaled by the worker's share of the mean rate, and by the confidence
in that rate. -/
def scaledChunk (arithmetic : DoubleArithmetic Double) (scheduler : ChunkScheduler Double)
    (worker : WorkerThroughput Double) : Nat :=
  let calibrated := scheduler.throughput.filter
    (kCalibrationChunks ≤ ·.2.chunksCompleted.toNat)
  let totalAps := calibrated.foldl (fun total entry =>
    arithmetic.add total entry.2.aValsPerSec) (arithmetic.ofNat 0)
  let meanAps := if 0 < calibrated.length then
    arithmetic.div totalAps (arithmetic.ofNat calibrated.length) else arithmetic.ofNat 1
  let ratio := if arithmetic.less (arithmetic.ofNat 0) meanAps then
    arithmetic.div worker.aValsPerSec meanAps else arithmetic.ofNat 1
  let ramp := arithmetic.div (arithmetic.ofNat worker.chunksCompleted.toNat)
    (arithmetic.ofNat 4)
  let confidence := if arithmetic.less ramp (arithmetic.ofNat 1) then ramp
    else arithmetic.ofNat 1
  (arithmetic.toUInt64 (arithmetic.mul (arithmetic.mul
    (arithmetic.ofNat scheduler.baseChunk) ratio) confidence)).toNat

def nextChunkSize (arithmetic : DoubleArithmetic Double) (scheduler : ChunkScheduler Double)
    (workerId : BitVec 8) : Nat :=
  match scheduler.throughput.find? (·.1 == workerId) with
  | none => scheduler.applyDebugWindowCap scheduler.baseChunk
  | some (_, worker) =>
    if worker.chunksCompleted.toNat < kCalibrationChunks then
      scheduler.applyDebugWindowCap scheduler.baseChunk
    else
      let aligned := scheduler.alignToHypercube (scheduler.scaledChunk arithmetic worker)
      let aligned := scheduler.roundToQuantum aligned
      scheduler.applyDebugWindowCap (clamp aligned scheduler.minChunk scheduler.maxChunk)

end ChunkScheduler

end CudaMpqs
