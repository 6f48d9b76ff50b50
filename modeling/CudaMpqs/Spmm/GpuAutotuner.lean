import Mathlib.Data.Nat.Bits
import CudaMpqs.Foundation.Binary64
import CudaMpqs.Spmm.Delta16

/-! # The tuner of the matrix product

`gpu_autotuner.cu`: the rows are cut into blocks, candidate kernels are timed on each
block, and a dynamic program chooses the segments of the plan. The device is present
through the times that it takes. Rows and entries are counted in 32 bits. A segment that has
no converted block is converted outside any `try`. -/

namespace CudaMpqs

inductive KernelID where
  | m4rm
  | denseBitslice
  | sparseWarpCSR
  | sparseTiledCOO
  | sparseTiledCOOUnrolled
  | sparsePForDelta
  | sparsePForDeltaBitExact
  | sparseDelta16
  | sparseGolomb
  | sparseEllpack
deriving DecidableEq

structure KernelConfig where
  id : KernelID
  vectorWidthBits : Int
  tiledBlockSize : Nat := 256
deriving DecidableEq

structure DeviceCSR where
  nRows : Nat
  nCols : Nat
  nDenseRows : Nat
  rowPtr : Nat → BitVec 32
  colInd : Nat → SparseStreams.Column
  nRows_lt : nRows < 2 ^ 32
  nCols_lt : nCols < 2 ^ 32
  nDenseRows_le : nDenseRows ≤ nRows

def DeviceCSR.slice (csr : DeviceCSR) (startRow n : Nat) : SparseStreams.DeviceCSRSlice where
  dRowPtr i := (csr.rowPtr (startRow + i)).toNat
  dColInd := csr.colInd
  nRows := n
  nCols := BitVec.ofNat 32 csr.nCols

namespace GPUAutoTuner

structure Config where
  initialBlockSize : BitVec 32 := 8
  maxBlockSize : BitVec 32 := 65536
  enableM4rm : Bool := true
  enableTiledcoo : Bool := true
  enableTiledcooUnrolled : Bool := true
  enableDelta16 : Bool := true
  enablePforBe : Bool := true
  enableWarpCsr : Bool := true
  enableGolomb : Bool := false
  allowCpuFallback : Bool := true

structure AtomicBlock where
  startRow : Nat
  endRow : Nat
  nnz : Nat
  avgWeight : ℚ
  denseHead : Bool
deriving DecidableEq

def cpuFallbackBlockThreshold : Nat := 16384

def maxTile (vecWidth : Int) : Nat := if 256 ≤ vecWidth then 1024 else 2048

def selectTileSize (avgWeight : ℚ) (vecWidth : Int) : Nat :=
  let tile :=
    if 32 ≤ avgWeight then 256
    else if 16 ≤ avgWeight then 512
    else if 8 ≤ avgWeight then 1024
    else 2048
  min tile (maxTile vecWidth)

def tiledCandidates (id : KernelID) (vecWidth : Int) : List KernelConfig :=
  ([256, 512, 1024, 2048].filter fun tile => decide (tile ≤ maxTile vecWidth)).map
    fun tile => { id, vectorWidthBits := vecWidth, tiledBlockSize := tile }

def generateCandidateConfigs (vecWidth : Int) (config : Config) : List KernelConfig :=
  (if config.enableM4rm then [{ id := .m4rm, vectorWidthBits := vecWidth }] else []) ++
  (if config.enableTiledcoo then tiledCandidates .sparseTiledCOO vecWidth else []) ++
  (if config.enableTiledcooUnrolled then
    tiledCandidates .sparseTiledCOOUnrolled vecWidth else []) ++
  (if config.enableWarpCsr then
    [{ id := .sparseWarpCSR, vectorWidthBits := vecWidth }] else []) ++
  (if config.enableDelta16 then
    [{ id := .sparseDelta16, vectorWidthBits := vecWidth }] else []) ++
  (if config.enablePforBe then
    [{ id := .sparsePForDeltaBitExact, vectorWidthBits := vecWidth }] else []) ++
  (if config.enableGolomb then
    [{ id := .sparseGolomb, vectorWidthBits := vecWidth }] else [])

/-! ## Blocks -/

section Blocks

variable (csr : DeviceCSR)

def atomicBlock (denseHead : Bool) (current next : Nat) : AtomicBlock :=
  let n : Nat := (next + 2 ^ 32 - current) % 2 ^ 32
  let nnz : Nat := (csr.rowPtr next - csr.rowPtr current).toNat
  { startRow := current
    endRow := next
    nnz
    avgWeight := if 0 < n then (nnz : ℚ) / (n : ℚ) else 0
    denseHead }

def nextRow (current : Nat) (step : Int) : Nat :=
  min ((current + (step % 2 ^ 32).toNat) % 2 ^ 32) csr.nRows

/-- The loops that cut the rows below `limit` into blocks, with the row where they stop. A
step that has no successor is one that leaves `int`. -/
def cutRows (denseHead : Bool) (limit : Nat) (grow : Int → Option Int) :
    Nat → Nat → Int → Option (List AtomicBlock × Nat)
  | 0, _, _ => none
  | fuel + 1, current, step =>
    if current < limit then do
      let next := nextRow csr current step
      let grown ← grow step
      let (blocks, stop) ← cutRows denseHead limit grow fuel next grown
      return (atomicBlock csr denseHead current next :: blocks, stop)
    else some ([], current)

def denseEnd (isTransposed : Bool) : Nat :=
  let denseEnd := min ((csr.nDenseRows + 7) % 2 ^ 32 / 8 * 8) csr.nRows
  if isTransposed ∧ 16 < denseEnd ∧ ((csr.rowPtr denseEnd).toNat / denseEnd : ℚ) < 16 then 16
  else denseEnd

def doubleStep (maxSize : Int) (step : Int) : Option Int :=
  if -2 ^ 31 ≤ step * 2 ∧ step * 2 < 2 ^ 31 then some (min (step * 2) maxSize) else none

def firstStep (initialSize maxSize : Int) (isTransposed : Bool) (remaining : Nat) : Int :=
  if isTransposed then 1024
  else if 0 < remaining then min (max initialSize (remaining / 8 : Nat)) maxSize
  else initialSize

def sparseGrow (maxSize : Int) (isTransposed : Bool) : Int → Option Int :=
  if isTransposed then some else doubleStep maxSize

def createExponentialBlocks (initialSize maxSize : Int) (isTransposed : Bool) (fuel : Nat) :
    Option (List AtomicBlock) := do
  let (head, current) ← cutRows csr true (denseEnd csr isTransposed) some fuel 0 8
  let (tail, _) ← cutRows csr false csr.nRows (sparseGrow maxSize isTransposed) fuel current
    (firstStep initialSize maxSize isTransposed (csr.nRows - current))
  return head ++ tail

end Blocks

/-! ## Times -/

/-- A call of the tuner, with the milliseconds that the device takes: of a candidate on a
block that its converter accepts, and of the two kernels that are timed on all sparse rows,
where their benchmark does not throw for lack of memory. They come from a clock of 64-bit
nanoseconds. -/
structure Tuning where
  csr : DeviceCSR
  isTransposed : Bool
  globalVecWidth : Int
  config : Config
  measured : Nat → Nat → ℚ
  delta16Measured : Option ℚ
  warpCsrMeasured : Option ℚ
  measured_le : ∀ bi ci, |measured bi ci| ≤ 2 ^ 44
  delta16Measured_le : ∀ ms ∈ delta16Measured, |ms| ≤ 2 ^ 44
  warpCsrMeasured_le : ∀ ms ∈ warpCsrMeasured, |ms| ≤ 2 ^ 44

variable (tuning : Tuning)

def Tuning.configs : List KernelConfig :=
  generateCandidateConfigs tuning.globalVecWidth tuning.config

def maxColumns (tile : Nat) : Nat := 2 ^ (32 - Nat.size (tile - 1)) - 1

/-- The tile size is not the one for the weight of the block, or a column index has no
place next to the row index. -/
def wrongTile (conf : KernelConfig) (block : AtomicBlock) : Bool :=
  decide (conf.tiledBlockSize ≠ selectTileSize block.avgWeight tuning.globalVecWidth ∨
    maxColumns conf.tiledBlockSize < tuning.csr.nCols)

def lowDensity : KernelID → Bool
  | .sparseDelta16 | .sparseTiledCOO | .sparseTiledCOOUnrolled | .sparseWarpCSR => true
  | _ => false

def pruned (block : AtomicBlock) (conf : KernelConfig) : Bool :=
  let nRowsBlock := (block.endRow + 2 ^ 32 - block.startRow) % 2 ^ 32
  (block.denseHead && conf.id != .m4rm) ||
  (conf.id == .m4rm && (!block.denseHead || nRowsBlock != 8)) ||
  (decide (cpuFallbackBlockThreshold < nRowsBlock) &&
    (conf.id == .sparsePForDeltaBitExact || conf.id == .sparseGolomb)) ||
  (conf.id == .sparseWarpCSR && decide (64 < block.avgWeight)) ||
  (conf.id == .sparseTiledCOO && !block.denseHead && wrongTile tuning conf block) ||
  (conf.id == .sparseTiledCOOUnrolled && !block.denseHead && wrongTile tuning conf block) ||
  (!block.denseHead &&
    decide (block.avgWeight < if tuning.isTransposed then 8 else 16) && !lowDensity conf.id)

/-- The converter of the candidate throws: the entries of Delta-16 pass 32 bits, or the format
has no converter on the device. -/
def refuses (conf : KernelConfig) (startRow endRow : Nat) : Bool :=
  match conf.id with
  | .sparseDelta16 =>
    (tuning.csr.slice startRow ((endRow + 2 ^ 32 - startRow) % 2 ^ 32)).delta16Offsets.isNone
  | .sparsePForDeltaBitExact | .sparseGolomb => !tuning.config.allowCpuFallback
  | _ => false

/-- The candidate gets no finite time on the block: it is not timed, or its converter throws
inside the `try` of the benchmark. A block without entries is not converted. -/
def untimed (block : AtomicBlock) (conf : KernelConfig) : Bool :=
  pruned tuning block conf || (block.nnz != 0 && refuses tuning conf block.startRow block.endRow)

def benchmarkTime (block : AtomicBlock) (conf : KernelConfig) (measured : ℚ) : Binary64 :=
  if untimed tuning block conf then .infinity false
  else if block.nnz = 0 then Binary64.round (1 / 10000)
  else .finite measured

def cached (block : AtomicBlock) (conf : KernelConfig) : Bool :=
  !untimed tuning block conf && block.nnz != 0

/-! ## The dynamic program -/

def kernelOverheadMs : Binary64 := Binary64.round (1 / 20)

structure Table where
  dp : Nat → Binary64
  path : Nat → Option (Nat × Nat)

def Table.start : Table where
  dp i := if i = 0 then .finite 0 else .infinity false
  path _ := none

def Table.write (table : Table) (i : Nat) (cost : Binary64) (step : Nat × Nat) : Table where
  dp := Function.update table.dp i cost
  path := Function.update table.path i (some step)

section Solver

variable (blocks : List AtomicBlock)

def Tuning.time (b k : Nat) : Option Binary64 := do
  let block ← blocks[b]?
  let conf ← tuning.configs[k]?
  return benchmarkTime tuning block conf (tuning.measured b k)

def Tuning.addTime (k : Nat) (sum : Binary64) (b : Nat) : Option Binary64 := do
  let t ← tuning.time blocks b k
  if t = .infinity false then none else some (sum.add t)

/-- The time of candidate `k` on the blocks from `j` on and before `i`, if all of them have
one. -/
def Tuning.execTime (j i k : Nat) : Option Binary64 :=
  (List.range' j (i - j)).foldlM (tuning.addTime blocks k) (.finite 0)

def Tuning.offSize (j i k : Nat) : Bool :=
  match tuning.configs[k]?, blocks[i - 1]?, blocks[j]? with
  | some conf, some last, some first =>
    conf.id == .m4rm && (last.endRow + 2 ^ 32 - first.startRow) % 2 ^ 32 != 8
  | _, _, _ => true

def Tuning.relax (i j : Nat) (table : Table) (k : Nat) : Table :=
  if tuning.offSize blocks j i k then table
  else
    match tuning.execTime blocks j i k with
    | none => table
    | some execTime =>
      let cost := ((table.dp j).add execTime).add kernelOverheadMs
      if cost.less (table.dp i) then table.write i cost (j, k) else table

def Tuning.relaxAll (i : Nat) (table : Table) : Table :=
  (List.range i).foldl (fun table j =>
    (List.range tuning.configs.length).foldl (tuning.relax blocks i j) table) table

def Tuning.solve : Table :=
  (List.range' 1 blocks.length).foldl (fun table i => tuning.relaxAll blocks i table) .start

/-! ## One segment for all sparse rows -/

def sparseIndices : List Nat :=
  (List.range blocks.length).filter fun bi => (blocks[bi]?).any fun block => !block.denseHead

def firstSparse : Option Nat := (sparseIndices blocks).head?

/-- The time of a kernel on all sparse rows, measured where these are two blocks or more, not
empty and accepted by the converter. -/
def wholeRange (id : KernelID) (measured : Option ℚ) : Option (Nat × ℚ) := do
  let ci ← tuning.configs.findIdx? fun conf => conf.id == id
  let conf ← tuning.configs[ci]?
  let firstBi ← firstSparse blocks
  let lastBi ← (sparseIndices blocks).getLast?
  let first ← blocks[firstBi]?
  let last ← blocks[lastBi]?
  let wrNrows : Nat := (last.endRow + 2 ^ 32 - first.startRow) % 2 ^ 32
  let wrNnz : List Nat := ((blocks.drop firstBi).take (lastBi + 1 - firstBi)).map (·.nnz)
  let ms ← measured
  if firstBi < lastBi ∧ 0 < wrNrows ∧ 0 < wrNnz.sum ∧
      refuses tuning conf first.startRow last.endRow = false then return (ci, ms) else none

def bestWholeRange : Option (Nat × ℚ) :=
  match wholeRange tuning blocks .sparseDelta16 tuning.delta16Measured,
    wholeRange tuning blocks .sparseWarpCSR tuning.warpCsrMeasured with
  | some delta16, some warpCsr => some (if warpCsr.2 < delta16.2 then warpCsr else delta16)
  | some delta16, none => some delta16
  | none, warpCsr => warpCsr

def wholeRangeCost (ms : ℚ) : Binary64 := (Binary64.finite ms).add kernelOverheadMs

/-- One segment for all sparse rows costs less than the plan from the first sparse block
on. For a transposed matrix the threshold is zero. -/
def Tuning.saves (table : Table) (first : Nat) (ms : ℚ) : Bool :=
  let dpSparseCost := (table.dp blocks.length).sub (table.dp first)
  let threshold := Binary64.finite (if tuning.isTransposed then 0 else 1)
  (wholeRangeCost ms).less (dpSparseCost.mul threshold)

def Tuning.consolidate (table : Table) : Table :=
  match firstSparse blocks, bestWholeRange tuning blocks with
  | some first, some (ci, ms) =>
    if tuning.saves blocks table first ms then
      { dp := Function.update table.dp blocks.length
          ((table.dp first).add (wholeRangeCost ms))
        path := fun i =>
          if i = blocks.length then some (first, ci)
          else if first < i ∧ i < blocks.length then none
          else table.path i }
    else table
  | _, _ => table

end Solver

/-! ## The plan -/

structure SegmentRecipe where
  startRow : Nat
  endRow : Nat
  bestConfig : KernelConfig
deriving DecidableEq

/-- The segments before block `curr`, in front of those that are chosen. An unset path is
outside the list of blocks. A segment of one block takes the converted block, any other is
converted again, and a converter that throws here ends the call. -/
def backtrack (blocks : List AtomicBlock) (table : Table) :
    Nat → Nat → List SegmentRecipe → Option (List SegmentRecipe)
  | _, 0, segs => some segs
  | 0, _ + 1, _ => none
  | fuel + 1, curr + 1, segs => do
    let (prev, ki) ← table.path (curr + 1)
    let first ← blocks[prev]?
    let last ← blocks[curr]?
    let bestConfig ← tuning.configs[ki]?
    if (curr + 1 - prev == 1 && cached tuning first bestConfig) ||
        !refuses tuning bestConfig first.startRow last.endRow then
      backtrack blocks table fuel prev
        ({ startRow := first.startRow, endRow := last.endRow, bestConfig } :: segs)
    else none

def Tuning.plan (blocks : List AtomicBlock) (fuel : Nat) : Option (List SegmentRecipe) :=
  backtrack tuning blocks (tuning.consolidate blocks (tuning.solve blocks)) fuel
    blocks.length []

def Tuning.tune (fuel : Nat) : Option (List SegmentRecipe) := do
  let blocks ← createExponentialBlocks tuning.csr tuning.config.initialBlockSize.toInt
    tuning.config.maxBlockSize.toInt tuning.isTransposed fuel
  tuning.plan blocks fuel

end GPUAutoTuner

end CudaMpqs
