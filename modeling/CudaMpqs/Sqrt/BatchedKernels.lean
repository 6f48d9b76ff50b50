import CudaMpqs.Foundation.TreeReduce
import CudaMpqs.Sqrt.SquareRoot

/-! # Batched kernels of the square root step

The kernels that `ComputeXBatchedGPU` and `ComputeYBatchedGPU` of `sqrt_step.cu` launch, as
the stores and atomic additions of their threads. -/

namespace CudaMpqs.BatchedSquareRoot

open ThreadLoops TreeReduce SquareRoot

def u32 (number : Nat) : Nat := number % 2 ^ 32

/-- `BWKernelSolutionView`, without the row count, which no kernel reads. -/
structure BWKernelSolutionView where
  dData : Nat → BitVec 64
  numSolutions : Nat
  wordsPerVec : Nat

def BWKernelSolutionView.selects (solutions : BWKernelSolutionView) (solIdx relIdx : Nat) : Bool :=
  let maskWord := solutions.dData (u32 (solIdx * solutions.wordsPerVec + relIdx / 64))
  (maskWord >>> (relIdx % 64)) &&& 1 != 0

/-! ## Launches -/

def blocks (count : Nat) : Nat := u32 (count + 255) / 256

def threadIndex (blockIdx tid : Nat) : Nat := u32 (blockIdx * 256 + tid)

/-- What the blocks of a grid do. A grid that is too tall is not launched, and an empty one has
no blocks. -/
def launch {Event : Type} (gridX gridY : Nat) (block : Nat → Nat → List Event) : List Event :=
  if gridY ≤ 65535 then
    (List.range gridY).flatMap fun y => (List.range gridX).flatMap fun x => block x y
  else []

def guarded {Event : Type} (count blockIdx : Nat) (thread : Nat → List Event) : List Event :=
  (List.range 256).flatMap fun tid =>
    if threadIndex blockIdx tid < count then thread (threadIndex blockIdx tid) else []

/-! ## Products -/

def transformValues (value : Nat → UInt512) (count : Nat) : List (Nat × UInt512) :=
  launch (blocks count) 1 fun blockIdx _ => guarded count blockIdx fun idx => [(idx, value idx)]

section Products

variable (mont : Montgomery)

def montOne : UInt512 := mont.transform (UInt512.ofUInt32 1)

def transformSqrtQ (dSqrtQ : Nat → UInt512) (K : Nat) : List (Nat × UInt512) :=
  transformValues (fun idx => mont.transform (dSqrtQ idx)) K

def transformLargePrimes (dLargePrimes : Nat → BitVec 128) (K : Nat) : List (Nat × UInt512) :=
  transformValues (fun idx =>
    if 1 < dLargePrimes idx then mont.transform (UInt512.ofUInt128 (dLargePrimes idx))
    else montOne mont) K

def transformFactorBase (dFactorBase : Nat → BitVec 32) (fbSize : Nat) : List (Nat × UInt512) :=
  transformValues (fun idx => mont.transform (UInt512.ofUInt32 (dFactorBase idx))) fbSize

def chunkValue (dMont : Nat → UInt512) (solutions : BWKernelSolutionView)
    (K chunkIdx solIdx tid : Nat) : UInt512 :=
  let relIdx := threadIndex chunkIdx tid
  if relIdx < K then
    if solutions.selects solIdx relIdx then dMont relIdx else montOne mont
  else montOne mont

def computeXChunkReduce (dMont : Nat → UInt512) (solutions : BWKernelSolutionView) (K : Nat) :
    List (Nat × UInt512) :=
  launch (blocks K) solutions.numSolutions fun chunkIdx solIdx =>
    [(u32 (chunkIdx * solutions.numSolutions + solIdx),
      treeReduce mont.mul 256 (chunkValue mont dMont solutions K chunkIdx solIdx))]

def finalReduce (dPartials : Nat → UInt512) (nChunks nSolutions : Nat) (doReduce : Bool) :
    List (Nat × UInt512) :=
  launch nSolutions 1 fun solIdx _ =>
    let product := treeReduce mont.mul 256 (strideFold 256 nChunks (montOne mont) fun acc c =>
      mont.mul acc (dPartials (u32 (c * nSolutions + solIdx))))
    [(solIdx, if doReduce then mont.reduce product else product)]

end Products

/-! ## Exponents -/

structure ExponentArrays where
  dExpMatrix : Nat → BitVec 32
  dSignCounts : Nat → BitVec 32
  dExp2Accum : Nat → BitVec 32

def selectedAdds (solutions : BWKernelSolutionView) (K : Nat)
    (adds : Nat → Nat → List (Nat × BitVec 32)) : List (Nat × BitVec 32) :=
  launch (blocks K) solutions.numSolutions fun chunkIdx solIdx =>
    guarded K chunkIdx fun relIdx =>
      if solutions.selects solIdx relIdx then adds solIdx relIdx else []

/-- `AccumExponents_Parallel`. The atomic additions come in any order. -/
structure AccumExponents (solutions : BWKernelSolutionView) (batch : HostRelationBatch)
    (K fbSize : Nat) (before after : ExponentArrays) : Prop where
  signs : Added (selectedAdds solutions K fun solIdx relIdx =>
      if (batch.relation relIdx).sign != 1 then [(solIdx, 1)] else [])
    before.dSignCounts after.dSignCounts
  exp2 : Added (selectedAdds solutions K fun solIdx relIdx =>
      [(solIdx, (batch.relation relIdx).val2Exp)])
    before.dExp2Accum after.dExp2Accum
  matrix : Added (selectedAdds solutions K fun solIdx relIdx =>
      (batch.relation relIdx).factors.map fun factor =>
        (u32 (solIdx * fbSize + factor.1), factor.2.setWidth 32))
    before.dExpMatrix after.dExpMatrix

def isOdd (exponent : BitVec 32) : Bool := exponent &&& 1 != 0

section Halving

variable (arrays : ExponentArrays) (nSolutions fbSize : Nat)

def halveLaunch {Event : Type} (thread : Nat → Nat → List Event) : List Event :=
  launch (blocks fbSize) nSolutions fun blockIdx solIdx =>
    (List.range 256).flatMap fun tid => thread solIdx (threadIndex blockIdx tid)

def halveValid : List (Nat × BitVec 8) :=
  halveLaunch nSolutions fbSize fun solIdx pIdx =>
    (if pIdx = 0 then
      (if isOdd (arrays.dSignCounts solIdx) then [(solIdx, 0)] else []) ++
        (if isOdd (arrays.dExp2Accum solIdx) then [(solIdx, 0)] else [])
    else []) ++
    if pIdx < fbSize then
      if isOdd (arrays.dExpMatrix (u32 (solIdx * fbSize + pIdx))) then [(solIdx, 0)] else []
    else []

def halveExp2 : List (Nat × BitVec 32) :=
  halveLaunch nSolutions fbSize fun solIdx pIdx =>
    if pIdx = 0 then [(solIdx, arrays.dExp2Accum solIdx >>> 1)] else []

def halveMatrix : List (Nat × BitVec 32) :=
  halveLaunch nSolutions fbSize fun solIdx pIdx =>
    if pIdx < fbSize then
      let idx := u32 (solIdx * fbSize + pIdx)
      [(idx, arrays.dExpMatrix idx >>> 1)]
    else []

end Halving

structure HalveExponents (nSolutions fbSize : Nat) (before after : ExponentArrays)
    (validBefore validAfter : Nat → BitVec 8) : Prop where
  valid : Stored (halveValid before nSolutions fbSize) validBefore validAfter
  exp2 : Stored (halveExp2 before nSolutions fbSize) before.dExp2Accum after.dExp2Accum
  matrix : Stored (halveMatrix before nSolutions fbSize) before.dExpMatrix after.dExpMatrix
  signs : after.dSignCounts = before.dSignCounts

/-! ## Powers -/

section Powers

variable (mont : Montgomery)

def powerTable (base : UInt512) : Nat → UInt512
  | 0 => base
  | i + 1 => mont.mul (powerTable base i) base

def windowStep (base : UInt512) (e : BitVec 32) (pos : Nat) (result : UInt512) : UInt512 :=
  let squared := (fun result => mont.mul result result)^[4] result
  let window := (e >>> (pos - 3)) &&& 15
  if 0 < window then mont.mul squared (powerTable mont base (window.toNat - 1)) else squared

def windowLoop (base : UInt512) (e : BitVec 32) (result : UInt512) (pos : Nat) : UInt512 :=
  if 3 ≤ pos then windowLoop base e (windowStep mont base e pos result) (pos - 4) else result
termination_by pos

def windowedPow (base : UInt512) (e : BitVec 32) : UInt512 :=
  windowLoop mont base e (montOne mont) ((e.toNat.log2 + 4) / 4 * 4 - 1)

def multiplyPrime (base : UInt512) (expVal : BitVec 32) (product : UInt512) : UInt512 :=
  if expVal = 0 then product
  else if expVal = 1 then mont.mul product base
  else if expVal ≤ 16 then mont.mul product (mont.pow base (UInt512.ofUInt32 expVal))
  else mont.mul product (windowedPow mont base expVal)

def finishY (N product : UInt512) (signCount exp2Half : BitVec 32) (lpMont : UInt512) : UInt512 :=
  let signed := if signCount / 2 &&& 1 != 0 then product.negateModInplace N else product
  let doubled :=
    if 0 < exp2Half then
      mont.mul signed
        (mont.pow (mont.transform (UInt512.ofUInt32 2)) (UInt512.ofUInt32 exp2Half))
    else signed
  mont.reduce (mont.mul doubled lpMont)

def primeProduct (arrays : ExponentArrays) (dFactorBaseMont : Nat → UInt512)
    (fbSize solIdx : Nat) : UInt512 :=
  treeReduce mont.mul 256 (strideFold 256 fbSize (montOne mont) fun product p =>
    multiplyPrime mont (dFactorBaseMont p) (arrays.dExpMatrix (u32 (solIdx * fbSize + p))) product)

def batchedExponentiateY (N : UInt512) (arrays : ExponentArrays)
    (dYLpMont dFactorBaseMont : Nat → UInt512) (dValid : Nat → BitVec 8)
    (nSolutions fbSize : Nat) : List (Nat × UInt512) :=
  launch nSolutions 1 fun solIdx _ =>
    if dValid solIdx = 0 then []
    else
      [(solIdx, finishY mont N (primeProduct mont arrays dFactorBaseMont fbSize solIdx)
        (arrays.dSignCounts solIdx) (arrays.dExp2Accum solIdx) (dYLpMont solIdx))]

end Powers

/-! ## The threads of a launch -/

section Threads

variable {Event : Type} {count : Nat}

theorem blocks_eq (small : count + 255 < 2 ^ 32) : blocks count = (count + 255) / 256 := by
  rw [blocks, u32, Nat.mod_eq_of_lt small]

theorem threadIndex_eq {blockIdx tid : Nat} (inside : blockIdx < 2 ^ 24) (below : tid < 256) :
    threadIndex blockIdx tid = blockIdx * 256 + tid :=
  Nat.mod_eq_of_lt (by omega)

theorem blocks_le (count : Nat) : blocks count ≤ 2 ^ 24 := by
  have bound : u32 (count + 255) < 2 ^ 32 := Nat.mod_lt _ (by decide)
  rw [blocks]
  omega

theorem mem_launch {gridX gridY : Nat} (fits : gridY ≤ 65535) {block : Nat → Nat → List Event}
    {event : Event} : event ∈ launch gridX gridY block ↔
      ∃ y < gridY, ∃ x < gridX, event ∈ block x y := by
  simp only [launch, if_pos fits, List.mem_flatMap, List.mem_range]

theorem flatMap_threads (turns : Nat) (fits : turns ≤ 2 ^ 24) (thread : Nat → List Event) :
    ((List.range turns).flatMap fun blockIdx =>
      (List.range 256).flatMap fun tid => thread (threadIndex blockIdx tid)) =
      (List.range (turns * 256)).flatMap thread := by
  induction turns with
  | zero => rfl
  | succ turns induction =>
    have last : ((List.range 256).flatMap fun tid => thread (threadIndex turns tid)) =
        ((List.range 256).map (turns * 256 + ·)).flatMap thread := by
      rw [List.flatMap_map]
      refine List.flatMap_congr fun tid member => ?_
      rw [threadIndex_eq (by omega) (List.mem_range.mp member)]
    rw [@List.range_succ turns, List.flatMap_append, induction (by omega), List.flatMap_singleton,
      last, Nat.succ_mul, List.range_add, List.flatMap_append]

theorem flatMap_guard {total : Nat} (enough : count ≤ total) (thread : Nat → List Event) :
    ((List.range total).flatMap fun idx => if idx < count then thread idx else []) =
      (List.range count).flatMap thread := by
  obtain ⟨rest, rfl⟩ := Nat.exists_eq_add_of_le enough
  have idle : (((List.range rest).map (count + ·)).flatMap fun idx =>
      if idx < count then thread idx else []) = [] := by
    rw [List.flatMap_eq_nil_iff]
    intro idx member
    rcases List.mem_map.mp member with ⟨place, -, rfl⟩
    exact if_neg (by omega)
  rw [List.range_add, List.flatMap_append, idle, List.append_nil]
  exact List.flatMap_congr fun idx member => if_pos (List.mem_range.mp member)

theorem le_blocks (small : count + 255 < 2 ^ 32) : count ≤ blocks count * 256 := by
  rw [blocks_eq small]
  omega

theorem launch_guarded (small : count + 255 < 2 ^ 32) {gridY : Nat} (fits : gridY ≤ 65535)
    (thread : Nat → Nat → List Event) :
    launch (blocks count) gridY (fun blockIdx y => guarded count blockIdx (thread y)) =
      (List.range gridY).flatMap fun y => (List.range count).flatMap (thread y) := by
  rw [launch, if_pos fits]
  refine List.flatMap_congr fun y _ => ?_
  have threads := flatMap_threads (blocks count) (blocks_le count)
    fun idx => if idx < count then thread y idx else []
  exact threads.trans (flatMap_guard (le_blocks small) (thread y))

end Threads

/-! ## Transforms -/

theorem transformValues_stored {value before after : Nat → UInt512} {count : Nat}
    (small : count + 255 < 2 ^ 32) (stored : Stored (transformValues value count) before after) :
    ∀ idx < count, after idx = value idx := by
  intro idx inside
  have stores : transformValues value count =
      (List.range count).map fun idx => (idx, value idx) := by
    rw [transformValues, launch_guarded small (by decide), List.map_eq_flatMap]
    exact List.flatMap_singleton _ 0
  rw [stores] at stored
  apply stored.of_mem
  · exact List.mem_map.mpr ⟨idx, List.mem_range.mpr inside, rfl⟩
  · intro store member same
    rcases List.mem_map.mp member with ⟨other, -, rfl⟩
    exact congrArg value same

end CudaMpqs.BatchedSquareRoot
