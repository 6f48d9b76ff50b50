import CudaMpqs.Sqrt.BatchedExponents

/-! # The batched square root step

`ComputeXBatchedGPU` and `ComputeYBatchedGPU` of `sqrt_step.cu`, on an object that keeps the
factor base in Montgomery form between calls, against `ComputeX` and `ComputeY`. -/

namespace CudaMpqs.BatchedSquareRoot

open ThreadLoops TreeReduce SquareRoot

/-! ## The object -/

structure DeviceBuffers where
  maxK : Nat
  maxNnz : Nat
  maxFb : Nat
  maxN : Nat
  allocated : Bool
deriving DecidableEq

namespace DeviceBuffers

def largeEnough (bufs : DeviceBuffers) (K nnz fbSize n : Nat) : Bool :=
  bufs.allocated && K ≤ bufs.maxK && nnz ≤ bufs.maxNnz && fbSize ≤ bufs.maxFb && n ≤ bufs.maxN

def margin (count : Nat) : Nat := u32 (count * 3 / 2)

def reserve (bufs : DeviceBuffers) (K nnz fbSize n : Nat) : DeviceBuffers :=
  if bufs.largeEnough K nnz fbSize n then bufs
  else ⟨margin K, margin nnz, margin fbSize, margin n, true⟩

structure Hold (bufs : DeviceBuffers) (K nnz fbSize n : Nat) : Prop where
  relations : K ≤ bufs.maxK
  factors : nnz ≤ bufs.maxNnz
  base : fbSize ≤ bufs.maxFb
  solutions : n ≤ bufs.maxN
  chunks : bufs.maxK + 255 < 2 ^ 32
  partials : blocks bufs.maxK * bufs.maxN < 2 ^ 32
  matrix : bufs.maxN * bufs.maxFb < 2 ^ 32

instance (bufs : DeviceBuffers) (K nnz fbSize n : Nat) : Decidable (bufs.Hold K nnz fbSize n) :=
  decidable_of_iff (K ≤ bufs.maxK ∧ nnz ≤ bufs.maxNnz ∧ fbSize ≤ bufs.maxFb ∧ n ≤ bufs.maxN ∧
      bufs.maxK + 255 < 2 ^ 32 ∧ blocks bufs.maxK * bufs.maxN < 2 ^ 32 ∧
      bufs.maxN * bufs.maxFb < 2 ^ 32)
    ⟨fun ⟨relations, factors, base, solutions, chunks, partials, matrix⟩ =>
        ⟨relations, factors, base, solutions, chunks, partials, matrix⟩,
      fun ⟨relations, factors, base, solutions, chunks, partials, matrix⟩ =>
        ⟨relations, factors, base, solutions, chunks, partials, matrix⟩⟩

end DeviceBuffers

structure SquareRootRefinement where
  N : UInt512
  bufs : DeviceBuffers
  fbTransformed : Bool
  dFactorBaseMont : Nat → UInt512

namespace SquareRootRefinement

def new (N : UInt512) (memory : Nat → UInt512) : SquareRootRefinement :=
  ⟨N, ⟨0, 0, 0, 0, false⟩, false, memory⟩

def mont (object : SquareRootRefinement) : Montgomery := Montgomery.ofModulus object.N

/-- New arrays come with the contents of `memory`, and the factor base is transformed again. -/
def allocateDeviceBuffers (object : SquareRootRefinement) (K nnz fbSize n : Nat)
    (memory : Nat → UInt512) : SquareRootRefinement :=
  if object.bufs.largeEnough K nnz fbSize n then object
  else
    { object with
      bufs := object.bufs.reserve K nnz fbSize n
      fbTransformed := if object.bufs.allocated then false else object.fbTransformed
      dFactorBaseMont := memory }

end SquareRootRefinement

/-! ## The calls -/

section Calls

variable (solutions : BWKernelSolutionView) (batch : HostRelationBatch)

/-- A transform, the chunks and their reduction, over scratch arrays that hold anything. -/
inductive BatchedProduct (mont : Montgomery) (K : Nat) (transform : List (Nat × UInt512))
    (doReduce : Bool) : (Nat → UInt512) → Prop
  | run {scratch dMont partials dPartials output result : Nat → UInt512}
      (transformed : Stored transform scratch dMont)
      (chunks : Stored (computeXChunkReduce mont dMont solutions K) partials dPartials)
      (final : Stored (finalReduce mont dPartials (blocks K) solutions.numSolutions doReduce)
        output result) : BatchedProduct mont K transform doReduce result

inductive ComputeXBatchedGPU (object : SquareRootRefinement) :
    SquareRootRefinement → (Nat → UInt512) → Prop
  | run (memory : Nat → UInt512) {dX : Nat → UInt512}
      (product : BatchedProduct solutions object.mont (u32 batch.numRelations)
        (transformSqrtQ object.mont (fun relIdx => (batch.relation relIdx).sqrtQ)
          (u32 batch.numRelations)) true dX) :
      ComputeXBatchedGPU object
        (object.allocateDeviceBuffers (u32 batch.numRelations) (u32 batch.numFactors) 0
          solutions.numSolutions memory) dX

def cudaMemset {Value : Type} (count : Nat) (value : Value) (array : Nat → Value) : Nat → Value :=
  fun idx => if idx < count then value else array idx

def clearExponents (nSolutions fbSize : Nat) (arrays : ExponentArrays) : ExponentArrays where
  dExpMatrix := cudaMemset (nSolutions * fbSize) 0 arrays.dExpMatrix
  dSignCounts := cudaMemset nSolutions 0 arrays.dSignCounts
  dExp2Accum := cudaMemset nSolutions 0 arrays.dExp2Accum

def TransformedBase (object : SquareRootRefinement) (factorBase : List (BitVec 32))
    (after : Nat → UInt512) : Prop :=
  if object.fbTransformed then after = object.dFactorBaseMont
  else
    Stored (transformFactorBase object.mont (factorBase.getD · 0) (u32 factorBase.length))
      object.dFactorBaseMont after

inductive YKernels (mont : Montgomery) (N : UInt512) (dFactorBaseMont : Nat → UInt512)
    (K fbSize : Nat) : (Nat → UInt512) → (Nat → BitVec 8) → Prop
  | run {memory accumulated halved : ExponentArrays} {valid dValid : Nat → BitVec 8}
      {y dY dYLpMont : Nat → UInt512}
      (largePrimes : BatchedProduct solutions mont K
        (transformLargePrimes mont (fun relIdx => (batch.relation relIdx).largePrime) K) false
        dYLpMont)
      (accumulate : AccumExponents solutions batch K fbSize
        (clearExponents solutions.numSolutions fbSize memory) accumulated)
      (halve : HalveExponents solutions.numSolutions fbSize accumulated halved
        (cudaMemset solutions.numSolutions 1 valid) dValid)
      (exponentiate : Stored (batchedExponentiateY mont N halved dYLpMont dFactorBaseMont dValid
          solutions.numSolutions fbSize)
        (cudaMemset solutions.numSolutions (UInt512.ofUInt32 0) y) dY) :
      YKernels mont N dFactorBaseMont K fbSize dY dValid

/-- `ComputeYBatchedGPU` leaves an object, the values `dY` and their flags. -/
inductive ComputeYBatchedGPU (factorBase : List (BitVec 32)) (object : SquareRootRefinement) :
    SquareRootRefinement → (Nat → UInt512) → (Nat → BitVec 8) → Prop
  | run {allocated : SquareRootRefinement} (memory : Nat → UInt512)
      {dFactorBaseMont dY : Nat → UInt512} {dValid : Nat → BitVec 8}
      (buffers : allocated = object.allocateDeviceBuffers (u32 batch.numRelations)
        (u32 batch.numFactors) (u32 factorBase.length) solutions.numSolutions memory)
      (base : TransformedBase allocated factorBase dFactorBaseMont)
      (kernels : YKernels solutions batch allocated.mont allocated.N dFactorBaseMont
        (u32 batch.numRelations) (u32 factorBase.length) dY dValid) :
      ComputeYBatchedGPU factorBase object
        { allocated with fbTransformed := true, dFactorBaseMont := dFactorBaseMont } dY dValid

structure WholeArrays (batch : HostRelationBatch) : Prop where
  sqrtQ : batch.sqrtQ.length = batch.numRelations
  signs : batch.signs.length = batch.numRelations
  val2Exps : batch.val2Exps.length = batch.numRelations
  largePrimes : batch.largePrimes.length = batch.numRelations
  factorOffsets : batch.factorOffsets.length = batch.numRelations + 1
  factorIndices : batch.factorIndices.length = batch.numFactors
  factorCounts : batch.factorCounts.length = batch.numFactors
  offsetsLe : ∀ offset ∈ batch.factorOffsets, offset ≤ batch.numFactors

instance (batch : HostRelationBatch) : Decidable (WholeArrays batch) :=
  decidable_of_iff (batch.sqrtQ.length = batch.numRelations ∧
      batch.signs.length = batch.numRelations ∧ batch.val2Exps.length = batch.numRelations ∧
      batch.largePrimes.length = batch.numRelations ∧
      batch.factorOffsets.length = batch.numRelations + 1 ∧
      batch.factorIndices.length = batch.numFactors ∧
      batch.factorCounts.length = batch.numFactors ∧
      ∀ offset ∈ batch.factorOffsets, offset ≤ batch.numFactors)
    ⟨fun ⟨sqrtQ, signs, val2Exps, largePrimes, offsets, indices, counts, offsetsLe⟩ =>
        ⟨sqrtQ, signs, val2Exps, largePrimes, offsets, indices, counts, offsetsLe⟩,
      fun ⟨sqrtQ, signs, val2Exps, largePrimes, offsets, indices, counts, offsetsLe⟩ =>
        ⟨sqrtQ, signs, val2Exps, largePrimes, offsets, indices, counts, offsetsLe⟩⟩

structure Accepts (bufs : DeviceBuffers) (fbSize : Nat) : Prop where
  arrays : WholeArrays batch
  covers : Covers solutions batch
  factors : batch.numFactors < 2 ^ 32
  base : fbSize + 255 < 2 ^ 32
  hold : (bufs.reserve batch.numRelations batch.numFactors fbSize solutions.numSolutions).Hold
    batch.numRelations batch.numFactors fbSize solutions.numSolutions

instance (bufs : DeviceBuffers) (fbSize : Nat) :
    Decidable (Accepts solutions batch bufs fbSize) :=
  decidable_of_iff (WholeArrays batch ∧ Covers solutions batch ∧ batch.numFactors < 2 ^ 32 ∧
      fbSize + 255 < 2 ^ 32 ∧
      (bufs.reserve batch.numRelations batch.numFactors fbSize solutions.numSolutions).Hold
        batch.numRelations batch.numFactors fbSize solutions.numSolutions)
    ⟨fun ⟨arrays, covers, factors, base, hold⟩ => ⟨arrays, covers, factors, base, hold⟩,
      fun ⟨arrays, covers, factors, base, hold⟩ => ⟨arrays, covers, factors, base, hold⟩⟩

end Calls

inductive Reached (N : UInt512) (factorBase : List (BitVec 32)) : SquareRootRefinement → Prop
  | new (memory : Nat → UInt512) : Reached N factorBase (.new N memory)
  | allocate {object : SquareRootRefinement} (reached : Reached N factorBase object)
      (K nnz fbSize n : Nat) (memory : Nat → UInt512) :
      Reached N factorBase (object.allocateDeviceBuffers K nnz fbSize n memory)
  | computeX {object after : SquareRootRefinement} {solutions : BWKernelSolutionView}
      {batch : HostRelationBatch} {dX : Nat → UInt512} (reached : Reached N factorBase object)
      (accepts : Accepts solutions batch object.bufs 0)
      (call : ComputeXBatchedGPU solutions batch object after dX) : Reached N factorBase after
  | computeY {object after : SquareRootRefinement} {solutions : BWKernelSolutionView}
      {batch : HostRelationBatch} {dY : Nat → UInt512} {dValid : Nat → BitVec 8}
      (reached : Reached N factorBase object)
      (accepts : Accepts solutions batch object.bufs factorBase.length)
      (call : ComputeYBatchedGPU solutions batch factorBase object after dY dValid) :
      Reached N factorBase after

/-! ## The cache -/

structure Cached (N : UInt512) (factorBase : List (BitVec 32)) (object : SquareRootRefinement) :
    Prop where
  modulus : object.N = N
  allocated : object.fbTransformed → object.bufs.allocated
  base : object.fbTransformed → ∀ p < factorBase.length, object.dFactorBaseMont p =
    (Montgomery.ofModulus N).transform (UInt512.ofUInt32 (factorBase.getD p 0))

section Cache

variable {N : UInt512} {factorBase : List (BitVec 32)} {object : SquareRootRefinement}

theorem Cached.allocate (cached : Cached N factorBase object) (K nnz fbSize n : Nat)
    (memory : Nat → UInt512) :
    Cached N factorBase (object.allocateDeviceBuffers K nnz fbSize n memory) := by
  rw [SquareRootRefinement.allocateDeviceBuffers]
  split
  · exact cached
  · have stale : (if object.bufs.allocated then false else object.fbTransformed) = false := by
      split
      · rfl
      next free => exact Bool.eq_false_iff.mpr (mt cached.allocated free)
    refine ⟨cached.modulus, ?_, ?_⟩
    · rw [stale]
      exact nofun
    · rw [stale]
      exact nofun

theorem Cached.transformed (cached : Cached N factorBase object)
    (small : factorBase.length + 255 < 2 ^ 32) {dFactorBaseMont : Nat → UInt512}
    (base : TransformedBase object factorBase dFactorBaseMont) :
    ∀ p < factorBase.length, dFactorBaseMont p =
      (Montgomery.ofModulus N).transform (UInt512.ofUInt32 (factorBase.getD p 0)) := by
  rw [TransformedBase] at base
  split at base
  next kept =>
      rw [base]
      exact cached.base kept
  next =>
      have size : u32 factorBase.length = factorBase.length := Nat.mod_eq_of_lt (by omega)
      rw [size, transformFactorBase, SquareRootRefinement.mont, cached.modulus] at base
      exact transformValues_stored small base

private theorem allocate_allocated (K nnz fbSize n : Nat) (memory : Nat → UInt512) :
    (object.allocateDeviceBuffers K nnz fbSize n memory).bufs.allocated := by
  rw [SquareRootRefinement.allocateDeviceBuffers]
  split
  next enough =>
      simp only [DeviceBuffers.largeEnough, Bool.and_eq_true] at enough
      exact enough.1.1.1.1
  next less =>
      dsimp only
      rw [DeviceBuffers.reserve, if_neg less]

theorem Reached.cached (reached : Reached N factorBase object) : Cached N factorBase object := by
  induction reached with
  | new memory => exact ⟨rfl, nofun, nofun⟩
  | allocate _ K nnz fbSize n memory cached => exact cached.allocate K nnz fbSize n memory
  | computeX _ _ call cached =>
    cases call with
    | run memory product => exact cached.allocate _ _ _ _ memory
  | @computeY _ _ solutions batch _ _ _ accepts call cached =>
    cases call with
    | run memory buffers base kernels =>
      subst buffers
      have kept := cached.allocate (u32 batch.numRelations) (u32 batch.numFactors)
        (u32 factorBase.length) solutions.numSolutions memory
      exact ⟨kept.modulus, fun _ => allocate_allocated _ _ _ _ memory,
        fun _ => kept.transformed accepts.base base⟩

end Cache

/-! ## One call -/

section Call

variable {N : UInt512} {factorBase : List (BitVec 32)} {object after : SquareRootRefinement}
  {solutions : BWKernelSolutionView} {batch : HostRelationBatch} {solIdx : Nat}
variable {bufs : DeviceBuffers} {fbSize : Nat}

section

variable (accepts : Accepts solutions batch bufs fbSize)

include accepts

theorem Accepts.partials : blocks batch.numRelations * solutions.numSolutions ≤ 2 ^ 32 := by
  have hold := accepts.hold
  have chunks : blocks batch.numRelations ≤
      blocks (bufs.reserve batch.numRelations batch.numFactors fbSize
        solutions.numSolutions).maxK := by
    rw [blocks_eq accepts.covers.relations, blocks_eq hold.chunks]
    have more := hold.relations
    omega
  exact (Nat.mul_le_mul chunks hold.solutions).trans hold.partials.le

theorem Accepts.matrix : solutions.numSolutions * fbSize ≤ 2 ^ 32 :=
  (Nat.mul_le_mul accepts.hold.solutions accepts.hold.base).trans accepts.hold.matrix.le

theorem Accepts.u32_relations : u32 batch.numRelations = batch.numRelations := by
  have small := accepts.covers.relations
  exact Nat.mod_eq_of_lt (by omega)

theorem Accepts.u32_base : u32 fbSize = fbSize := by
  have small := accepts.base
  exact Nat.mod_eq_of_lt (by omega)

end

variable {mont : Montgomery}

theorem batchedProduct_represents (valid : mont.Valid)
    (accepts : Accepts solutions batch bufs fbSize) {doReduce : Bool} {value result : Nat → UInt512}
    (root : Relation → Nat)
    (each : ∀ relIdx, mont.Represents (value relIdx) (root (batch.relation relIdx)))
    (product : BatchedProduct solutions mont batch.numRelations
      (transformValues value batch.numRelations) doReduce result)
    (solution : solIdx < solutions.numSolutions) :
    ∃ number, mont.Represents number ((solutionRows solutions batch solIdx).map fun row =>
          (root row : ZMod mont.N.toNat)).prod ∧
      result solIdx = if doReduce then mont.reduce number else number := by
  cases product with
  | run transformed chunks final =>
    have values := transformValues_stored accepts.covers.relations transformed
    have whole := reductions_represent valid
      (fun relIdx inside => (values relIdx inside).symm ▸ each relIdx)
      accepts.covers.relations accepts.covers.tall accepts.partials chunks final solution
    rwa [solutionRows_eq solution accepts.covers.words accepts.covers.bits, List.map_map,
      prod_filter_range]

theorem reduce_eq_of_cast (valid : mont.Valid) {a b : UInt512}
    (same : ((mont.reduce a).toNat : ZMod mont.N.toNat) = (mont.reduce b).toNat) :
    mont.reduce a = mont.reduce b :=
  UInt512.toNat_injective (Nat.ModEq.eq_of_lt_of_lt
    ((ZMod.natCast_eq_natCast_iff _ _ _).mp same) (valid.reduce_spec a).1 (valid.reduce_spec b).1)

theorem computeXBatchedGPU_eq (odd : N.toNat % 2 = 1) (modulus : object.N = N)
    (accepts : Accepts solutions batch object.bufs 0) {dX : Nat → UInt512}
    (call : ComputeXBatchedGPU solutions batch object after dX)
    (solution : solIdx < solutions.numSolutions) :
    dX solIdx = computeX (solutionMask solutions batch solIdx) batch (.ofModulus N) := by
  have valid := Montgomery.ofModulus_valid odd
  cases call with
  | run memory product =>
    rw [accepts.u32_relations, SquareRootRefinement.mont, modulus] at product
    rcases batchedProduct_represents valid accepts (fun row => row.sqrtQ.toNat)
      (fun relIdx => valid.represents_transform _) product solution with
      ⟨number, represents, value⟩
    rw [value, if_pos rfl]
    apply reduce_eq_of_cast valid
    have sequential := computeX_cast valid (solutionMask solutions batch solIdx) batch
    exact (represents.reduce valid).trans sequential.symm

/-! ### Y -/

section Kernels

variable {arrays : ExponentArrays} {lp dFactorBaseMont before dY : Nat → UInt512}
  {dValid : Nat → BitVec 8} {nSolutions : Nat}

theorem exponentiateY_of_invalid (stored : Stored (batchedExponentiateY mont mont.N arrays lp
      dFactorBaseMont dValid nSolutions fbSize) before dY)
    (invalid : dValid solIdx = 0) : dY solIdx = before solIdx := by
  apply stored.of_notMem
  intro store member same
  rcases (mem_launch (by decide)).mp member with ⟨-, -, other, -, member⟩
  split at member
  · exact absurd member List.not_mem_nil
  next flagged =>
      obtain rfl := List.mem_singleton.mp member
      obtain rfl : other = solIdx := same
      exact flagged invalid

theorem exponentiateY_of_valid
    (stored : Stored (batchedExponentiateY mont mont.N arrays lp dFactorBaseMont dValid nSolutions
      fbSize) before dY) (solution : solIdx < nSolutions) (flagged : dValid solIdx ≠ 0) :
    dY solIdx = finishY mont mont.N (primeProduct mont arrays dFactorBaseMont fbSize solIdx)
      (arrays.dSignCounts solIdx) (arrays.dExp2Accum solIdx) (lp solIdx) := by
  have flat : 1 ≤ 65535 := by decide
  apply stored.of_mem
  · refine (mem_launch flat).mpr ⟨0, Nat.one_pos, solIdx, solution, ?_⟩
    rw [if_neg flagged]
    exact List.mem_singleton.mpr rfl
  · intro store member same
    rcases (mem_launch flat).mp member with ⟨-, -, other, -, member⟩
    split at member
    · exact absurd member List.not_mem_nil
    · obtain rfl := List.mem_singleton.mp member
      obtain rfl : other = solIdx := same
      dsimp only

theorem primeProduct_represents (valid : mont.Valid) (fits : nSolutions * fbSize ≤ 2 ^ 32)
    {prime : Nat → BitVec 32} (primes : ∀ p < fbSize,
      dFactorBaseMont p = mont.transform (UInt512.ofUInt32 (prime p)))
    (solution : solIdx < nSolutions) :
    mont.Represents (primeProduct mont arrays dFactorBaseMont fbSize solIdx)
      (∏ p ∈ Finset.range fbSize, ((prime p).toNat : ZMod mont.N.toNat) ^
        (arrays.dExpMatrix (solIdx * fbSize + p)).toNat) := by
  refine treeReduce_strideFold_stands (fun a b left right => Montgomery.Represents.mul valid)
    valid.represents_one (show 256 = 2 ^ 8 by decide) fun p place product left represents => ?_
  rw [u32_flat fits solution place, primes p place]
  exact multiplyPrime_represents valid (prime p) _ represents

end Kernels

theorem clearExponents_cleared (nSolutions fbSize : Nat) (arrays : ExponentArrays) :
    Cleared nSolutions fbSize (clearExponents nSolutions fbSize arrays) where
  signs _ inside := if_pos inside
  exp2 _ inside := if_pos inside
  matrix _ inside := if_pos inside

structure SolvedY (factorBase : List (BitVec 32)) (solutions : BWKernelSolutionView)
    (batch : HostRelationBatch) (mont : Montgomery) (dY : Nat → UInt512) (dValid : Nat → BitVec 8)
    (solIdx : Nat) : Prop where
  even : EvenSelection factorBase (solutionRows solutions batch solIdx) → dValid solIdx = 1 ∧
      dY solIdx = computeY (solutionMask solutions batch solIdx) batch factorBase mont
  odd : ¬ EvenSelection factorBase (solutionRows solutions batch solIdx) →
    dValid solIdx = 0 ∧ dY solIdx = UInt512.ofUInt32 0

theorem largePrime_represents (valid : mont.Valid) (row : Relation) : mont.Represents
      (if 1 < row.largePrime then mont.transform (UInt512.ofUInt128 row.largePrime)
      else montOne mont) (largePrimeRoot row : Nat) := by
  rw [largePrimeRoot]
  split
  · have term := valid.represents_transform (UInt512.ofUInt128 row.largePrime)
    rwa [UInt512.toNat_ofUInt128] at term
  · rw [Nat.cast_one]
    exact valid.represents_one

variable {dValid : Nat → BitVec 8}

theorem yKernels_solved (valid : mont.Valid)
    (accepts : Accepts solutions batch bufs factorBase.length) (nonempty : 0 < factorBase.length)
    (inside : InsideBase solutions batch factorBase.length) {dFactorBaseMont dY : Nat → UInt512}
    (primes : ∀ p < factorBase.length,
      dFactorBaseMont p = mont.transform (UInt512.ofUInt32 (factorBase.getD p 0)))
    (kernels : YKernels solutions batch mont mont.N dFactorBaseMont batch.numRelations
      factorBase.length dY dValid)
    (solution : solIdx < solutions.numSolutions) :
    SolvedY factorBase solutions batch mont dY dValid solIdx := by
  cases kernels with
  | @run memory accumulated halved valid' dValid y dY dYLpMont largePrimes accumulate halve
      exponentiate =>
      have totals := accumExponents_totals accepts.covers accepts.matrix inside
        (clearExponents_cleared _ _ _) accumulate
      have half := halveExponents_halved accepts.covers.tall accepts.matrix accepts.base nonempty
        halve solution
      have parity := totals.oddSolution_iff solution
      refine ⟨fun even => ?_, fun uneven => ?_⟩
      · have flag : dValid solIdx = 1 := by
          rw [half.even (mt parity.mp (not_not_intro even)), cudaMemset, if_pos solution]
        refine ⟨flag, ?_⟩
        rcases batchedProduct_represents valid accepts largePrimeRoot
          (fun relIdx => largePrime_represents valid (batch.relation relIdx)) largePrimes
          solution with ⟨number, represents, held⟩
        have primeRoots := @primeProduct_represents solIdx _ mont halved dFactorBaseMont _ valid
          accepts.matrix _ primes solution
        rw [exponentiateY_of_valid exponentiate solution (by rw [flag]; decide), half.signs,
          totals.signs solIdx solution, half.exp2, totals.exp2 solIdx solution, held]
        apply reduce_eq_of_cast valid
        have batched := finishY_cast valid primeRoots represents
          (signTotal (solutionRows solutions batch solIdx))
          ((val2Total (solutionRows solutions batch solIdx) : BitVec 32) >>> 1)
        have sequential := computeY_cast valid (solutionMask solutions batch solIdx) batch
          factorBase
        have roots : ∏ p ∈ Finset.range factorBase.length,
            ((factorBase.getD p 0).toNat : ZMod mont.N.toNat) ^
              (halved.dExpMatrix (solIdx * factorBase.length + p)).toNat =
            ((List.range factorBase.length).map fun p =>
              (primeAt factorBase p : ZMod mont.N.toNat) ^
              (exponentTotal (allFactors (solutionRows solutions batch solIdx)) p % 2 ^ 32 /
                2)).prod := by
          refine congrArg List.prod (List.map_congr_left fun p member => ?_)
          have place := List.mem_range.mp member
          rw [half.matrix p place, totals.matrix solIdx solution p place, toNat_half, primeAt,
            List.getD_eq_getElem _ _ place, List.getD_eq_getElem _ _ place]
        rw [roots, toNat_half] at batched
        refine batched.trans (Eq.trans ?_ sequential.symm)
        rw [mul_comm (List.prod _), mul_right_comm ((-1) ^ _)]
        rfl
      · have flag := half.odd (parity.mpr uneven)
        refine ⟨flag, ?_⟩
        rw [exponentiateY_of_invalid exponentiate flag, cudaMemset, if_pos solution]

theorem kernels_of_call (cached : Cached N factorBase object)
    (accepts : Accepts solutions batch object.bufs factorBase.length) {dY : Nat → UInt512}
    (call : ComputeYBatchedGPU solutions batch factorBase object after dY dValid) :
    ∃ dFactorBaseMont, (∀ p < factorBase.length, dFactorBaseMont p =
        (Montgomery.ofModulus N).transform (UInt512.ofUInt32 (factorBase.getD p 0))) ∧
      YKernels solutions batch (.ofModulus N) N dFactorBaseMont batch.numRelations
        factorBase.length dY dValid := by
  cases call with
  | run memory buffers base kernels =>
    subst buffers
    have kept := cached.allocate (u32 batch.numRelations) (u32 batch.numFactors)
      (u32 factorBase.length) solutions.numSolutions memory
    rw [SquareRootRefinement.mont, kept.modulus, accepts.u32_relations, accepts.u32_base]
      at kernels
    exact ⟨_, kept.transformed accepts.base base, kernels⟩

theorem computeYBatchedGPU_solved (odd : N.toNat % 2 = 1) (cached : Cached N factorBase object)
    (accepts : Accepts solutions batch object.bufs factorBase.length)
    (nonempty : 0 < factorBase.length) (inside : InsideBase solutions batch factorBase.length)
    {dY : Nat → UInt512}
    (call : ComputeYBatchedGPU solutions batch factorBase object after dY dValid)
    (solution : solIdx < solutions.numSolutions) :
    SolvedY factorBase solutions batch (.ofModulus N) dY dValid solIdx := by
  rcases kernels_of_call cached accepts call with ⟨dFactorBaseMont, primes, kernels⟩
  exact yKernels_solved (Montgomery.ofModulus_valid odd) accepts nonempty inside primes kernels
    solution

end Call

/-! ## Every call -/

section Runs

variable (solutions : BWKernelSolutionView) (batch : HostRelationBatch)

theorem exists_batchedProduct (mont : Montgomery) (K : Nat) (transform : List (Nat × UInt512))
    (doReduce : Bool) : ∃ result, BatchedProduct solutions mont K transform doReduce result := by
  rcases exists_stored transform fun _ => montOne mont with ⟨dMont, transformed⟩
  rcases exists_stored (computeXChunkReduce mont dMont solutions K) dMont with
    ⟨dPartials, chunks⟩
  rcases exists_stored (finalReduce mont dPartials (blocks K) solutions.numSolutions doReduce)
    dMont with ⟨result, final⟩
  exact ⟨result, .run transformed chunks final⟩

theorem exists_accumExponents (K fbSize : Nat) (before : ExponentArrays) :
    ∃ after, AccumExponents solutions batch K fbSize before after := by
  rcases exists_added (selectedAdds solutions K _) before.dSignCounts with ⟨signs, signsAdded⟩
  rcases exists_added (selectedAdds solutions K _) before.dExp2Accum with ⟨exp2, exp2Added⟩
  rcases exists_added (selectedAdds solutions K _) before.dExpMatrix with ⟨matrix, matrixAdded⟩
  exact ⟨⟨matrix, signs, exp2⟩, signsAdded, exp2Added, matrixAdded⟩

theorem exists_halveExponents (nSolutions fbSize : Nat) (before : ExponentArrays)
    (valid : Nat → BitVec 8) :
    ∃ after dValid, HalveExponents nSolutions fbSize before after valid dValid := by
  rcases exists_stored (halveValid before nSolutions fbSize) valid with ⟨dValid, flags⟩
  rcases exists_stored (halveExp2 before nSolutions fbSize) before.dExp2Accum with ⟨exp2, twos⟩
  rcases exists_stored (halveMatrix before nSolutions fbSize) before.dExpMatrix with
    ⟨matrix, primes⟩
  exact ⟨⟨matrix, before.dSignCounts, exp2⟩, dValid, flags, twos, primes, rfl⟩

theorem exists_computeX (object : SquareRootRefinement) :
    ∃ after dX, ComputeXBatchedGPU solutions batch object after dX := by
  rcases exists_batchedProduct solutions object.mont (u32 batch.numRelations) _ true with
    ⟨dX, product⟩
  exact ⟨_, dX, .run object.dFactorBaseMont product⟩

theorem exists_computeY (factorBase : List (BitVec 32)) (object : SquareRootRefinement) :
    ∃ after dY dValid, ComputeYBatchedGPU solutions batch factorBase object after dY dValid := by
  let allocated := object.allocateDeviceBuffers (u32 batch.numRelations) (u32 batch.numFactors)
    (u32 factorBase.length) solutions.numSolutions object.dFactorBaseMont
  have cache : ∃ dFactorBaseMont, TransformedBase allocated factorBase dFactorBaseMont := by
    by_cases transformed : allocated.fbTransformed = true
    · exact ⟨_, by rw [TransformedBase, if_pos transformed]⟩
    · rcases exists_stored (transformFactorBase allocated.mont (factorBase.getD · 0)
        (u32 factorBase.length)) allocated.dFactorBaseMont with ⟨after, stored⟩
      exact ⟨after, by rwa [TransformedBase, if_neg transformed]⟩
  rcases cache with ⟨dFactorBaseMont, base⟩
  rcases exists_batchedProduct solutions allocated.mont (u32 batch.numRelations) _ false with
    ⟨dYLpMont, largePrimes⟩
  rcases exists_accumExponents solutions batch (u32 batch.numRelations) (u32 factorBase.length)
    (clearExponents solutions.numSolutions (u32 factorBase.length)
      ⟨fun _ => 0, fun _ => 0, fun _ => 0⟩) with ⟨accumulated, accumulate⟩
  rcases exists_halveExponents solutions.numSolutions (u32 factorBase.length) accumulated
    (cudaMemset solutions.numSolutions 1 fun _ => 0) with ⟨halved, dValid, halve⟩
  rcases exists_stored (batchedExponentiateY allocated.mont allocated.N halved dYLpMont
    dFactorBaseMont dValid solutions.numSolutions (u32 factorBase.length))
    (cudaMemset solutions.numSolutions (UInt512.ofUInt32 0) dYLpMont) with ⟨dY, exponentiate⟩
  exact ⟨_, dY, dValid, .run object.dFactorBaseMont rfl base
    (.run largePrimes accumulate halve exponentiate)⟩

end Runs

/-- A call of `ComputeXBatchedGPU` yields what `ComputeX` does. A call of `ComputeYBatchedGPU`
yields what `ComputeY` does for a selection with even exponents; it flags the others, and leaves
zero for them. -/
theorem batched_eq_sequential {N : UInt512} (odd : N.toNat % 2 = 1)
    {factorBase : List (BitVec 32)} {object : SquareRootRefinement}
    (reached : Reached N factorBase object) (solutions : BWKernelSolutionView)
    (batch : HostRelationBatch) :
    (Accepts solutions batch object.bufs 0 →
      (∃ after dX, ComputeXBatchedGPU solutions batch object after dX) ∧
      ∀ after dX, ComputeXBatchedGPU solutions batch object after dX →
        ∀ solIdx < solutions.numSolutions,
          dX solIdx = computeX (solutionMask solutions batch solIdx) batch (.ofModulus N)) ∧
    (Accepts solutions batch object.bufs factorBase.length → 0 < factorBase.length →
      InsideBase solutions batch factorBase.length →
      (∃ after dY dValid, ComputeYBatchedGPU solutions batch factorBase object after dY dValid) ∧
      ∀ after dY dValid, ComputeYBatchedGPU solutions batch factorBase object after dY dValid →
        ∀ solIdx < solutions.numSolutions,
          (EvenSelection factorBase (solutionRows solutions batch solIdx) →
            dValid solIdx = 1 ∧ dY solIdx =
              computeY (solutionMask solutions batch solIdx) batch factorBase (.ofModulus N)) ∧
          (¬ EvenSelection factorBase (solutionRows solutions batch solIdx) →
            dValid solIdx = 0 ∧ dY solIdx = UInt512.ofUInt32 0)) := by
  have cached := reached.cached
  constructor
  · intro accepts
    refine ⟨exists_computeX solutions batch object, fun after dX call solIdx solution => ?_⟩
    exact computeXBatchedGPU_eq odd cached.modulus accepts call solution
  · intro accepts nonempty inside
    refine ⟨exists_computeY solutions batch factorBase object, ?_⟩
    intro after dY dValid call solIdx solution
    have solved := computeYBatchedGPU_solved odd cached accepts nonempty inside call solution
    exact ⟨solved.even, solved.odd⟩

def firstSelected (nSolutions : Nat) : BWKernelSolutionView :=
  ⟨fun word => if word = 0 then 1 else 0, nSolutions, 1⟩

def fresh : SquareRootRefinement := .new (UInt512.ofUInt32 77) fun _ => UInt512.ofUInt32 0

def manyBatch : HostRelationBatch where
  sqrtQ := List.replicate 257 (UInt512.ofUInt32 15)
  signs := 0 :: List.replicate 255 1 ++ [0]
  val2Exps := 1 :: List.replicate 255 0 ++ [1]
  largePrimes := 0 :: List.replicate 255 5 ++ [0]
  charBits := []
  factorOffsets := List.range 258
  factorIndices := List.replicate 257 1
  factorCounts := 1 :: List.replicate 255 2 ++ [1]
  numRelations := 257
  numFactors := 257

def twoSolutions : BWKernelSolutionView where
  dData word := [1, 0, 0, 0, 1, 2, 4, 0, 0, 0].getD word 0
  numSolutions := 2
  wordsPerVec := 5

theorem batched_eq_sequential_combined :
    (∃ after dX, ComputeXBatchedGPU twoSolutions manyBatch fresh after dX ∧
      ∀ solIdx < 2, dX solIdx = computeX (solutionMask twoSolutions manyBatch solIdx) manyBatch
        (.ofModulus (UInt512.ofUInt32 77))) ∧
    ∃ after dY dValid, ComputeYBatchedGPU twoSolutions manyBatch [2, 3] fresh after dY dValid ∧
        ∀ solIdx < 2, dValid solIdx = 1 ∧
          dY solIdx = computeY (solutionMask twoSolutions manyBatch solIdx) manyBatch [2, 3]
            (.ofModulus (UInt512.ofUInt32 77)) := by
  have reached : Reached (UInt512.ofUInt32 77) [2, 3] fresh := .new _
  have law := batched_eq_sequential (by decide) reached twoSolutions manyBatch
  have even : ∀ solIdx < 2, Even (signTotal (solutionRows twoSolutions manyBatch solIdx)) ∧
        Even (val2Total (solutionRows twoSolutions manyBatch solIdx)) ∧
          ∀ idx < 2, Even (exponentTotal (allFactors
            (solutionRows twoSolutions manyBatch solIdx)) idx) := by
    decide +kernel
  rcases law.1 (by decide +kernel) with ⟨⟨after, dX, callX⟩, everyX⟩
  rcases law.2 (by decide +kernel) (by decide) (by decide +kernel) with
    ⟨⟨last, dY, dValid, callY⟩, everyY⟩
  refine ⟨⟨after, dX, callX, everyX after dX callX⟩, last, dY, dValid, callY, ?_⟩
  intro solIdx solution
  obtain ⟨sign, val2, exponent⟩ := even solIdx solution
  exact (everyY last dY dValid callY solIdx solution).1 ⟨sign, val2, exponent⟩

/-! ## Where the two differ -/

/-- Every accepted call that meets the condition for a solution computes what `ComputeY` does. -/
def Agrees (condition : List (BitVec 32) → BWKernelSolutionView → HostRelationBatch → Nat → Prop) :
    Prop :=
  ∀ (N : UInt512) (factorBase : List (BitVec 32)) (object after : SquareRootRefinement)
    (solutions : BWKernelSolutionView) (batch : HostRelationBatch) (dY : Nat → UInt512)
    (dValid : Nat → BitVec 8), N.toNat % 2 = 1 → Reached N factorBase object →
    Accepts solutions batch object.bufs factorBase.length →
    ComputeYBatchedGPU solutions batch factorBase object after dY dValid →
    ∀ solIdx < solutions.numSolutions, condition factorBase solutions batch solIdx →
      dY solIdx = computeY (solutionMask solutions batch solIdx) batch factorBase (.ofModulus N)

/-- Every call of `ComputeXBatchedGPU` on a view with enough words, however many of them. -/
def WrappedAgrees : Prop :=
  ∀ (object after : SquareRootRefinement) (solutions : BWKernelSolutionView)
    (batch : HostRelationBatch) (dX : Nat → UInt512), object.N.toNat % 2 = 1 →
    WholeArrays batch → solutions.numSolutions ≤ 65535 →
    batch.numRelations ≤ 64 * solutions.wordsPerVec →
    ComputeXBatchedGPU solutions batch object after dX →
    ∀ solIdx < solutions.numSolutions,
      dX solIdx = computeX (solutionMask solutions batch solIdx) batch (.ofModulus object.N)

def StaleAgrees : Prop :=
  ∀ (N : UInt512) (earlier factorBase : List (BitVec 32)) (object after : SquareRootRefinement)
    (solutions : BWKernelSolutionView) (batch : HostRelationBatch) (dY : Nat → UInt512)
    (dValid : Nat → BitVec 8), N.toNat % 2 = 1 → Reached N earlier object →
    Accepts solutions batch object.bufs factorBase.length →
    ComputeYBatchedGPU solutions batch factorBase object after dY dValid →
    ∀ solIdx < solutions.numSolutions, 0 < factorBase.length →
      InsideBase solutions batch factorBase.length →
      EvenSelection factorBase (solutionRows solutions batch solIdx) →
      dY solIdx = computeY (solutionMask solutions batch solIdx) batch factorBase (.ofModulus N)

section Differences

def negativeBatch : HostRelationBatch :=
  HostRelationBatch.empty.push ⟨UInt512.ofUInt32 15, 0, 0, 0, 0, []⟩

/-- One relation with a factor outside a factor base of one prime. -/
def outsideBatch : HostRelationBatch :=
  HostRelationBatch.empty.push ⟨UInt512.ofUInt32 15, 1, 0, 0, 0, [(1, 1)]⟩

def evenBatch : HostRelationBatch :=
  HostRelationBatch.empty.push ⟨UInt512.ofUInt32 2, 1, 2, 0, 0, []⟩

theorem valid_fresh : fresh.mont.Valid := Montgomery.ofModulus_valid (by decide)

theorem natCast_fresh_ne {left right : Nat} (leftBelow : left < 77) (rightBelow : right < 77)
    (different : left ≠ right) : (left : ZMod fresh.mont.N.toNat) ≠ right := by
  have modulus : fresh.mont.N.toNat = 77 := UInt512.toNat_ofUInt32 77
  intro same
  have congruent := (ZMod.natCast_eq_natCast_iff _ _ _).mp same
  rw [modulus] at congruent
  exact different (Nat.ModEq.eq_of_lt_of_lt congruent leftBelow rightBelow)

def naturalRoot (factorBase : List (BitVec 32)) (rows : List Relation) : Nat :=
  2 ^ (val2Total rows % 2 ^ 32 / 2) * ((List.range factorBase.length).map fun idx =>
      primeAt factorBase idx ^ (exponentTotal (allFactors rows) idx % 2 ^ 32 / 2)).prod *
    (rows.map largePrimeRoot).prod

theorem computeY_naturalRoot {solutions : BWKernelSolutionView} {batch : HostRelationBatch}
    {factorBase : List (BitVec 32)} {solIdx root : Nat}
    (signs : signTotal (solutionRows solutions batch solIdx) / 2 = 0)
    (value : naturalRoot factorBase (solutionRows solutions batch solIdx) = root) :
    ((computeY (solutionMask solutions batch solIdx) batch factorBase fresh.mont).toNat :
      ZMod fresh.mont.N.toNat) = root := by
  rw [computeY_cast valid_fresh]
  rw [solutionRows] at signs value
  rw [signs, ← value, naturalRoot, pow_zero, one_mul]
  push_cast [List.map_map, Function.comp_def]
  rfl

theorem not_agrees_odd : ¬ Agrees fun factorBase solutions batch _ =>
      0 < factorBase.length ∧ InsideBase solutions batch factorBase.length := by
  intro agrees
  have reached : Reached (UInt512.ofUInt32 77) [3] fresh := .new _
  have accepts : Accepts (firstSelected 1) negativeBatch fresh.bufs 1 := by decide
  have inside : InsideBase (firstSelected 1) negativeBatch 1 := by decide
  rcases exists_computeY (firstSelected 1) negativeBatch [3] fresh with ⟨after, dY, dValid, call⟩
  have equal := agrees _ _ _ _ _ _ dY dValid (by decide) reached accepts call 0 (by decide)
    ⟨by decide, inside⟩
  have solved := computeYBatchedGPU_solved (by decide) reached.cached accepts (by decide) inside
    call (show 0 < 1 by decide)
  have uneven : ¬ EvenSelection [3] (solutionRows (firstSelected 1) negativeBatch 0) :=
    fun even => absurd even.sign (by decide)
  have root : ((dY 0).toNat : ZMod fresh.mont.N.toNat) = (1 : Nat) := by
    rw [equal]
    exact computeY_naturalRoot (by decide) (by decide)
  rw [(solved.odd uneven).2] at root
  exact natCast_fresh_ne (by decide) (by decide) (by decide) root

theorem not_agrees_outside : ¬ Agrees fun factorBase solutions batch solIdx =>
      0 < factorBase.length ∧ EvenSelection factorBase (solutionRows solutions batch solIdx) := by
  intro agrees
  have reached : Reached (UInt512.ofUInt32 77) [3] fresh := .new _
  have accepts : Accepts (firstSelected 2) outsideBatch fresh.bufs 1 := by decide
  rcases exists_computeY (firstSelected 2) outsideBatch [3] fresh with ⟨after, dY, dValid, call⟩
  have even : EvenSelection [3] (solutionRows (firstSelected 2) outsideBatch 1) :=
    ⟨by decide, by decide, by decide⟩
  have equal := agrees _ _ _ _ _ _ dY dValid (by decide) reached accepts call 1 (by decide)
    ⟨by decide, even⟩
  have root : ((dY 1).toNat : ZMod fresh.mont.N.toNat) = (1 : Nat) := by
    rw [equal]
    exact computeY_naturalRoot (by decide) (by decide)
  have zero : dY 1 = UInt512.ofUInt32 0 := by
    rcases kernels_of_call reached.cached accepts call with ⟨_, -, kernels⟩
    cases kernels with
    | @run memory accumulated _ _ _ _ _ _ largePrimes accumulate halve exponentiate =>
      have counted : accumulated.dExpMatrix (1 * 1 + 0) = 1 := by
        have first : 0 < 2 := by decide
        rw [selectedAdds_apply accepts.covers.relations accepts.covers.tall accumulate.matrix
          first (by decide)]
        exact (congrArg (· + _) ((clearExponents_cleared 2 1 memory).matrix 1 (by decide))).trans
          (by decide)
      have half := halveExponents_halved accepts.covers.tall accepts.matrix accepts.base
        (by decide) halve (show 1 < 2 by decide)
      have flag := half.odd (Or.inr (Or.inr ⟨0, by decide, by rw [counted]; decide⟩))
      rw [exponentiateY_of_invalid exponentiate flag, cudaMemset, if_pos (by decide)]
  rw [zero] at root
  exact natCast_fresh_ne (by decide) (by decide) (by decide) root

theorem not_agrees_empty : ¬ Agrees fun factorBase solutions batch solIdx =>
      InsideBase solutions batch factorBase.length ∧
        EvenSelection factorBase (solutionRows solutions batch solIdx) := by
  intro agrees
  have reached : Reached (UInt512.ofUInt32 77) [] fresh := .new _
  have accepts : Accepts (firstSelected 1) evenBatch fresh.bufs 0 := by decide
  have inside : InsideBase (firstSelected 1) evenBatch 0 := by decide
  rcases exists_computeY (firstSelected 1) evenBatch [] fresh with ⟨after, dY, dValid, call⟩
  have even : EvenSelection [] (solutionRows (firstSelected 1) evenBatch 0) :=
    ⟨by decide, by decide, by decide⟩
  have equal := agrees _ _ _ _ _ _ dY dValid (by decide) reached accepts call 0 (by decide)
    ⟨inside, even⟩
  have root : ((dY 0).toNat : ZMod fresh.mont.N.toNat) = (2 : Nat) := by
    rw [equal]
    exact computeY_naturalRoot (by decide) (by decide)
  have solution : 0 < 1 := by decide
  have batched : ((dY 0).toNat : ZMod fresh.mont.N.toNat) = (4 : Nat) := by
    rcases kernels_of_call reached.cached accepts call with
      ⟨dFactorBaseMont, primes, kernels⟩
    cases kernels with
    | @run memory accumulated halved valid dValid _ _ _ largePrimes accumulate halve exponentiate =>
      have totals := accumExponents_totals accepts.covers accepts.matrix inside
        (clearExponents_cleared _ _ _) accumulate
      have idle {Event : Type} (thread : Nat → Nat → List Event) :
          halveLaunch 1 0 thread = [] := rfl
      have flag : dValid 0 = 1 := by
        refine (halve.valid.of_notMem fun store member => ?_).trans (if_pos solution)
        rw [halveValid] at member
        exact absurd member List.not_mem_nil
      have twos : halved.dExp2Accum 0 = 2 := by
        refine (halve.exp2.of_notMem fun store member => ?_).trans
          ((totals.exp2 0 solution).trans (by decide))
        exact absurd member List.not_mem_nil
      rcases batchedProduct_represents valid_fresh accepts largePrimeRoot
        (fun relIdx => largePrime_represents valid_fresh (evenBatch.relation relIdx)) largePrimes
        solution with ⟨number, represents, held⟩
      rw [exponentiateY_of_valid exponentiate solution (by rw [flag]; decide),
        congrFun halve.signs 0, totals.signs 0 solution, twos, held]
      have product := @primeProduct_represents 0 0 fresh.mont halved dFactorBaseMont 1 valid_fresh
        (by decide) (List.getD [] · 0) primes solution
      have signs : signTotal (solutionRows (firstSelected 1) evenBatch 0) / 2 = 0 := by decide
      have rows : solutionRows (firstSelected 1) evenBatch 0 =
          [⟨UInt512.ofUInt32 2, 1, 2, 0, 0, []⟩] := by decide
      have none : largePrimeRoot ⟨UInt512.ofUInt32 2, 1, 2, 0, 0, []⟩ = 1 := by decide
      refine (finishY_cast valid_fresh product represents _ 2).trans ?_
      rw [Finset.prod_range_zero, signs, rows, List.map_singleton, List.prod_singleton, none,
        show (2 : BitVec 32).toNat = 2 from rfl]
      norm_num
  exact natCast_fresh_ne (by decide) (by decide) (by decide) (root.symm.trans batched)

private theorem computeXChunkReduce_congr {mont : Montgomery} {dMont : Nat → UInt512}
    {left right : BWKernelSolutionView} {K : Nat} (count : left.numSolutions = right.numSolutions)
    (same : ∀ solIdx < left.numSolutions, ∀ relIdx < K,
      left.selects solIdx relIdx = right.selects solIdx relIdx) :
    computeXChunkReduce mont dMont left K = computeXChunkReduce mont dMont right K := by
  have values : ∀ chunkIdx, ∀ solIdx < left.numSolutions,
      chunkValue mont dMont left K chunkIdx solIdx =
        chunkValue mont dMont right K chunkIdx solIdx := by
    intro chunkIdx solIdx solution
    funext tid
    rw [chunkValue, chunkValue]
    by_cases inside : threadIndex chunkIdx tid < K
    · rw [if_pos inside, if_pos inside, same solIdx solution _ inside]
    · rw [if_neg inside, if_neg inside]
  rw [computeXChunkReduce, computeXChunkReduce, launch, launch, ← count]
  refine if_congr Iff.rfl ?_ rfl
  refine List.flatMap_congr fun solIdx solution => ?_
  refine List.flatMap_congr fun chunkIdx _ => ?_
  rw [values chunkIdx solIdx (List.mem_range.mp solution)]

/-- A call reads nothing of a view but the bits that it looks up. -/
theorem ComputeXBatchedGPU.congr {left right : BWKernelSolutionView} {batch : HostRelationBatch}
    {object after : SquareRootRefinement} {dX : Nat → UInt512}
    (count : left.numSolutions = right.numSolutions)
    (same : ∀ solIdx < left.numSolutions, ∀ relIdx < u32 batch.numRelations,
      left.selects solIdx relIdx = right.selects solIdx relIdx)
    (call : ComputeXBatchedGPU left batch object after dX) :
    ComputeXBatchedGPU right batch object after dX := by
  cases call with
  | run memory product =>
    cases product with
    | @run _ _ partials _ _ _ transformed chunks final =>
      rw [computeXChunkReduce_congr count same] at chunks
      rw [count] at final ⊢
      exact .run memory (.run transformed chunks final)

def wideView : BWKernelSolutionView := ⟨fun word => if word = 0 then 1 else 0, 3, 2 ^ 31⟩

def wrappedView : BWKernelSolutionView := ⟨fun word => if word = 1 then 0 else 1, 3, 1⟩

theorem not_agrees_wrapped : ¬ WrappedAgrees := by
  intro agrees
  obtain ⟨after, dX, call⟩ := exists_computeX wrappedView combinedBatch fresh
  have wrapped := computeXBatchedGPU_eq (by decide) rfl (by decide) call (show 2 < 3 by decide)
  have wide : ComputeXBatchedGPU wideView combinedBatch fresh after dX :=
    @ComputeXBatchedGPU.congr wrappedView wideView _ _ _ _ rfl (by decide) call
  have same := agrees fresh after wideView combinedBatch dX (by decide) (by decide) (by decide)
    (by decide) wide 2 (by decide)
  have unselected : solutionMask wideView combinedBatch 2 = [0] := by
    have word : (wideView.solutionBits 2).getD 0 0 = 0 := by
      rw [BWKernelSolutionView.solutionBits, List.getD_eq_getElem?_getD, List.getElem?_map,
        List.getElem?_range (by decide)]
      rfl
    rw [solutionMask, unpackBitsLocal, show combinedBatch.numRelations = 1 from rfl,
      List.range_one, List.map_singleton, word]
    rfl
  rw [wrapped, unselected] at same
  have casts := congrArg (fun value => ((UInt512.toNat value : Nat) : ZMod fresh.mont.N.toNat)) same
  change ((computeX _ _ fresh.mont).toNat : ZMod fresh.mont.N.toNat) =
    ((computeX _ _ fresh.mont).toNat : ZMod fresh.mont.N.toNat) at casts
  have left : selectedRows (solutionMask wrappedView combinedBatch 2) combinedBatch =
      [⟨UInt512.ofUInt32 15, 1, 0, 5, 0, [(1, 2)]⟩] := by decide
  have right : selectedRows [0] combinedBatch = [] := by decide
  rw [computeX_cast valid_fresh, computeX_cast valid_fresh, left, right, List.map_singleton,
    List.prod_singleton, List.map_nil, List.prod_nil, UInt512.toNat_ofUInt32] at casts
  refine natCast_fresh_ne (show 15 < 77 by decide) (show 1 < 77 by decide) (by decide) ?_
  rw [Nat.cast_one]
  exact casts

def squaredBatch : HostRelationBatch :=
  HostRelationBatch.empty.push ⟨UInt512.ofUInt32 15, 1, 0, 0, 0, [(0, 2)]⟩

theorem not_agrees_stale : ¬ StaleAgrees := by
  intro agrees
  have reached : Reached (UInt512.ofUInt32 77) [3] fresh := .new _
  have accepts : Accepts (firstSelected 1) squaredBatch fresh.bufs 1 := by decide
  obtain ⟨object, first, valid, call⟩ := exists_computeY (firstSelected 1) squaredBatch [3] fresh
  have later : Reached (UInt512.ofUInt32 77) [3] object := reached.computeY accepts call
  obtain ⟨bufs, transformed⟩ : object.bufs = ⟨1, 1, 1, 1, true⟩ ∧ object.fbTransformed = true := by
    cases call with
    | run memory buffers base kernels =>
      rw [buffers]
      exact ⟨rfl, rfl⟩
  have again : Accepts (firstSelected 1) squaredBatch object.bufs 1 := by
    rw [bufs]
    decide
  have kept : ∀ memory, object.allocateDeviceBuffers 1 1 1 1 memory = object := by
    intro memory
    rw [SquareRootRefinement.allocateDeviceBuffers, bufs]
    rfl
  obtain ⟨last, dY, dValid, stale⟩ :=
    exists_computeY (firstSelected 1) squaredBatch [5] object
  have cached : ComputeYBatchedGPU (firstSelected 1) squaredBatch [3] object last dY dValid := by
    cases stale with
    | run memory buffers base kernels =>
      refine .run memory buffers ?_ kernels
      have isObject := buffers.trans (kept memory)
      rw [TransformedBase, isObject, if_pos transformed] at base ⊢
      exact base
  have even : EvenSelection [3] (solutionRows (firstSelected 1) squaredBatch 0) :=
    ⟨by decide, by decide, by decide⟩
  have even' : EvenSelection [5] (solutionRows (firstSelected 1) squaredBatch 0) :=
    ⟨by decide, by decide, by decide⟩
  have three := (computeYBatchedGPU_solved (by decide) later.cached again (by decide) (by decide)
    cached (show 0 < 1 by decide)).even even
  have five := agrees _ [3] [5] object last _ _ dY dValid (by decide) later again stale 0
    (by decide) (by decide) (by decide) even'
  rw [three.2] at five
  have casts := congrArg (fun value => ((UInt512.toNat value : Nat) : ZMod fresh.mont.N.toNat)) five
  refine natCast_fresh_ne (show 3 < 77 by decide) (show 5 < 77 by decide) (by decide) ?_
  rw [← @computeY_naturalRoot (firstSelected 1) squaredBatch [3] 0 3 (by decide) (by decide),
    ← @computeY_naturalRoot (firstSelected 1) squaredBatch [5] 0 5 (by decide) (by decide)]
  exact casts

end Differences

/-- Odd exponents, factors outside the factor base, an empty factor base, an index of the view
that wraps and the factor base of an earlier call each make the two differ. -/
theorem batched_differs : (¬ Agrees fun factorBase solutions batch _ =>
      0 < factorBase.length ∧ InsideBase solutions batch factorBase.length) ∧
    (¬ Agrees fun factorBase solutions batch solIdx =>
      0 < factorBase.length ∧ EvenSelection factorBase (solutionRows solutions batch solIdx)) ∧
    (¬ Agrees fun factorBase solutions batch solIdx =>
      InsideBase solutions batch factorBase.length ∧
        EvenSelection factorBase (solutionRows solutions batch solIdx)) ∧
    ¬ WrappedAgrees ∧ ¬ StaleAgrees :=
  ⟨not_agrees_odd, not_agrees_outside, not_agrees_empty, not_agrees_wrapped, not_agrees_stale⟩

end CudaMpqs.BatchedSquareRoot
