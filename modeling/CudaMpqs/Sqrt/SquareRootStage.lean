import CudaMpqs.Common.UInt512Modular
import CudaMpqs.Sqrt.BatchedGcd

/-! # The square root stage

`Perform` of `sqrt_step.cu`, and the stage of `orchestrator.cpp` that runs the solutions as a
batch and falls back to `Perform`. -/

namespace CudaMpqs.SquareRootStage

open UInt512 SquareRoot BatchedSquareRoot BatchedGcd RefineFactors

/-! ## One solution on the CPU -/

def modpowLoop (mod : UInt512) : Nat → UInt512 → BitVec 32 → UInt512 → UInt512
  | 0, _, _, res => res
  | turns + 1, base, exp, res =>
    if exp = 0 then res
    else
      modpowLoop mod turns (base.mulMod base mod) (exp >>> 1)
        (if exp &&& 1 != 0 then res.mulMod base mod else res)

def modpow (base : UInt512) (exp : BitVec 32) (mod : UInt512) : UInt512 :=
  modpowLoop mod 32 (base.mod mod) exp (ofUInt32 1)

def sanityCheck (N X Y : UInt512) : Bool := modpow X 2 N == modpow Y 2 N

def correctY (mont : Montgomery) (correctionMont : Option UInt512) (Y : UInt512) : UInt512 :=
  match correctionMont with
  | some correction => mont.reduce (mont.mul (mont.transform Y) correction)
  | none => Y

def filterTrivial (N X Y : UInt512) : UInt512 × UInt512 :=
  let factor1 := (difference X Y).gcd N
  let factor2 := (X.addMod Y N).gcd N
  if nontrivial N factor1 then withCofactor N factor1
  else if nontrivial N factor2 then withCofactor N factor2
  else (ofUInt32 1, N)

def perform (N : UInt512) (solutionBits : List (BitVec 64)) (batch : HostRelationBatch)
    (factorBase : List (BitVec 32)) (lpCorrection : Option UInt512) : UInt512 × UInt512 :=
  let mask := unpackBitsLocal solutionBits batch.numRelations
  let mont := Montgomery.ofModulus N
  let X := computeX mask batch mont
  let Y := correctY mont lpCorrection (computeY mask batch factorBase mont)
  if Y.isZero then (ofUInt32 0, ofUInt32 0)
  else if !sanityCheck N X Y then (ofUInt32 0, ofUInt32 0)
  else filterTrivial N X Y

/-! ## The stage -/

structure Stage where
  N : UInt512
  factorBase : List (BitVec 32)
  hostRelations : HostRelationBatch
  kernelSolutions : List (List (BitVec 64))
  usedExpandedMatrix : Bool
  precomputedLpY : List UInt512
  sqrtLegacy : Bool
  deviceSolutions : BWKernelSolutionView

def accepts (N : UInt512) (factors : UInt512 × UInt512) : Bool :=
  !factors.1.isZero && !factors.2.isZero && !factors.1.isOne && !(factors.1 == N) &&
    factors.1.mult factors.2 == N

namespace Stage

variable (stage : Stage)

def lpCorrPtr (i : Nat) : Option UInt512 :=
  if stage.usedExpandedMatrix then stage.precomputedLpY[i]? else none

def cpuFactors (i : Nat) : UInt512 × UInt512 :=
  perform stage.N (stage.kernelSolutions.getD i []) stage.hostRelations stage.factorBase
    (stage.lpCorrPtr i)

def cpuLoop : Option (UInt512 × UInt512) :=
  (List.range stage.kernelSolutions.length).findSome? fun i =>
    if accepts stage.N (stage.cpuFactors i) then some (stage.cpuFactors i) else none

def expandedSolView : BWKernelSolutionView :=
  let wpv := u32 ((u32 stage.hostRelations.numRelations + 63) / 64)
  ⟨fun word => (stage.kernelSolutions.getD (word / wpv) []).getD (word % wpv) 0,
    u32 stage.kernelSolutions.length, wpv⟩

def solView : BWKernelSolutionView :=
  if stage.usedExpandedMatrix then stage.expandedSolView else stage.deviceSolutions

def applyLPCorrection (dY : Nat → UInt512) (sol : Nat) : UInt512 :=
  correctY (.ofModulus stage.N) (stage.lpCorrPtr sol) (dY sol)

def checkBatched (factors : UInt512 × UInt512) : Option (UInt512 × UInt512) :=
  if accepts stage.N factors then some factors else stage.cpuLoop

inductive Run : Except String (Option (UInt512 × UInt512)) → Prop
  | noSolutions (empty : stage.kernelSolutions = []) : Run (.ok none)
  | legacy (solutions : stage.kernelSolutions ≠ []) (cpu : stage.sqrtLegacy = true) :
      Run (.ok stage.cpuLoop)
  | batched (solutions : stage.kernelSolutions ≠ []) (gpu : stage.sqrtLegacy = false)
      {allocated afterX afterY : SquareRootRefinement} (start memory : Nat → UInt512)
      {dX dY : Nat → UInt512} {dValid : Nat → BitVec 8}
      {result : Except String (UInt512 × UInt512)}
      (buffers : allocated = (SquareRootRefinement.new stage.N start).allocateDeviceBuffers
        (u32 stage.hostRelations.numRelations) (u32 stage.hostRelations.numFactors)
        (u32 stage.factorBase.length) stage.solView.numSolutions memory)
      (callX : ComputeXBatchedGPU stage.solView stage.hostRelations allocated afterX dX)
      (callY : ComputeYBatchedGPU stage.solView stage.hostRelations stage.factorBase afterX
        afterY dY dValid)
      (gcd : BatchedGCD stage.N dX (stage.applyLPCorrection dY) stage.solView.numSolutions result) :
      Run (result.map stage.checkBatched)

end Stage

/-! ## What is accepted -/

section Pairs

variable {N : UInt512}

/-- A pair with the right product is accepted if and only if it splits the modulus. -/
theorem accepts_iff (modulus : 1 < N.toNat) {found : Prop} {factors : UInt512 × UInt512}
    (factorizes : Factorizes N found factors) : accepts N factors = true ↔ found := by
  have product := factorizes.product
  have whole : factors.1.mult factors.2 = N := by
    apply toNat_injective
    rw [toNat_mult, product, Nat.mod_eq_of_lt N.toNat_lt]
  have first : factors.1.toNat ≠ 0 := by
    intro zero
    rw [zero, Nat.zero_mul] at product
    omega
  have second : factors.2.toNat ≠ 0 := by
    intro zero
    rw [zero, Nat.mul_zero] at product
    omega
  have below := Nat.le_of_dvd (by omega) ⟨_, product.symm⟩
  have tests : accepts N factors = true ↔ factors.1.toNat ≠ 1 ∧ factors.1.toNat ≠ N.toNat := by
    simp [accepts, whole, ← Bool.not_eq_true, first, second, toNat_inj]
  rw [tests, ← factorizes.proper]
  omega

variable {X Y : UInt512}

theorem filterTrivial_factorizes (modulus : 1 < N.toNat) :
    Factorizes N ((compareRoots N X Y).2 ≠ 0) (filterTrivial N X Y) := by
  by_cases status : (compareRoots N X Y).2 ≠ 0
  · rcases compareRoots_factor modulus status with ⟨factor, stored, proper⟩
    have chosen : filterTrivial N X Y = withCofactor N factor := by
      rw [compareRoots_eq] at stored
      rw [filterTrivial]
      split
      · next first =>
          rw [if_pos first, Option.some_inj] at stored
          rw [stored]
      · next first =>
          rw [if_neg first] at stored
          split
          · next second =>
              rw [if_pos second, Option.some_inj] at stored
              rw [stored]
          · next second =>
              rw [if_neg second] at stored
              cases stored
    rw [chosen]
    exact factorizes_withCofactor (by omega) proper status
  · rcases not_or.mp (mt compareRoots_status_iff.mpr status) with ⟨first, second⟩
    rw [filterTrivial, if_neg first, if_neg second]
    have one : (ofUInt32 1).toNat = 1 := toNat_ofUInt32 1
    exact ⟨by rw [one, Nat.one_mul], iff_of_false (fun proper => proper.1.ne' one) status⟩

private theorem toNat_modpow_two (positive : 0 < N.toNat) (X : UInt512) :
    (modpow X 2 N).toNat = X.toNat ^ 2 % N.toNat := by
  have turns : modpow X 2 N = (ofUInt32 1).mulMod ((X.mod N).mulMod (X.mod N) N) N := rfl
  rw [turns, toNat_mulMod _ _ positive.ne', toNat_mulMod _ _ positive.ne',
    toNat_mod _ positive.ne', toNat_ofUInt32, ← Nat.mul_mod, sq]
  simp

theorem sanityCheck_iff (positive : 0 < N.toNat) :
    sanityCheck N X Y = true ↔ X.toNat ^ 2 ≡ Y.toNat ^ 2 [MOD N.toNat] := by
  rw [sanityCheck, beq_iff_eq, ← toNat_inj, toNat_modpow_two positive, toNat_modpow_two positive]
  rfl

end Pairs

/-! ## The results of the stage -/

namespace Stage

section

variable (stage : Stage) (i : Nat)

def mask : List (BitVec 8) :=
  unpackBitsLocal (stage.kernelSolutions.getD i []) stage.hostRelations.numRelations

def rootX : UInt512 := computeX (stage.mask i) stage.hostRelations (.ofModulus stage.N)

def rootY : UInt512 :=
  correctY (.ofModulus stage.N) (stage.lpCorrPtr i)
    (computeY (stage.mask i) stage.hostRelations stage.factorBase (.ofModulus stage.N))

theorem cpuFactors_eq : stage.cpuFactors i = if (stage.rootY i).isZero then (ofUInt32 0, ofUInt32 0)
    else if !sanityCheck stage.N (stage.rootX i) (stage.rootY i) then (ofUInt32 0, ofUInt32 0)
    else filterTrivial stage.N (stage.rootX i) (stage.rootY i) := rfl

end

variable {stage : Stage} {i : Nat}

def Valid (stage : Stage) (i : Nat) : Prop :=
  (stage.rootY i).toNat ≠ 0 ∧
    (stage.rootX i).toNat ^ 2 ≡ (stage.rootY i).toNat ^ 2 [MOD stage.N.toNat]

theorem cpuFactors_of_valid (modulus : 1 < stage.N.toNat) (valid : stage.Valid i) :
    stage.cpuFactors i = filterTrivial stage.N (stage.rootX i) (stage.rootY i) := by
  have squares := (sanityCheck_iff (by omega)).mpr valid.2
  rw [cpuFactors_eq, if_neg (mt (isZero_iff _).mp valid.1), squares, Bool.not_true,
    if_neg Bool.false_ne_true]

private theorem cpuFactors_of_invalid (modulus : 1 < stage.N.toNat) (invalid : ¬ stage.Valid i) :
    stage.cpuFactors i = (ofUInt32 0, ofUInt32 0) := by
  rw [cpuFactors_eq]
  by_cases zero : (stage.rootY i).isZero = true
  · exact if_pos zero
  · have fails : sanityCheck stage.N (stage.rootX i) (stage.rootY i) = false :=
      Bool.eq_false_iff.mpr fun passes =>
        invalid ⟨mt (isZero_iff _).mpr zero, (sanityCheck_iff (by omega)).mp passes⟩
    rw [if_neg zero, fails, Bool.not_false, if_pos rfl]

theorem splits_cpuFactors (modulus : 1 < stage.N.toNat)
    (accepted : accepts stage.N (stage.cpuFactors i) = true) :
    stage.Valid i ∧ Factorizes stage.N True (stage.cpuFactors i) := by
  by_cases valid : stage.Valid i
  · have pair := filterTrivial_factorizes (X := stage.rootX i) (Y := stage.rootY i) modulus
    rw [cpuFactors_of_valid modulus valid] at accepted ⊢
    have found := (accepts_iff modulus pair).mp accepted
    exact ⟨valid, pair.product, pair.proper.trans (iff_true_intro found)⟩
  · rw [cpuFactors_of_invalid modulus valid] at accepted
    exact absurd accepted Bool.false_ne_true

theorem rootX_lt (odd : stage.N.toNat % 2 = 1) : (stage.rootX i).toNat < stage.N.toNat :=
  ((Montgomery.ofModulus_valid odd).reduce_spec _).1

theorem rootY_lt (odd : stage.N.toNat % 2 = 1) : (stage.rootY i).toNat < stage.N.toNat := by
  rw [rootY]
  cases stage.lpCorrPtr i with
  | none => exact ((Montgomery.ofModulus_valid odd).reduce_spec _).1
  | some correction => exact ((Montgomery.ofModulus_valid odd).reduce_spec _).1

theorem accepts_cpuFactors (modulus : 1 < stage.N.toNat) (odd : stage.N.toNat % 2 = 1)
    (valid : stage.Valid i)
    (separates : Separates stage.N.toNat (stage.rootX i).toNat (stage.rootY i).toNat) :
    accepts stage.N (stage.cpuFactors i) = true := by
  rw [cpuFactors_of_valid modulus valid, accepts_iff modulus (filterTrivial_factorizes modulus)]
  exact (compareRoots_status (rootX_lt odd) (rootY_lt odd) valid.2).mpr separates

/-! ## Every run -/

def separating : Stage where
  N := ofUInt32 77
  factorBase := [2, 3]
  hostRelations := HostRelationBatch.empty.push ⟨ofUInt32 52, 1, 0, 1, 0, [(1, 2)]⟩
  kernelSolutions := [[1]]
  usedExpandedMatrix := false
  precomputedLpY := []
  sqrtLegacy := true
  deviceSolutions := ⟨fun _ => 1, 1, 1⟩

private theorem roots_separating :
    (separating.rootX 0).toNat = 52 ∧ (separating.rootY 0).toNat = 3 := by
  have odd : separating.N.toNat % 2 = 1 := by decide
  have valid := Montgomery.ofModulus_valid odd
  have X := computeX_cast valid (separating.mask 0) separating.hostRelations
  have Y := computeY_cast valid (separating.mask 0) separating.hostRelations [2, 3]
  have rows : selectedRows (separating.mask 0) separating.hostRelations =
      [⟨ofUInt32 52, 1, 0, 1, 0, [(1, 2)]⟩] := by decide
  rw [rows] at X Y
  constructor
  · refine Nat.ModEq.eq_of_lt_of_lt ((ZMod.natCast_eq_natCast_iff _ _ _).mp (X.trans ?_))
      (rootX_lt odd) (by decide)
    simp
  · refine Nat.ModEq.eq_of_lt_of_lt ((ZMod.natCast_eq_natCast_iff _ _ _).mp (Y.trans ?_))
      (rootY_lt odd) (by decide)
    simp [signTotal, val2Total, primeAt, exponentTotal, allFactors, largePrimeRoot, List.range_succ]

theorem separates_separating : separating.Valid 0 ∧ Separates separating.N.toNat
    (separating.rootX 0).toNat (separating.rootY 0).toNat := by
  rw [Valid, roots_separating.1, roots_separating.2]
  decide

/-- The loop ends with a pair that splits the modulus, or finds none that does. -/
theorem splits_cpuLoop (modulus : 1 < stage.N.toNat) {pair : UInt512 × UInt512}
    (found : stage.cpuLoop = some pair) : Factorizes stage.N True pair := by
  rcases List.exists_of_findSome?_eq_some found with ⟨i, -, chosen⟩
  split at chosen
  · next accepted =>
      rw [← Option.some_inj.mp chosen]
      exact (splits_cpuFactors modulus accepted).2
  · cases chosen

theorem exists_cpuLoop (inside : i < stage.kernelSolutions.length)
    (accepted : accepts stage.N (stage.cpuFactors i) = true) :
    ∃ pair, stage.cpuLoop = some pair := by
  refine Option.isSome_iff_exists.mp (List.findSome?_isSome_iff.mpr ?_)
  exact ⟨i, List.mem_range.mpr inside, by rw [if_pos accepted]; rfl⟩

theorem exists_checkBatched (inside : i < stage.kernelSolutions.length)
    (accepted : accepts stage.N (stage.cpuFactors i) = true) (factors : UInt512 × UInt512) :
    ∃ pair, stage.checkBatched factors = some pair := by
  rw [checkBatched]
  split
  · exact ⟨factors, rfl⟩
  · exact exists_cpuLoop inside accepted

private theorem factorizes_batched (modulus : 1 < stage.N.toNat) {dX dY : Nat → UInt512} {n : Nat}
    {factors : UInt512 × UInt512} (gcd : BatchedGCD stage.N dX dY n (.ok factors)) :
    ∃ found, Factorizes stage.N found factors := by
  cases gcd with
  | run few memory kernel refined =>
    subst kernel
    exact ⟨_, factorizes_choose modulus (handed_batchedGCDKernel modulus) refined⟩

theorem Run.splits {outcome : Except String (Option (UInt512 × UInt512))}
    (run : stage.Run outcome) (modulus : 1 < stage.N.toNat) {pair : UInt512 × UInt512}
    (stored : outcome = .ok (some pair)) : Factorizes stage.N True pair := by
  cases run with
  | noSolutions empty => cases stored
  | legacy solutions cpu => exact splits_cpuLoop modulus (Except.ok.inj stored)
  | @batched _ _ _ _ _ _ _ _ _ _ result buffers callX callY gcd =>
    cases result with
    | error message => cases stored
    | ok factors =>
      have chosen := Except.ok.inj stored
      rw [checkBatched] at chosen
      split at chosen
      · next accepted =>
          rcases factorizes_batched modulus gcd with ⟨found, factorizes⟩
          rw [← Option.some_inj.mp chosen]
          have splits := (accepts_iff modulus factorizes).mp accepted
          exact ⟨factorizes.product, factorizes.proper.trans (iff_true_intro splits)⟩
      · exact splits_cpuLoop modulus chosen

theorem Run.exists_pair {outcome : Except String (Option (UInt512 × UInt512))}
    (run : stage.Run outcome) (few : stage.solView.numSolutions ≤ 1024)
    (inside : i < stage.kernelSolutions.length)
    (accepted : accepts stage.N (stage.cpuFactors i) = true) :
    ∃ pair, outcome = .ok (some pair) := by
  cases run with
  | noSolutions empty => simp [empty] at inside
  | legacy solutions cpu =>
    rcases exists_cpuLoop inside accepted with ⟨pair, found⟩
    exact ⟨pair, by rw [found]⟩
  | @batched _ _ _ _ _ _ _ _ _ _ result buffers callX callY gcd =>
    cases result with
    | error message =>
      cases gcd with
      | tooMany many => omega
    | ok factors =>
      rcases exists_checkBatched inside accepted factors with ⟨pair, found⟩
      exact ⟨pair, congrArg Except.ok found⟩

/-- Whatever the relations, the solutions and the device memory hold, a pair that is stored
splits the modulus; one solution that separates its roots is enough for a pair, whatever the
batch yields. -/
theorem run_stores (modulus : 1 < stage.N.toNat)
    {outcome : Except String (Option (UInt512 × UInt512))} (run : stage.Run outcome) :
    (∀ pair, outcome = .ok (some pair) → Factorizes stage.N True pair) ∧
      (stage.N.toNat % 2 = 1 → stage.solView.numSolutions ≤ 1024 →
        ∀ i < stage.kernelSolutions.length, stage.Valid i →
          Separates stage.N.toNat (stage.rootX i).toNat (stage.rootY i).toNat →
          ∃ pair, outcome = .ok (some pair)) :=
  ⟨fun _ stored => run.splits modulus stored, fun odd few _ inside valid separates =>
    run.exists_pair few inside (accepts_cpuFactors modulus odd valid separates)⟩

theorem run_stores_separating :
    ∃ pair, separating.cpuLoop = some pair ∧ Factorizes separating.N True pair := by
  rcases separates_separating with ⟨valid, separates⟩
  have run : separating.Run (.ok separating.cpuLoop) := .legacy (by decide) rfl
  have stores := run_stores (by decide) run
  rcases stores.2 (by decide) (by decide) 0 (by decide) valid separates with ⟨pair, stored⟩
  exact ⟨pair, Except.ok.inj stored, stores.1 pair stored⟩

end Stage

end CudaMpqs.SquareRootStage
