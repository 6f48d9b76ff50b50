import CudaMpqs.Foundation.Contiguous
import CudaMpqs.Spmm.GpuAutotuner

/-! # The blocks of the tuner

The blocks lie end to end over all rows as long as the row that the loops cut at goes
forward. -/

namespace CudaMpqs.GPUAutoTuner

variable (csr : DeviceCSR)

/-- At every turn of the loop that cuts the sparse rows, the row moves as `moves` says and
the step stays in `int`. -/
def Turns (moves : Nat → Nat → Prop) (grow : Int → Option Int) : Nat → Nat → Int → Prop
  | 0, _, _ => True
  | turns + 1, current, step => current < csr.nRows →
      moves current (nextRow csr current step) ∧ ∃ grown, grow step = some grown ∧
        Turns moves grow turns (nextRow csr current step) grown

def Tuning.SparseTurns (tuning : Tuning) (moves : Nat → Nat → Prop) : Prop :=
  ∀ turns, Turns tuning.csr moves
    (sparseGrow tuning.config.maxBlockSize.toInt tuning.isTransposed) turns
    (denseEnd tuning.csr tuning.isTransposed)
    (firstStep tuning.config.initialBlockSize.toInt tuning.config.maxBlockSize.toInt
      tuning.isTransposed (tuning.csr.nRows - denseEnd tuning.csr tuning.isTransposed))

def Tuning.Advances (tuning : Tuning) : Prop := tuning.SparseTurns (· < ·)

def Tuning.Moves (tuning : Tuning) : Prop := tuning.SparseTurns (· ≠ ·)

variable {csr} {denseHead isTransposed : Bool} {limit fuel current : Nat} {step : Int}
  {grow : Int → Option Int} {blocks : List AtomicBlock}

/-! ## One loop -/

theorem nextRow_le : nextRow csr current step ≤ csr.nRows := Nat.min_le_right _ _

/-- Where a property of the row and the step makes the row go forward up to the limit and is
kept, the loop ends at the limit, with blocks end to end. -/
theorem cutRows_spec (Keeps : Nat → Int → Prop)
    (forward : ∀ current step, Keeps current step → current < limit →
      current < nextRow csr current step ∧ nextRow csr current step ≤ limit ∧
        ∃ grown, grow step = some grown ∧ Keeps (nextRow csr current step) grown)
    (keeps : Keeps current step) (below : current ≤ limit) (enough : limit - current < fuel) :
    ∃ blocks, cutRows csr denseHead limit grow fuel current step = some (blocks, limit) ∧
      Contiguous AtomicBlock.startRow AtomicBlock.endRow blocks current limit := by
  induction fuel generalizing current step with
  | zero => omega
  | succ fuel induction =>
    rw [cutRows]
    split
    · next inside =>
        rcases forward current step keeps inside with ⟨further, within, grown, isGrown, kept⟩
        rcases induction kept within (by omega) with ⟨blocks, run, contiguous⟩
        refine ⟨atomicBlock csr denseHead current (nextRow csr current step) :: blocks, ?_,
          rfl, further, contiguous⟩
        rw [isGrown]
        simp only [Option.bind_eq_bind, Option.bind_some, run]
        rfl
    · next outside =>
        have reached : current = limit := by omega
        exact ⟨[], by rw [reached], reached⟩

theorem turns_of_cutRows (Keeps : Nat → Int → Prop)
    (stays : ∀ current step, Keeps current step → current < csr.nRows →
      nextRow csr current step = current → ∀ fuel,
        cutRows csr denseHead csr.nRows grow fuel current step = none)
    (kept : ∀ current step grown, Keeps current step → grow step = some grown →
      Keeps (nextRow csr current step) grown)
    {stop : Nat} (keeps : Keeps current step)
    (run : cutRows csr denseHead csr.nRows grow fuel current step = some (blocks, stop))
    (turns : Nat) : Turns csr (· ≠ ·) grow turns current step := by
  induction turns generalizing fuel current step blocks stop with
  | zero => trivial
  | succ turns induction =>
    intro inside
    constructor
    · intro same
      rw [stays current step keeps inside same.symm fuel] at run
      cases run
    · cases fuel with
      | zero => cases run
      | succ fuel =>
        rw [cutRows, if_pos inside] at run
        rcases Option.bind_eq_some_iff.mp run with ⟨grown, isGrown, rest⟩
        rcases Option.bind_eq_some_iff.mp rest with ⟨⟨later, _⟩, isLater, -⟩
        exact ⟨grown, isGrown, induction (kept current step grown keeps isGrown) isLater⟩

theorem cutRows_mono {result : List AtomicBlock × Nat} {more : Nat} (longer : fuel ≤ more)
    (run : cutRows csr denseHead limit grow fuel current step = some result) :
    cutRows csr denseHead limit grow more current step = some result := by
  induction fuel generalizing more current step result with
  | zero => cases run
  | succ fuel induction =>
    obtain ⟨more, rfl⟩ : ∃ later, more = later + 1 := ⟨more - 1, by omega⟩
    rw [cutRows] at run ⊢
    split
    · next inside =>
        rw [if_pos inside] at run
        rcases Option.bind_eq_some_iff.mp run with ⟨grown, isGrown, rest⟩
        rcases Option.bind_eq_some_iff.mp rest with ⟨later, isLater, isResult⟩
        rw [isGrown]
        simp only [Option.bind_eq_bind, Option.bind_some,
          induction (Nat.le_of_succ_le_succ longer) isLater]
        exact isResult
    · next outside =>
        rw [if_neg outside] at run
        exact run

/-! ## Dense rows -/

theorem denseEnd_le (csr : DeviceCSR) (isTransposed : Bool) :
    denseEnd csr isTransposed ≤ csr.nRows := by
  dsimp only [denseEnd]
  split
  · next capped => exact capped.2.1.le.trans (Nat.min_le_right _ _)
  · exact Nat.min_le_right _ _

theorem denseEnd_le_sub_eight (csr : DeviceCSR) (isTransposed : Bool) :
    denseEnd csr isTransposed ≤ 2 ^ 32 - 8 := by
  dsimp only [denseEnd]
  split <;> omega

private theorem denseEnd_cases (csr : DeviceCSR) (isTransposed : Bool) :
    8 ∣ denseEnd csr isTransposed ∨ denseEnd csr isTransposed = csr.nRows := by
  dsimp only [denseEnd]
  split
  · exact .inl (by decide)
  · rcases Nat.le_total ((csr.nDenseRows + 7) % 2 ^ 32 / 8 * 8) csr.nRows with less | less
    · exact .inl (by rw [Nat.min_eq_left less]; exact Nat.dvd_mul_left _ _)
    · exact .inr (Nat.min_eq_right less)

theorem cutRows_dense (csr : DeviceCSR) (isTransposed : Bool) (enough : csr.nRows < fuel) :
    ∃ blocks, cutRows csr true (denseEnd csr isTransposed) some fuel 0 8 =
        some (blocks, denseEnd csr isTransposed) ∧
      Contiguous AtomicBlock.startRow AtomicBlock.endRow blocks 0 (denseEnd csr isTransposed) := by
  have within := denseEnd_le csr isTransposed
  have bound := csr.nRows_lt
  apply cutRows_spec fun current step =>
    step = 8 ∧ (8 ∣ current ∨ current = denseEnd csr isTransposed)
  · rintro current step ⟨rfl, aligned⟩ inside
    have eight : 8 ∣ current := aligned.resolve_right (Nat.ne_of_lt inside)
    have next : nextRow csr current 8 = min (current + 8) csr.nRows := by
      have counted := denseEnd_le_sub_eight csr isTransposed
      have isEight : ((8 : Int) % 2 ^ 32).toNat = 8 := by decide
      rw [nextRow, isEight, Nat.mod_eq_of_lt (by omega)]
    rw [next]
    rcases denseEnd_cases csr isTransposed with multiple | whole
    · exact ⟨by omega, by omega, 8, rfl, rfl, by omega⟩
    · exact ⟨by omega, by omega, 8, rfl, rfl, by omega⟩
  · exact ⟨rfl, .inl (Nat.dvd_zero 8)⟩
  · exact Nat.zero_le _
  · omega

/-! ## All rows -/

theorem createExponentialBlocks_spec {tuning : Tuning} (advances : tuning.Advances)
    (enough : tuning.csr.nRows < fuel) :
    ∃ blocks, createExponentialBlocks tuning.csr tuning.config.initialBlockSize.toInt
        tuning.config.maxBlockSize.toInt tuning.isTransposed fuel = some blocks ∧
      Contiguous AtomicBlock.startRow AtomicBlock.endRow blocks 0 tuning.csr.nRows := by
  rcases cutRows_dense tuning.csr tuning.isTransposed enough with
    ⟨head, headRun, headContiguous⟩
  have forward : ∀ current step, (∀ turns, Turns tuning.csr (· < ·)
      (sparseGrow tuning.config.maxBlockSize.toInt tuning.isTransposed) turns current step) →
      current < tuning.csr.nRows → current < nextRow tuning.csr current step ∧
        nextRow tuning.csr current step ≤ tuning.csr.nRows ∧
        ∃ grown, sparseGrow tuning.config.maxBlockSize.toInt tuning.isTransposed step =
          some grown ∧ ∀ turns, Turns tuning.csr (· < ·)
            (sparseGrow tuning.config.maxBlockSize.toInt tuning.isTransposed) turns
            (nextRow tuning.csr current step) grown := by
    intro current step turns inside
    have first := turns 1 inside
    rcases first.2 with ⟨grown, isGrown, -⟩
    refine ⟨first.1, nextRow_le, grown, isGrown, fun more => ?_⟩
    rcases (turns (more + 1) inside).2 with ⟨grown', isGrown', later⟩
    rw [isGrown, Option.some_inj] at isGrown'
    rwa [isGrown']
  rcases @cutRows_spec _ false _ fuel _ _ _ _ forward advances (denseEnd_le _ _) (by omega)
    with ⟨tail, tailRun, tailContiguous⟩
  refine ⟨head ++ tail, ?_, Contiguous.append_iff.mpr ⟨_, headContiguous, tailContiguous⟩⟩
  rw [createExponentialBlocks, headRun]
  simp only [Option.bind_eq_bind, Option.bind_some, tailRun]
  rfl

theorem advances_of_sizes {tuning : Tuning} (rows : tuning.csr.nRows ≤ 2 ^ 31)
    (initial : 0 < tuning.config.initialBlockSize.toInt)
    (positive : 0 < tuning.config.maxBlockSize.toInt)
    (small : tuning.config.maxBlockSize.toInt < 2 ^ 30) : tuning.Advances := by
  have forward : ∀ turns current step, (current < tuning.csr.nRows → 0 < step ∧ step < 2 ^ 30) →
      Turns tuning.csr (· < ·)
        (sparseGrow tuning.config.maxBlockSize.toInt tuning.isTransposed) turns current step := by
    intro turns
    induction turns with
    | zero => exact fun _ _ _ => trivial
    | succ turns induction =>
      intro current step bounds inside
      have within := bounds inside
      refine ⟨by unfold nextRow; omega, ?_⟩
      unfold sparseGrow
      split
      · next transposed =>
          refine ⟨step, rfl, ?_⟩
          have rest := induction (nextRow tuning.csr current step) step fun _ => within
          rwa [sparseGrow, if_pos transposed] at rest
      · next ordinary =>
          have isInt : -2 ^ 31 ≤ step * 2 ∧ step * 2 < 2 ^ 31 := by omega
          refine ⟨min (step * 2) tuning.config.maxBlockSize.toInt, if_pos isInt, ?_⟩
          have rest := induction (nextRow tuning.csr current step)
            (min (step * 2) tuning.config.maxBlockSize.toInt) fun _ => by omega
          rwa [sparseGrow, if_neg ordinary] at rest
  intro turns
  apply forward
  intro inside
  have remaining : 0 < tuning.csr.nRows - denseEnd tuning.csr tuning.isTransposed := by omega
  unfold firstStep
  split
  · decide
  · omega

theorem createExponentialBlocks_mono {tuning : Tuning} {more : Nat} (longer : fuel ≤ more)
    (run : createExponentialBlocks tuning.csr tuning.config.initialBlockSize.toInt
      tuning.config.maxBlockSize.toInt tuning.isTransposed fuel = some blocks) :
    createExponentialBlocks tuning.csr tuning.config.initialBlockSize.toInt
      tuning.config.maxBlockSize.toInt tuning.isTransposed more = some blocks := by
  rcases Option.bind_eq_some_iff.mp run with ⟨⟨head, current⟩, headRun, rest⟩
  rcases Option.bind_eq_some_iff.mp rest with ⟨⟨tail, stop⟩, tailRun, isBlocks⟩
  rw [createExponentialBlocks, cutRows_mono longer headRun]
  simp only [Option.bind_eq_bind, Option.bind_some, cutRows_mono longer tailRun]
  exact isBlocks

/-! ## What a block holds -/

structure Cut (blocks : List AtomicBlock) : Prop where
  weighed : ∀ block ∈ blocks, block.nnz = 0 → block.avgWeight = 0
  sparseLast : ∀ block ∈ blocks, block.denseHead = false →
    ∀ last ∈ blocks.getLast?, last.denseHead = false

theorem mem_cutRows {stop : Nat} (run : cutRows csr denseHead limit grow fuel current step =
    some (blocks, stop)) : ∀ block ∈ blocks, ∃ start next, block =
      atomicBlock csr denseHead start next := by
  induction fuel generalizing current step blocks stop with
  | zero => cases run
  | succ fuel induction =>
    rw [cutRows] at run
    split at run
    · rcases Option.bind_eq_some_iff.mp run with ⟨grown, -, rest⟩
      rcases Option.bind_eq_some_iff.mp rest with ⟨⟨later, _⟩, isLater, isBlocks⟩
      cases isBlocks
      exact List.forall_mem_cons.mpr ⟨⟨_, _, rfl⟩, induction isLater⟩
    · cases run
      exact nofun

private theorem avgWeight_atomicBlock {start next : Nat}
    (empty : (atomicBlock csr denseHead start next).nnz = 0) :
    (atomicBlock csr denseHead start next).avgWeight = 0 := by
  have none : (csr.rowPtr next - csr.rowPtr start).toNat = 0 := empty
  simp only [atomicBlock, none, Nat.cast_zero, zero_div, ite_self]

theorem cut_of_createExponentialBlocks {initialSize maxSize : Int}
    (run : createExponentialBlocks csr initialSize maxSize isTransposed fuel = some blocks) :
    Cut blocks := by
  rcases Option.bind_eq_some_iff.mp run with ⟨⟨head, current⟩, headRun, rest⟩
  rcases Option.bind_eq_some_iff.mp rest with ⟨⟨tail, stop⟩, tailRun, isBlocks⟩
  cases isBlocks
  constructor
  · intro block member
    rcases List.mem_append.mp member with dense | sparse
    · rcases mem_cutRows headRun block dense with ⟨start, next, rfl⟩
      exact avgWeight_atomicBlock
    · rcases mem_cutRows tailRun block sparse with ⟨start, next, rfl⟩
      exact avgWeight_atomicBlock
  · intro block member isSparse last isLast
    have inTail : block ∈ tail := by
      refine (List.mem_append.mp member).resolve_left fun dense => ?_
      rcases mem_cutRows headRun block dense with ⟨start, next, rfl⟩
      cases isSparse
    rw [List.getLast?_append_of_ne_nil _ (List.ne_nil_of_mem inTail)] at isLast
    rcases mem_cutRows tailRun last (List.mem_of_getLast? isLast) with ⟨start, next, rfl⟩
    rfl

/-! ## Loops that end -/

def SparseStep (tuning : Tuning) (current : Nat) (step : Int) : Prop :=
  if tuning.isTransposed then step = 1024
  else -2 ^ 31 ≤ step ∧ step < 2 ^ 31 ∧
    (current < tuning.csr.nRows → step ≤ tuning.config.maxBlockSize.toInt)

variable {tuning : Tuning}

theorem sparseStep_first (current : Nat) :
    SparseStep tuning current (firstStep tuning.config.initialBlockSize.toInt
      tuning.config.maxBlockSize.toInt tuning.isTransposed (tuning.csr.nRows - current)) := by
  have bound := tuning.csr.nRows_lt
  have initial := tuning.config.initialBlockSize.toInt_lt
  have initial' := tuning.config.initialBlockSize.le_toInt
  have largest := tuning.config.maxBlockSize.toInt_lt
  have largest' := tuning.config.maxBlockSize.le_toInt
  unfold SparseStep firstStep
  split
  · rfl
  · split <;> omega

theorem sparseStep_grow {grown : Int} {next : Nat} (keeps : SparseStep tuning current step)
    (isGrown : sparseGrow tuning.config.maxBlockSize.toInt tuning.isTransposed step =
      some grown) : SparseStep tuning next grown := by
  have largest' := tuning.config.maxBlockSize.le_toInt
  unfold SparseStep sparseGrow at *
  split at keeps
  · next transposed =>
      rw [if_pos transposed] at isGrown ⊢
      cases isGrown
      exact keeps
  · next ordinary =>
      rw [if_neg ordinary] at isGrown ⊢
      unfold doubleStep at isGrown
      split at isGrown
      · cases isGrown
        omega
      · cases isGrown

/-- Only the step zero leaves the row where it is, and it stays zero. -/
theorem sparseStep_stays (keeps : SparseStep tuning current step)
    (inside : current < tuning.csr.nRows) (stays : nextRow tuning.csr current step = current)
    (fuel : Nat) :
    cutRows tuning.csr denseHead tuning.csr.nRows
      (sparseGrow tuning.config.maxBlockSize.toInt tuning.isTransposed) fuel current step =
        none := by
  have bound := tuning.csr.nRows_lt
  have still : (current + (step % 2 ^ 32).toNat) % 2 ^ 32 = current := by
    unfold nextRow at stays
    omega
  unfold SparseStep at keeps
  split at keeps
  · subst keeps
    omega
  · next ordinary =>
      have isZero : step = 0 := by omega
      have least := keeps.2.2 inside
      subst isZero
      induction fuel with
      | zero => rfl
      | succ fuel induction =>
        have again : sparseGrow tuning.config.maxBlockSize.toInt tuning.isTransposed 0 =
            some 0 := by
          rw [sparseGrow, if_neg ordinary, doubleStep, Int.zero_mul, if_pos (by decide),
            Int.min_eq_left least]
        rw [cutRows, if_pos inside, again, stays]
        simp only [Option.bind_eq_bind, Option.bind_some, induction, Option.bind_none]

theorem moves_of_createExponentialBlocks
    (run : createExponentialBlocks tuning.csr tuning.config.initialBlockSize.toInt
      tuning.config.maxBlockSize.toInt tuning.isTransposed fuel = some blocks) :
    tuning.Moves := by
  rcases Option.bind_eq_some_iff.mp run with ⟨⟨head, current⟩, headRun, rest⟩
  rcases Option.bind_eq_some_iff.mp rest with ⟨⟨tail, stop⟩, tailRun, -⟩
  rcases cutRows_dense tuning.csr tuning.isTransposed
    (Nat.lt_succ_of_le (Nat.le_add_left tuning.csr.nRows fuel)) with ⟨head', denseRun, -⟩
  have same := cutRows_mono (by omega : fuel ≤ fuel + tuning.csr.nRows + 1) headRun
  rw [denseRun, Option.some_inj] at same
  cases same
  intro turns
  apply turns_of_cutRows (SparseStep tuning) _ _ (sparseStep_first _) tailRun
  · intro current step keeps inside stays fuel
    exact sparseStep_stays keeps inside stays fuel
  · intro current step grown keeps isGrown
    exact sparseStep_grow keeps isGrown

end CudaMpqs.GPUAutoTuner
