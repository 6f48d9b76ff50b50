import CudaMpqs.Foundation.Transition
import CudaMpqs.Sieve.AFactorRuns
import CudaMpqs.Sieve.ModularInverse

/-! # The factors of `a` and the end of the factor base

The lower half stops at the first prime; nothing stops the upper half. The largest index
is the last one, and it grows by the parity flip of the last factor and by a slide of a
packed upper half. -/

namespace CudaMpqs

open GrayCode

/-! ## The last factor under a slide -/

def UpperPacked (indices : List Nat) : Prop :=
  ∀ i, advanceStart indices.length 1 ≤ i → i + 1 < indices.length →
    position indices (i + 1) ≤ position indices i + 1

instance (indices : List Nat) : Decidable (UpperPacked indices) :=
  decidable_of_iff
    (∀ i < indices.length, advanceStart indices.length 1 ≤ i → i + 1 < indices.length →
      position indices (i + 1) ≤ position indices i + 1)
    ⟨fun all i start inside => all i (by omega) start inside,
      fun packed i _ start inside => packed i start inside⟩

theorem advanceStart_inside {n : Nat} (many : 2 ≤ n) :
    advanceStart n (-1) < n - 1 ∧ advanceStart n 1 ≤ n - 1 := by
  rcases Nat.mod_two_eq_zero_or_one n with even | odd
  · rcases advanceStart_even even many with ⟨upper, lower⟩
    omega
  · rcases advanceStart_odd odd (by omega) with ⟨upper, lower⟩
    omega

theorem advanceRight_last {indices : List Nat} (pivotPrime : Nat) (nonempty : 0 < indices.length)
    (even : ∀ j, indices.getD j 0 = 2 * position indices j) :
    (advanceRight indices pivotPrime (advanceStart indices.length 1) 2).getD
        (indices.length - 1) 0 =
      indices.getD (indices.length - 1) 0 + if UpperPacked indices then 2 else 0 := by
  rw [advanceRight]
  split
  next i found =>
      have member := List.mem_range'_1.mp (List.mem_of_find?_eq_some found)
      have space : indices.getD i 0 + 2 < indices.getD (i + 1) 0 := by
        simpa using List.find?_some found
      have spaced : ¬ UpperPacked indices := by
        intro packed
        have close := packed i member.1 (by omega)
        rw [even i, even (i + 1)] at space
        omega
      rw [getD_mapIdx _ _ (by omega), if_neg (by omega), if_neg (by omega), if_neg spaced,
        Nat.add_zero]
  next none =>
      have packed : UpperPacked indices := by
        intro i start inside
        have blocked := List.find?_eq_none.mp none i (List.mem_range'_1.mpr (by omega))
        rw [decide_eq_true_eq, even i, even (i + 1)] at blocked
        omega
      rw [getD_mapIdx _ _ (by omega), if_pos rfl, if_pos packed]

theorem position_map_resetFactor (indices : List Nat) :
    position (indices.map resetFactor) = position indices := by
  funext j
  rw [position, getD_map_resetFactor]
  omega

theorem upperPacked_map_resetFactor (indices : List Nat) :
    UpperPacked (indices.map resetFactor) ↔ UpperPacked indices := by
  rw [UpperPacked, UpperPacked, List.length_map, position_map_resetFactor]

theorem advanceRight_length (indices : List Nat) (pivotPrime startIndex stepSize : Nat) :
    (advanceRight indices pivotPrime startIndex stepSize).length = indices.length := by
  rw [advanceRight]
  split <;> exact List.length_mapIdx

theorem advanceLeft_length (indices : List Nat) (pivotPrime startIndex stepSize : Nat) :
    (advanceLeft indices pivotPrime startIndex stepSize).length = indices.length := by
  rw [advanceLeft]
  split
  next => exact List.length_mapIdx
  next =>
      split
      next => rfl
      next => exact List.length_mapIdx

namespace AFactorState

def last (state : AFactorState) : Nat := state.aFactors.getD (state.aFactors.length - 1) 0

def lastPosition (state : AFactorState) : Nat :=
  position state.aFactors (state.aFactors.length - 1)

theorem slide_length (state : AFactorState) :
    state.slide.aFactors.length = state.aFactors.length := by
  rw [slide_aFactors, CudaMpqs.advance_left, advanceLeft_length, advance_right,
    advanceRight_length, List.length_map]

theorem slide_last (state : AFactorState) (many : 2 ≤ state.aFactors.length) : state.slide.last =
      2 * (state.lastPosition + if UpperPacked state.aFactors then 1 else 0) := by
  have reset : (state.aFactors.map resetFactor).length = state.aFactors.length :=
    List.length_map _
  have even : ∀ j, (state.aFactors.map resetFactor).getD j 0 =
      2 * position (state.aFactors.map resetFactor) j := by
    intro j
    rw [position_map_resetFactor]
    exact getD_map_resetFactor state.aFactors j
  have right := advanceRight_last state.upperHalfStart (by omega) even
  rw [if_congr (upperPacked_map_resetFactor _) rfl rfl, even, position_map_resetFactor,
    reset] at right
  have lengths := advanceRight_length (state.aFactors.map resetFactor) state.upperHalfStart
    (advanceStart state.aFactors.length 1) 2
  rw [reset] at lengths
  have inside := advanceStart_inside many
  rw [last, slide_length, slide_aFactors, CudaMpqs.advance_left, advance_right, reset, lengths]
  have kept : ∀ {indices : List Nat}, indices.length = state.aFactors.length →
      (advanceLeft indices state.lowerHalfStart
        (advanceStart state.aFactors.length (-1)) 2).getD (state.aFactors.length - 1) 0 =
          indices.getD (state.aFactors.length - 1) 0 := by
    intro indices length
    rcases exists_movedLeft state.lowerHalfStart
      (by omega : advanceStart state.aFactors.length (-1) < indices.length) with same | moved
    · rw [same]
    · rcases moved with ⟨i, moved⟩
      exact moved.outside _ inside.1
  rw [kept lengths, right, lastPosition]
  split <;> omega

/-! ## What holds of every state of a run -/

structure Ordered (state : AFactorState) : Prop where
  positive : 0 < state.aFactors.length
  few : state.aFactors.length < 32
  cube : state.maxAIndex = 2 ^ state.aFactors.length
  index_lt : state.currentAIndex < state.maxAIndex
  ascending : ∀ j, j + 1 < state.aFactors.length →
    position state.aFactors j < position state.aFactors (j + 1)
  lastBasis : state.basis (state.aFactors.length - 1) = false
  windowed : 3 ≤ state.aFactors.length → ∃ low, state.Canonical low

variable {state : AFactorState}

theorem Ordered.last_eq (ordered : state.Ordered) : state.last = 2 * state.lastPosition +
      if 2 ^ (state.aFactors.length - 1) ≤ state.currentAIndex then 1 else 0 := by
  have bound := ordered.index_lt
  have basis := ordered.lastBasis
  have double := mul_pow_sub_one ordered.positive.ne' 2
  rw [ordered.cube] at bound
  have high : state.currentAIndex.testBit (state.aFactors.length - 1 + 1) = false := by
    rw [Nat.sub_add_cancel ordered.positive]
    exact Nat.testBit_lt_two_pow bound
  have halves : state.currentAIndex / 2 ^ (state.aFactors.length - 1) < 2 :=
    Nat.div_lt_of_lt_mul (by omega)
  have upper : state.currentAIndex / 2 ^ (state.aFactors.length - 1) = 1 ↔
      2 ^ (state.aFactors.length - 1) ≤ state.currentAIndex := by
    rw [← Nat.one_le_div_iff (Nat.two_pow_pos _)]
    omega
  rw [AFactorState.basis, testBit_grayCode, high, Bool.xor_false,
    Nat.testBit_eq_decide_div_mod_eq, Nat.mod_eq_of_lt halves] at basis
  have odd : state.last % 2 = 1 ↔ 2 ^ (state.aFactors.length - 1) ≤ state.currentAIndex :=
    (decide_eq_decide.mp (bne_eq_false_iff_eq.mp basis)).trans upper
  have half : state.lastPosition = state.last / 2 := rfl
  rw [if_congr odd.symm rfl rfl, half]
  split <;> omega

theorem Ordered.prepareStep (ordered : state.Ordered)
    (inside : state.currentAIndex + 1 < state.maxAIndex) :
    state.prepareStep.Ordered ∧ position state.prepareStep.aFactors = position state.aFactors ∧
      state.prepareStep.aFactors.length = state.aFactors.length := by
  have lengths := state.flip_length state.currentAIndex
  have positions := state.flip_position state.currentAIndex
  have basis := basis_prepareStep ordered.few ordered.cube inside
    (Nat.sub_lt ordered.positive one_pos)
  rw [ordered.lastBasis] at basis
  have canonical : 3 ≤ state.aFactors.length → ∃ low, state.prepareStep.Canonical low :=
    fun many => (ordered.windowed many).imp fun _ canonical => canonical.prepareStep
  rw [prepareStep_flip inside] at basis canonical ⊢
  refine ⟨⟨?_, ?_, ?_, inside, ?_, ?_, ?_⟩, positions, lengths⟩
  · exact lengths ▸ ordered.positive
  · exact lengths ▸ ordered.few
  · exact lengths ▸ ordered.cube
  · intro j bound
    rw [positions]
    exact ordered.ascending j (lengths ▸ bound)
  · exact lengths ▸ basis
  · exact lengths ▸ canonical

theorem Ordered.flips (ordered : state.Ordered) (steps : Nat)
    (inside : state.currentAIndex + steps < state.maxAIndex) :
    (state.advanceAFactors steps).Ordered ∧
      position (state.advanceAFactors steps).aFactors = position state.aFactors ∧
      (state.advanceAFactors steps).aFactors.length = state.aFactors.length := by
  rw [advanceAFactors_inside inside]
  induction steps with
  | zero => exact ⟨ordered, rfl, rfl⟩
  | succ steps previous =>
    rcases previous (by omega) with ⟨reached, positions, lengths⟩
    have next : (AFactorState.prepareStep^[steps] state).currentAIndex + 1 <
        (AFactorState.prepareStep^[steps] state).maxAIndex := by
      rw [iterate_prepareStep_inside (by omega)]
      change state.currentAIndex + steps + 1 < (state.flips steps).maxAIndex
      rw [flips_maxAIndex]
      omega
    rcases reached.prepareStep next with ⟨later, positions', lengths'⟩
    rw [Function.iterate_succ_apply']
    exact ⟨later, positions'.trans positions, lengths'.trans lengths⟩

private theorem slide_pair {first second : Nat} (pair : state.aFactors = [first, second]) :
    state.slide.aFactors = if resetFactor first < 2 then [resetFactor first, resetFactor second + 2]
      else [resetFactor first - 2, resetFactor second + 2] := by
  rw [slide_aFactors, pair, advance_right, CudaMpqs.advance_left]
  have lower : advanceStart 2 (-1) = 0 := by decide
  have upper : advanceStart 2 1 = 1 := by decide
  simp [advanceRight, advanceLeft, lower, upper]

theorem Ordered.slide (ordered : state.Ordered) (many : 2 ≤ state.aFactors.length) :
    state.slide.Ordered := by
  have lengths := state.slide_length
  have basis : state.slide.basis (state.slide.aFactors.length - 1) = false := by
    have even := state.slide_last many
    change (decide (state.slide.last % 2 = 1) ^^
      (grayCode 0).testBit (state.slide.aFactors.length - 1)) = false
    rw [even, Nat.mul_mod_right, grayCode_zero, Nat.zero_testBit]
    rfl
  have canonical : 3 ≤ state.aFactors.length → ∃ low, state.slide.Canonical low :=
    fun three => (ordered.windowed three).imp fun _ canonical => canonical.slide.1
  refine ⟨by omega, lengths ▸ ordered.few, lengths ▸ ordered.cube, ?_, ?_, basis,
    lengths ▸ canonical⟩
  · exact Nat.zero_lt_of_lt ordered.index_lt
  · rcases Nat.lt_or_ge state.aFactors.length 3 with two | three
    · rcases List.length_eq_two.mp (by omega : state.aFactors.length = 2) with
        ⟨first, second, pair⟩
      have apart := ordered.ascending 0 (by omega)
      rw [pair] at apart
      change first / 2 < second / 2 at apart
      intro j bound
      have zero : j = 0 := by omega
      rw [zero, slide_pair pair, resetFactor_eq, resetFactor_eq]
      split
      next =>
          change 2 * (first / 2) / 2 < (2 * (second / 2) + 2) / 2
          omega
      next =>
          change (2 * (first / 2) - 2) / 2 < (2 * (second / 2) + 2) / 2
          omega
    · rcases canonical three with ⟨low, window⟩
      exact window.window.ascending

/-! ## Runs -/

def Inside (size : Nat) (state : AFactorState) : Prop :=
  ∀ index ∈ state.aFactors, index < size

/-- There is room for the last factor: one index above its pair's even one when the step
enters or stays in the second half of the cube, two when it slides a packed upper half.
A slide needs two factors. -/
def Room (size : Nat) (state : AFactorState) (steps : Nat) : Prop :=
  (state.currentAIndex + steps < state.maxAIndex →
    2 ^ (state.aFactors.length - 1) ≤ state.currentAIndex + steps →
      2 * state.lastPosition + 1 < size) ∧
    (state.maxAIndex ≤ state.currentAIndex + steps → 2 ≤ state.aFactors.length ∧
        (UpperPacked state.aFactors → 2 * (state.lastPosition + 1) < size))

instance (size : Nat) (state : AFactorState) (steps : Nat) :
    Decidable (state.Room size steps) :=
  inferInstanceAs (Decidable (_ ∧ _))

instance (size : Nat) (state : AFactorState) : Decidable (state.Inside size) :=
  inferInstanceAs (Decidable (∀ index ∈ state.aFactors, index < size))

/-- Positions ascend, so the last index bounds the others. -/
theorem Ordered.inside {size : Nat} (ordered : state.Ordered) (below : state.last < size) :
    state.Inside size := by
  have rising : ∀ gap j, j + gap = state.aFactors.length - 1 →
      position state.aFactors j + gap ≤ state.lastPosition := by
    intro gap
    induction gap with
    | zero =>
      intro j same
      rw [lastPosition, ← same]
      exact le_rfl
    | succ gap next =>
      intro j far
      have later := next (j + 1) (by omega)
      have step := ordered.ascending j (by omega)
      omega
  have half : state.lastPosition = state.last / 2 := rfl
  intro index member
  rcases List.getElem_of_mem member with ⟨j, bound, rfl⟩
  have value : state.aFactors.getD j 0 = state.aFactors[j] := List.getD_eq_getElem _ _ bound
  rcases Nat.lt_or_ge j (state.aFactors.length - 1) with earlier | final
  · have climb := rising (state.aFactors.length - 1 - j) j (by omega)
    rw [position, value] at climb
    omega
  · have same : j = state.aFactors.length - 1 := by omega
    rw [← value, same]
    exact below

theorem Inside.last {size : Nat} (inside : state.Inside size)
    (positive : 0 < state.aFactors.length) : state.last < size := by
  rw [AFactorState.last, List.getD_eq_getElem _ _ (by omega)]
  exact inside _ (List.getElem_mem _)

theorem Ordered.step {size : Nat} {state : AFactorState} {steps : Nat}
    (room : state.Room size steps) (ordered : state.Ordered) (inside : state.Inside size) :
    (state.advanceAFactors steps).Ordered ∧ (state.advanceAFactors steps).Inside size := by
  have below := inside.last ordered.positive
  have half : state.lastPosition = state.last / 2 := rfl
  rcases Nat.lt_or_ge (state.currentAIndex + steps) state.maxAIndex with flips | slides
  · rcases ordered.flips steps flips with ⟨later, positions, lengths⟩
    have reached : (state.advanceAFactors steps).currentAIndex =
        state.currentAIndex + steps := by
      rw [advanceAFactors, if_pos flips]
    have same : (state.advanceAFactors steps).lastPosition = state.lastPosition := by
      rw [lastPosition, positions, lengths, lastPosition]
    refine ⟨later, later.inside ?_⟩
    rw [later.last_eq, same, reached, lengths]
    split
    next upper => exact room.1 flips upper
    next => omega
  · have slid : state.advanceAFactors steps = state.slide := if_neg (Nat.not_lt.mpr slides)
    rcases room.2 slides with ⟨many, packedRoom⟩
    have later := ordered.slide many
    rw [slid]
    refine ⟨later, later.inside ?_⟩
    rw [state.slide_last many]
    split
    next packed => exact packedRoom packed
    next => omega

private theorem advanceAFactors_one (state : AFactorState) :
    state.advanceAFactors 1 = state.prepareStep := by
  rw [advanceAFactors, prepareStep]
  rfl

theorem prepareNextBatchIndices_run (state : AFactorState) (batchSize : Nat) :
    (state.prepareNextBatchIndices batchSize).2 =
        Transition.run advanceAFactors state (List.replicate batchSize 1) ∧
      ∀ index ∈ (state.prepareNextBatchIndices batchSize).1, ∃ done < batchSize,
        index ∈ (Transition.run advanceAFactors state (List.replicate done 1)).aFactors := by
  induction batchSize generalizing state with
  | zero => exact ⟨rfl, fun _ member => absurd member List.not_mem_nil⟩
  | succ batchSize later =>
    rcases later state.prepareStep with ⟨reached, emitted⟩
    rw [prepareNextBatchIndices, List.replicate_succ, Transition.run_cons, advanceAFactors_one]
    refine ⟨reached, fun index member => ?_⟩
    rcases List.mem_append.mp member with now | next
    · exact ⟨0, Nat.succ_pos batchSize, now⟩
    · rcases emitted index next with ⟨done, below, inside⟩
      refine ⟨done + 1, Nat.succ_lt_succ below, ?_⟩
      rwa [List.replicate_succ, Transition.run_cons, advanceAFactors_one]

end AFactorState

/-! ## The start -/

def Between (size index : Nat) : Prop := 150 ≤ index ∧ index ≤ max 150 (size + 1)

theorem windowSearch_between (factorBase : List (BitVec 32)) (lowerBound upperBound : UInt512)
    (turns : Nat) {upperIndex lowerIndex : Nat} (product : UInt512)
    (upper : Between factorBase.length upperIndex)
    (lower : Between factorBase.length lowerIndex) :
    let window := windowSearch factorBase lowerBound upperBound turns upperIndex lowerIndex
      product
    Between factorBase.length window.1 ∧ Between factorBase.length window.2 := by
  induction turns generalizing upperIndex lowerIndex product with
  | zero => exact ⟨upper, lower⟩
  | succ turns next =>
    dsimp only
    rw [windowSearch]
    split
    next =>
        split
        next => exact ⟨upper, lower⟩
        next open' =>
            have step : ∀ (moves : Bool) {index : Nat}, Between factorBase.length index →
                index < factorBase.length →
                  Between factorBase.length (if moves then index + 2 else index) := by
              intro moves index between inside
              cases moves with
              | false => exact between
              | true => exact ⟨between.1.trans (Nat.le_add_right _ _), by
                  simp only [if_true]
                  omega⟩
            exact next _ (step _ upper (by omega)) (step _ lower (by omega))
    next => exact ⟨upper, lower⟩

theorem initAFactors_ordered {factorBase : List (BitVec 32)} {aTarget : UInt512}
    {start : AFactorState} (initial : initAFactors factorBase aTarget = some start)
    (fits : factorBase.length < 2 ^ 32) :
    start.Ordered ∧ start.Inside factorBase.length := by
  have canonical : 3 ≤ start.aFactors.length → ∃ low, start.Canonical low :=
    initAFactors_canonical initial
  have home : Between factorBase.length 150 := ⟨le_rfl, le_max_left _ _⟩
  rw [initAFactors] at initial
  have even := windowSearch_even factorBase aTarget
    ((aTarget.multUInt32 100).divUInt32Inplace 95).1 (factorBase.length + 1) 150 150
    (UInt512.ofUInt32 1) rfl
  have between := windowSearch_between factorBase aTarget
    ((aTarget.multUInt32 100).divUInt32Inplace 95).1 (factorBase.length + 1)
    (UInt512.ofUInt32 1) home home
  generalize windowSearch factorBase aTarget
    ((aTarget.multUInt32 100).divUInt32Inplace 95).1 (factorBase.length + 1) 150 150
    (UInt512.ofUInt32 1) = window at even between initial
  rcases window with ⟨upperIndex, lowerIndex⟩
  rcases between with ⟨⟨upperLow, upperHigh⟩, ⟨lowerLow, lowerHigh⟩⟩
  dsimp only at even upperLow upperHigh lowerLow lowerHigh initial
  generalize count : (upperIndex + 2 ^ 32 - lowerIndex) % 2 ^ 32 / 2 = numFactors at initial
  split at initial
  next => cases initial
  next defined =>
      cases initial
      have order : lowerIndex ≤ upperIndex := by omega
      have top : lowerIndex + 2 * (numFactors - 1) < factorBase.length := by omega
      have values : ∀ j < numFactors,
          ((List.range numFactors).map fun i => lowerIndex + 2 * i).getD j 0 =
            lowerIndex + 2 * j := by
        intro j bound
        rw [List.getD_eq_getElem _ _ (by simpa using bound), List.getElem_map,
          List.getElem_range]
      have length : ((List.range numFactors).map fun i => lowerIndex + 2 * i).length =
          numFactors := by
        rw [List.length_map, List.length_range]
      refine ⟨⟨?_, ?_, ?_, ?_, ?_, ?_, canonical⟩, ?_⟩
      · dsimp only
        omega
      · dsimp only
        omega
      · rw [length]
      · exact Nat.two_pow_pos numFactors
      · intro j bound
        dsimp only at bound ⊢
        rw [position, position, values j (by omega), values (j + 1) (by omega)]
        omega
      · rw [AFactorState.basis, values _ (by dsimp only; omega)]
        dsimp only
        rw [length, decide_eq_false (by omega), grayCode_zero, Nat.zero_testBit]
        rfl
      · intro index member
        rcases List.mem_map.mp member with ⟨i, inside, rfl⟩
        rw [List.mem_range] at inside
        omega

/-! ## Whole runs -/

open AFactorState in
/-- While every step finds room, no index leaves the factor base, emitted or kept. -/
theorem advanceAFactors_inside_factorBase {factorBase : List (BitVec 32)} {aTarget : UInt512}
    {start : AFactorState} (initial : initAFactors factorBase aTarget = some start)
    (fits : factorBase.length < 2 ^ 32) (steps : List Nat) :
    (Transition.Meets advanceAFactors (Room factorBase.length) start steps →
      (Transition.run advanceAFactors start steps).Inside factorBase.length) ∧
      ∀ batchSize, Transition.Meets advanceAFactors (Room factorBase.length) start
          (steps ++ List.replicate batchSize 1) →
        let batch := (Transition.run advanceAFactors start steps).prepareNextBatchIndices
          batchSize
        (∀ index ∈ batch.1, index < factorBase.length) ∧
          batch.2.Inside factorBase.length := by
  have initially := initAFactors_ordered initial fits
  have reached : ∀ {inputs : List Nat},
      Transition.Meets advanceAFactors (Room factorBase.length) start inputs →
        (Transition.run advanceAFactors start inputs).Inside factorBase.length := fun meets =>
    (Transition.Meets.invariant (fun _ _ room (holds : _ ∧ _) => holds.1.step room holds.2)
      meets initially).2
  refine ⟨reached, fun batchSize meets => ?_⟩
  rcases (Transition.run advanceAFactors start steps).prepareNextBatchIndices_run batchSize with
    ⟨final, emitted⟩
  refine ⟨fun index member => ?_, ?_⟩
  · rcases emitted index member with ⟨done, below, visited⟩
    have part : List.replicate done 1 <+: List.replicate batchSize 1 :=
      List.prefix_replicate_iff.mpr ⟨by rw [List.length_replicate]; exact below.le,
        by rw [List.length_replicate]⟩
    have inside := reached (meets.of_prefix ((List.prefix_append_right_inj steps).mpr part))
    rw [Transition.run_append] at inside
    exact inside index visited
  · have inside := reached meets
    rw [Transition.run_append] at inside
    rwa [final]

/-- The 153 odd primes up to 2063 modulo which the product of `10 ^ 14 + 31` and
`10 ^ 15 + 37` is a square. -/
def shortFactorBase : List (BitVec 32) :=
  ((List.range' 3 1031 2).filter fun p =>
    (List.range' 2 44).all (fun d => p % d != 0 || p == d) &&
      powMod ((10 ^ 14 + 31) * (10 ^ 15 + 37) % p) ((p - 1) / 2) p == 1).map (BitVec.ofNat 32)

def shortStart : AFactorState where
  aFactors := [150, 152]
  currentAIndex := 0
  maxAIndex := 4
  lowerHalfStart := 150
  upperHalfStart := 152

private theorem initAFactors_short :
    initAFactors shortFactorBase (UInt512.ofUInt32 4100000) = some shortStart := by
  decide +kernel

open AFactorState in
theorem advanceAFactors_inside_factorBase_short :
    (Transition.run advanceAFactors shortStart [1]).Inside shortFactorBase.length :=
  (advanceAFactors_inside_factorBase initAFactors_short (by decide +kernel) [1]).1
    (by decide +kernel)

/-- The second step flips the last factor to the length of the factor base. -/
theorem advanceAFactors_leaves_factorBase : shortFactorBase.length = 153 ∧
      initAFactors shortFactorBase (UInt512.ofUInt32 4100000) = some shortStart ∧
      (shortStart.advanceAFactors 2).aFactors = [151, 153] ∧
      153 ∈ (shortStart.prepareNextBatchIndices 3).1 := by
  decide +kernel

end CudaMpqs
