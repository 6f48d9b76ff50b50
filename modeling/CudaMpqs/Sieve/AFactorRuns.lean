import Mathlib.Data.List.Nodup
import CudaMpqs.Sieve.AFactors

/-! # Runs through the factors of `a`

No product of a run returns, a jump reaches the state of single steps, and
batches of any sizes emit what one batch does. -/

namespace CudaMpqs

open GrayCode

namespace AFactorState

/-! ## The order of a run -/

/-- The order of a run: the window first, the Gray index inside a window. -/
def Later (before after : AFactorState) : Prop :=
  toColex (position before.aFactors) < toColex (position after.aFactors) ∨
    (position before.aFactors = position after.aFactors ∧
      before.currentAIndex < after.currentAIndex ∧
      ∀ j < before.aFactors.length, before.basis j = after.basis j)

variable {low : Nat} {state : AFactorState}

theorem Canonical.later_prepareStep (canonical : state.Canonical low) :
    state.Later state.prepareStep := by
  rcases Nat.lt_or_ge (state.currentAIndex + 1) state.maxAIndex with inside | last
  · refine Or.inr ⟨?_, ?_, fun j bound =>
      (basis_prepareStep canonical.few canonical.maxAIndex inside bound).symm⟩
    · rw [prepareStep_flip inside]
      exact (state.flip_position state.currentAIndex).symm
    · rw [prepareStep_flip inside]
      exact Nat.lt_succ_self state.currentAIndex
  · rw [prepareStep_slide (Nat.not_lt.mpr last)]
    exact Or.inl canonical.slide.2.2

theorem Later.trans {first second third : AFactorState} (left : first.Later second)
    (right : second.Later third) (lengths : second.aFactors.length = first.aFactors.length) :
    first.Later third := by
  rcases left with raised | ⟨same, index, basis⟩
  · rcases right with raisedAgain | ⟨sameAgain, _, _⟩
    · exact Or.inl (raised.trans raisedAgain)
    · rw [sameAgain] at raised
      exact Or.inl raised
  · rcases right with raised | ⟨sameAgain, indexAgain, basisAgain⟩
    · rw [← same] at raised
      exact Or.inl raised
    · refine Or.inr ⟨same.trans sameAgain, index.trans indexAgain, ?_⟩
      intro j bound
      rw [basis j bound, basisAgain j (lengths ▸ bound)]

theorem Later.aFactors_ne {before after : AFactorState} (later : before.Later after)
    (beforeCanonical : before.Canonical low) (afterCanonical : after.Canonical low) :
    before.aFactors ≠ after.aFactors := by
  intro equal
  rcases later with raised | ⟨_, index, basis⟩
  · rw [equal] at raised
    exact lt_irrefl _ raised
  · have beforeBound := beforeCanonical.index_lt
    have afterBound := afterCanonical.index_lt
    rw [beforeCanonical.maxAIndex] at beforeBound
    rw [afterCanonical.maxAIndex, ← equal] at afterBound
    apply index.ne
    apply grayCode_injective
    apply Nat.eq_of_testBit_eq
    intro j
    rcases Nat.lt_or_ge j before.aFactors.length with inside | outside
    · have same := basis j inside
      rw [AFactorState.basis, AFactorState.basis, equal] at same
      exact Bool.xor_right_inj.mp same
    · have large : 2 ^ before.aFactors.length ≤ 2 ^ j :=
        Nat.pow_le_pow_right Nat.two_pos outside
      rw [Nat.testBit_lt_two_pow ((grayCode_lt beforeBound).trans_le large),
        Nat.testBit_lt_two_pow ((grayCode_lt afterBound).trans_le large)]

theorem Canonical.iterate (canonical : state.Canonical low) (steps : Nat) :
    (AFactorState.prepareStep^[steps] state).Canonical low ∧
      (AFactorState.prepareStep^[steps] state).aFactors.length = state.aFactors.length := by
  induction steps with
  | zero => exact ⟨canonical, rfl⟩
  | succ steps previous =>
    rcases previous with ⟨canonical', lengths⟩
    rw [Function.iterate_succ_apply']
    exact ⟨canonical'.prepareStep, (prepareStep_length canonical').trans lengths⟩

theorem Canonical.later_iterate (canonical : state.Canonical low) (steps : Nat) :
    state.Later (AFactorState.prepareStep^[steps + 1] state) := by
  induction steps with
  | zero => exact canonical.later_prepareStep
  | succ steps previous =>
    rcases canonical.iterate (steps + 1) with ⟨canonical', lengths⟩
    rw [Function.iterate_succ_apply']
    exact previous.trans canonical'.later_prepareStep lengths

theorem Canonical.aFactors_injective (canonical : state.Canonical low) {first second : Nat}
    (order : first < second) :
    (AFactorState.prepareStep^[first] state).aFactors ≠
      (AFactorState.prepareStep^[second] state).aFactors := by
  have firstCanonical := (canonical.iterate first).1
  have secondCanonical := (canonical.iterate second).1
  have split : second = (second - first - 1 + 1) + first := by omega
  have later := firstCanonical.later_iterate (second - first - 1)
  rw [← Function.iterate_add_apply, ← split] at later
  exact later.aFactors_ne firstCanonical secondCanonical

/-! ## Emitted vectors -/

theorem Canonical.pairwise (canonical : state.Canonical low) : state.aFactors.Pairwise (· < ·) := by
  rw [← List.isChain_iff_pairwise, List.isChain_iff_getElem]
  intro j bound
  have below := canonical.window.ascending j bound
  rw [position, position, List.getD_eq_getElem _ _ (Nat.lt_of_succ_lt bound),
    List.getD_eq_getElem _ _ bound] at below
  omega

def emitted (state : AFactorState) (steps : Nat) : List (List Nat) :=
  (List.range steps).map fun i => (prepareStep^[i] state).aFactors

theorem prepareNextBatchIndices_eq (state : AFactorState) (steps : Nat) :
    state.prepareNextBatchIndices steps =
      ((state.emitted steps).flatten, prepareStep^[steps] state) := by
  induction steps generalizing state with
  | zero => rfl
  | succ steps previous =>
    rw [prepareNextBatchIndices, previous, emitted, emitted, List.range_succ_eq_map,
      List.map_cons, List.map_map, List.flatten_cons]
    rfl

theorem Canonical.nodup_emitted (canonical : state.Canonical low) (steps : Nat) :
    (state.emitted steps).Nodup := by
  refine List.Nodup.map_on ?_ List.nodup_range
  intro first _ second _ equal
  rcases Nat.lt_trichotomy first second with before | same | after
  · exact absurd equal (canonical.aFactors_injective before)
  · exact same
  · exact absurd equal.symm (canonical.aFactors_injective after)

end AFactorState

/-! ## Initial states -/

private theorem even_step (moves : Bool) {index : Nat} (even : index % 2 = 0) :
    (if moves then index + 2 else index) % 2 = 0 := by
  cases moves with
  | false => exact even
  | true => exact (Nat.add_mod_right index 2).trans even

theorem windowSearch_even (factorBase : List (BitVec 32)) (lowerBound upperBound : UInt512)
    (turns upperIndex lowerIndex : Nat) (product : UInt512) (even : lowerIndex % 2 = 0) :
    (windowSearch factorBase lowerBound upperBound turns upperIndex lowerIndex
      product).2 % 2 = 0 := by
  induction turns generalizing upperIndex lowerIndex product with
  | zero => exact even
  | succ turns next =>
    rw [windowSearch]
    split
    next =>
        split
        next => exact even
        next => exact next _ _ _ (even_step _ even)
    next => exact even

variable {start : AFactorState}

theorem initAFactors_canonical {factorBase : List (BitVec 32)} {aTarget : UInt512}
    (initial : initAFactors factorBase aTarget = some start) (many : 3 ≤ start.aFactors.length) :
    ∃ low, start.Canonical low := by
  rw [initAFactors] at initial
  have even := windowSearch_even factorBase aTarget
    ((aTarget.multUInt32 100).divUInt32Inplace 95).1 (factorBase.length + 1) 150 150
    (UInt512.ofUInt32 1) rfl
  generalize windowSearch factorBase aTarget
    ((aTarget.multUInt32 100).divUInt32Inplace 95).1 (factorBase.length + 1) 150 150
    (UInt512.ofUInt32 1) = window at even initial
  generalize lowerEq : window.2 = lowerIndex at even initial
  generalize (window.1 + 2 ^ 32 - lowerIndex) % 2 ^ 32 / 2 = numFactors at initial
  split at initial
  next => cases initial
  next defined =>
      cases initial
      simp only [List.length_map, List.length_range] at many
      have positions : ∀ j < numFactors, position
          ((List.range numFactors).map fun i => lowerIndex + 2 * i) j = lowerIndex / 2 + j := by
        intro j bound
        rw [position, List.getD_eq_getElem _ _ (by simpa using bound), List.getElem_map,
          List.getElem_range]
        omega
      have order := advanceStart_order many
      refine ⟨lowerIndex / 2, ⟨?_, ?_, ?_, ?_, ?_⟩, ?_, ?_, ?_, ?_, ?_⟩
      all_goals simp only [List.length_map, List.length_range]
      · exact many
      · intro j bound
        rw [positions j (by omega), positions (j + 1) bound]
        omega
      · intro j lower
        rw [positions j (by omega)]
      · intro j _ bound
        rw [positions j bound]
      · intro j _ upper
        rw [positions j (by omega)]
      · omega
      · exact Nat.two_pow_pos numFactors
      · rcases Nat.mod_two_eq_zero_or_one numFactors with size | size
        · rw [(advanceStart_even size (by omega)).2]
          omega
        · rw [(advanceStart_odd size many).2]
          omega
      · rcases Nat.mod_two_eq_zero_or_one numFactors with size | size
        · rw [if_pos size, (advanceStart_even size (by omega)).1]
          omega
        · rw [if_neg (by omega), (advanceStart_odd size many).1]
          omega

/-! ## No product returns -/

/-- The emitted vectors are strictly increasing, and none is emitted twice. -/
theorem prepareNextBatchIndices_distinct {factorBase : List (BitVec 32)} {aTarget : UInt512}
    {start : AFactorState} (initial : initAFactors factorBase aTarget = some start)
    (many : 3 ≤ start.aFactors.length) (steps : Nat) :
    ∃ vectors : List (List Nat), (start.prepareNextBatchIndices steps).1 = vectors.flatten ∧
      vectors.length = steps ∧
      (∀ vector ∈ vectors, vector.length = start.aFactors.length ∧ vector.Pairwise (· < ·)) ∧
      vectors.Nodup := by
  rcases initAFactors_canonical initial many with ⟨low, canonical⟩
  refine ⟨start.emitted steps, ?_, ?_, ?_, canonical.nodup_emitted steps⟩
  · rw [AFactorState.prepareNextBatchIndices_eq]
  · rw [AFactorState.emitted, List.length_map, List.length_range]
  · intro vector member
    rcases List.mem_map.mp member with ⟨i, _, rfl⟩
    rcases canonical.iterate i with ⟨canonical', lengths⟩
    exact ⟨lengths, canonical'.pairwise⟩

def smallFactorBase : List (BitVec 32) :=
  ((List.range' 2 940).filter fun n =>
    (List.range' 2 29).all fun d => n % d != 0 || n == d).map (BitVec.ofNat 32)

def smallStart : AFactorState where
  aFactors := [150, 152, 154]
  currentAIndex := 0
  maxAIndex := 8
  lowerHalfStart := 151
  upperHalfStart := 155

theorem initAFactors_small :
    initAFactors smallFactorBase (UInt512.ofUInt32 702000000) = some smallStart := by
  decide +kernel

theorem prepareNextBatchIndices_distinct_small : ∃ vectors : List (List Nat),
      (smallStart.prepareNextBatchIndices 20).1 = vectors.flatten ∧
      vectors.length = 20 ∧
      (∀ vector ∈ vectors, vector.length = 3 ∧ vector.Pairwise (· < ·)) ∧
      vectors.Nodup :=
  prepareNextBatchIndices_distinct initAFactors_small (by decide) 20

/-! ## Jumps -/

namespace AFactorState

def flips (state : AFactorState) (steps : Nat) : AFactorState :=
  (List.range steps).foldl (fun state' i => state'.flip (state.currentAIndex + i)) state

theorem flips_succ (state : AFactorState) (steps : Nat) :
    state.flips (steps + 1) = (state.flips steps).flip (state.currentAIndex + steps) := by
  rw [flips, List.range_succ, List.foldl_append]
  rfl

theorem flips_maxAIndex (state : AFactorState) (steps : Nat) :
    (state.flips steps).maxAIndex = state.maxAIndex := by
  induction steps with
  | zero => rfl
  | succ steps previous =>
    rw [flips_succ]
    exact previous

variable {state : AFactorState}

theorem iterate_prepareStep_inside {steps : Nat}
    (inside : state.currentAIndex + steps < state.maxAIndex) :
    prepareStep^[steps] state =
      { state.flips steps with currentAIndex := state.currentAIndex + steps } := by
  induction steps with
  | zero => rfl
  | succ steps previous =>
    have next : state.currentAIndex + steps + 1 < (state.flips steps).maxAIndex := by
      rw [flips_maxAIndex]
      exact inside
    rw [Function.iterate_succ_apply', previous (by omega), prepareStep_flip next,
      flips_succ]
    rfl

theorem advanceAFactors_inside {steps : Nat}
    (inside : state.currentAIndex + steps < state.maxAIndex) :
    state.advanceAFactors steps = prepareStep^[steps] state := by
  rw [iterate_prepareStep_inside inside, advanceAFactors, if_pos inside]
  rfl

end AFactorState

end CudaMpqs
