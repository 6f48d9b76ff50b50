import Mathlib.Data.List.Range
import Mathlib.Order.PiLex
import CudaMpqs.Common.UInt512Product
import CudaMpqs.Sieve.GrayWalk

/-! # The factors of `a`

`prime_algorithms.cu` runs through products of factor-base primes. Inside a
hypercube each factor index is flipped between an even number and its
successor along a Gray code; when the cube is exhausted the upper half of the
indices moves right and the lower half left. -/

namespace CudaMpqs

open GrayCode

/-! ## State and moves -/

structure AFactorState where
  aFactors : List Nat
  currentAIndex : Nat
  maxAIndex : Nat
  lowerHalfStart : Nat
  upperHalfStart : Nat
deriving DecidableEq

def flipFactor (index : Nat) : Nat :=
  if index % 2 = 0 then index + 1 else index - 1

def resetFactor (index : Nat) : Nat :=
  if index % 2 = 1 then index - 1 else index

/-- `startIndex` of `advance`; the source moves at least two factors. -/
def advanceStart (size : Nat) (direction : Int) : Nat :=
  if size % 2 = 0 then (((size : Int) - 1 + direction) / 2).toNat
  else (((size : Int) - 1 + 2 * direction) / 2).toNat

/-- The shift to the right: the first index from `startIndex` with space moves,
those below it are reset from the pivot; without space the last one moves. -/
def advanceRight (indices : List Nat) (pivotPrime startIndex stepSize : Nat) : List Nat :=
  match (List.range' startIndex (indices.length - 1 - startIndex)).find? fun i =>
      indices.getD i 0 + stepSize < indices.getD (i + 1) 0 with
  | some i => indices.mapIdx fun j index =>
    if j = i then index + stepSize
    else if startIndex ≤ j ∧ j < i then pivotPrime + stepSize * (j - startIndex)
    else index
  | none => indices.mapIdx fun j index =>
    if j = indices.length - 1 then index + stepSize else index

/-- The shift to the left: the first index from `startIndex` down with space
moves, those above it are reset; without space the first one moves, unless it
is at the factor-base boundary. -/
def advanceLeft (indices : List Nat) (pivotPrime startIndex stepSize : Nat) : List Nat :=
  match (List.range' 1 startIndex).reverse.find? fun i =>
      indices.getD (i - 1) 0 + stepSize < indices.getD i 0 with
  | some i => indices.mapIdx fun j index =>
    if j = i then index - stepSize
    else if i < j ∧ j ≤ startIndex then pivotPrime - stepSize * (startIndex - j)
    else index
  | none =>
    if indices.getD 0 0 < stepSize then indices
    else indices.mapIdx fun j index => if j = 0 then index - stepSize else index

def advance (indices : List Nat) (pivotPrime : Nat) (direction : Int) (stepSize : Nat) : List Nat :=
  let startIndex := advanceStart indices.length direction
  if 0 < direction then advanceRight indices pivotPrime startIndex stepSize
  else if direction < 0 then advanceLeft indices pivotPrime startIndex stepSize
  else indices

namespace AFactorState

def flip (state : AFactorState) (index : Nat) : AFactorState :=
  { state with
    aFactors := state.aFactors.modify (advanceGray (BitVec.ofNat 32 index)).toNat
      flipFactor }

def slide (state : AFactorState) : AFactorState :=
  let bits := state.aFactors.map resetFactor
  let bits := advance bits state.upperHalfStart 1 2
  let bits := advance bits state.lowerHalfStart (-1) 2
  { state with aFactors := bits, currentAIndex := 0 }

def prepareStep (state : AFactorState) : AFactorState :=
  if state.currentAIndex + 1 < state.maxAIndex then
    { state.flip state.currentAIndex with currentAIndex := state.currentAIndex + 1 }
  else state.slide

def prepareNextBatchIndices (state : AFactorState) : Nat → List Nat × AFactorState
  | 0 => ([], state)
  | batchSize + 1 =>
    let rest := prepareNextBatchIndices state.prepareStep batchSize
    (state.aFactors ++ rest.1, rest.2)

def advanceAFactors (state : AFactorState) (steps : Nat) : AFactorState :=
  if state.currentAIndex + steps < state.maxAIndex then
    let flipped := (List.range steps).foldl
      (fun state' i => state'.flip (state.currentAIndex + i)) state
    { flipped with currentAIndex := state.currentAIndex + steps }
  else state.slide

end AFactorState

/-! ## The initial state -/

/-- The search for a product near `a_target`: the two ends of the window. The first
argument bounds the turns; an end moves on every turn, so one more than there are primes
is enough. -/
def windowSearch (factorBase : List (BitVec 32)) (lowerBound upperBound : UInt512) :
    Nat → Nat → Nat → UInt512 → Nat × Nat
  | 0, currentUpperIndex, currentLowerIndex, _ => (currentUpperIndex, currentLowerIndex)
  | turns + 1, currentUpperIndex, currentLowerIndex, product =>
    if product.less lowerBound || upperBound.less product then
      if factorBase.length ≤ currentUpperIndex ∨ factorBase.length ≤ currentLowerIndex then
        (currentUpperIndex, currentLowerIndex)
      else
        let below := product.less lowerBound
        let product := if below then
          product.multUInt32 (factorBase.getD currentUpperIndex 0) else product
        let currentUpperIndex := if below then currentUpperIndex + 2 else currentUpperIndex
        let above := upperBound.less product
        let product := if above then
          (product.divUInt32Inplace (factorBase.getD currentLowerIndex 0)).1 else product
        let currentLowerIndex := if above then currentLowerIndex + 2 else currentLowerIndex
        windowSearch factorBase lowerBound upperBound turns currentUpperIndex
          currentLowerIndex product
    else (currentUpperIndex, currentLowerIndex)

/-- The state after the search. No factor (`recalc_a` then writes outside its
vector) and 32 or more (`1 << size` is then undefined) give none. -/
def initAFactors (factorBase : List (BitVec 32)) (aTarget : UInt512) : Option AFactorState :=
  let upperBound := ((aTarget.multUInt32 100).divUInt32Inplace 95).1
  let window := windowSearch factorBase aTarget upperBound (factorBase.length + 1) 150 150
    (UInt512.ofUInt32 1)
  let currentLowerIndex := window.2
  -- uint32_t arithmetic
  let numFactors := (window.1 + 2 ^ 32 - currentLowerIndex) % 2 ^ 32 / 2
  if numFactors = 0 ∨ 32 ≤ numFactors then none
  else some
    { aFactors := (List.range numFactors).map fun i => currentLowerIndex + 2 * i
      currentAIndex := 0
      maxAIndex := 2 ^ numFactors
      lowerHalfStart := currentLowerIndex + numFactors - 2
      upperHalfStart :=
        if numFactors % 2 = 0 then currentLowerIndex + numFactors
        else currentLowerIndex + numFactors + 2 }

/-! ## One slide of a half -/

theorem getD_mapIdx (indices : List Nat) (change : Nat → Nat → Nat) {j : Nat}
    (inside : j < indices.length) :
    (indices.mapIdx change).getD j 0 = change j (indices.getD j 0) := by
  rw [List.getD_eq_getElem _ _ (by simpa using inside), List.getElem_mapIdx,
    List.getD_eq_getElem _ _ inside]

theorem getD_mapIdx_fixed (indices : List Nat) (change : Nat → Nat → Nat) {j : Nat}
    (fixed : ∀ index, change j index = index) :
    (indices.mapIdx change).getD j 0 = indices.getD j 0 := by
  rcases Nat.lt_or_ge j indices.length with inside | outside
  · rw [getD_mapIdx indices change inside, fixed]
  · rw [List.getD_eq_default _ _ (by simpa using outside),
      List.getD_eq_default _ _ outside]

structure MovedRight (pivotPrime startIndex i : Nat) (before after : List Nat) : Prop where
  start_le : startIndex ≤ i
  inside : i < before.length
  length : after.length = before.length
  space : i + 1 < before.length → before.getD i 0 + 2 < before.getD (i + 1) 0
  moved : after.getD i 0 = before.getD i 0 + 2
  above : ∀ j, i < j → after.getD j 0 = before.getD j 0
  outside : ∀ j < startIndex, after.getD j 0 = before.getD j 0
  between : (∀ j, startIndex ≤ j → j < i → after.getD j 0 = pivotPrime + 2 * (j - startIndex)) ∨
    ∀ j, startIndex ≤ j → j < i → after.getD j 0 = before.getD j 0

variable {indices : List Nat}

theorem exists_movedRight (pivotPrime : Nat) {startIndex : Nat}
    (inside : startIndex < indices.length) :
    ∃ i, MovedRight pivotPrime startIndex i indices
      (advanceRight indices pivotPrime startIndex 2) := by
  rw [advanceRight]
  split
  next i found =>
      have member := List.mem_of_find?_eq_some found
      have space : indices.getD i 0 + 2 < indices.getD (i + 1) 0 := by
        simpa using List.find?_some found
      rw [List.mem_range'_1] at member
      refine ⟨i, member.1, by omega, List.length_mapIdx, fun _ => space, ?_, ?_, ?_,
        Or.inl ?_⟩
      · rw [getD_mapIdx _ _ (by omega), if_pos rfl]
      · intro j above
        apply getD_mapIdx_fixed
        intro index
        rw [if_neg (by omega), if_neg (by omega)]
      · intro j below
        apply getD_mapIdx_fixed
        intro index
        rw [if_neg (by omega), if_neg (by omega)]
      · intro j start_le below
        rw [getD_mapIdx _ _ (by omega), if_neg (by omega), if_pos ⟨start_le, below⟩]
  next =>
      refine ⟨indices.length - 1, by omega, by omega, List.length_mapIdx, by omega,
        ?_, ?_, ?_, Or.inr ?_⟩
      · rw [getD_mapIdx _ _ (by omega), if_pos rfl]
      · intro j above
        apply getD_mapIdx_fixed
        intro index
        rw [if_neg (by omega)]
      · intro j below
        apply getD_mapIdx_fixed
        intro index
        rw [if_neg (by omega)]
      · intro j _ below
        apply getD_mapIdx_fixed
        intro index
        rw [if_neg (by omega)]

structure MovedLeft (pivotPrime startIndex i : Nat) (before after : List Nat) : Prop where
  le_start : i ≤ startIndex
  length : after.length = before.length
  room : 2 ≤ before.getD i 0
  space : 0 < i → before.getD (i - 1) 0 + 2 < before.getD i 0
  moved : after.getD i 0 = before.getD i 0 - 2
  below : ∀ j < i, after.getD j 0 = before.getD j 0
  outside : ∀ j, startIndex < j → after.getD j 0 = before.getD j 0
  between : (∀ j, i < j → j ≤ startIndex → after.getD j 0 = pivotPrime - 2 * (startIndex - j)) ∨
    ∀ j, i < j → j ≤ startIndex → after.getD j 0 = before.getD j 0

theorem exists_movedLeft (pivotPrime : Nat) {startIndex : Nat}
    (inside : startIndex < indices.length) :
    advanceLeft indices pivotPrime startIndex 2 = indices ∨
      ∃ i, MovedLeft pivotPrime startIndex i indices
        (advanceLeft indices pivotPrime startIndex 2) := by
  rw [advanceLeft]
  split
  next i found =>
      have member := List.mem_of_find?_eq_some found
      have space : indices.getD (i - 1) 0 + 2 < indices.getD i 0 := by
        simpa using List.find?_some found
      rw [List.mem_reverse, List.mem_range'_1] at member
      refine Or.inr ⟨i, by omega, List.length_mapIdx, by omega, fun _ => space, ?_, ?_,
        ?_, Or.inl ?_⟩
      · rw [getD_mapIdx _ _ (by omega), if_pos rfl]
      · intro j below
        apply getD_mapIdx_fixed
        intro index
        rw [if_neg (by omega), if_neg (by omega)]
      · intro j outside
        apply getD_mapIdx_fixed
        intro index
        rw [if_neg (by omega), if_neg (by omega)]
      · intro j above le_start
        rw [getD_mapIdx _ _ (by omega), if_neg (by omega), if_pos ⟨above, le_start⟩]
  next =>
      split
      next => exact Or.inl rfl
      next room =>
          refine Or.inr ⟨0, by omega, List.length_mapIdx, by omega, by omega, ?_, by omega,
            ?_, Or.inr ?_⟩
          · rw [getD_mapIdx _ _ (by omega), if_pos rfl]
          · intro j outside
            apply getD_mapIdx_fixed
            intro index
            rw [if_neg (by omega)]
          · intro j above _
            apply getD_mapIdx_fixed
            intro index
            rw [if_neg (by omega)]

/-! ## Positions of the window -/

def position (indices : List Nat) (j : Nat) : Nat := indices.getD j 0 / 2

theorem advanceStart_even {n : Nat} (even : n % 2 = 0) (many : 2 ≤ n) :
    advanceStart n 1 = n / 2 ∧ advanceStart n (-1) = n / 2 - 1 := by
  simp only [advanceStart, even, if_true]
  omega

theorem advanceStart_odd {n : Nat} (odd : n % 2 = 1) (many : 3 ≤ n) :
    advanceStart n 1 = (n + 1) / 2 ∧ advanceStart n (-1) = (n - 3) / 2 := by
  have notEven : ¬ n % 2 = 0 := by omega
  simp only [advanceStart, notEven, if_false]
  omega

theorem advanceStart_order {n : Nat} (many : 3 ≤ n) :
    advanceStart n (-1) < advanceStart n 1 ∧ advanceStart n 1 < n := by
  rcases Nat.mod_two_eq_zero_or_one n with even | odd
  · rcases advanceStart_even even (by omega) with ⟨upper, lower⟩
    omega
  · rcases advanceStart_odd odd many with ⟨upper, lower⟩
    omega

/-- Factors at ascending positions: the lower half at or left of its home
`low + j`, the upper half at or right of it, a middle one at home. -/
structure Window (low : Nat) (indices : List Nat) : Prop where
  many : 3 ≤ indices.length
  ascending : ∀ j, j + 1 < indices.length → position indices j < position indices (j + 1)
  lower : ∀ j ≤ advanceStart indices.length (-1), position indices j ≤ low + j
  upper : ∀ j, advanceStart indices.length 1 ≤ j → j < indices.length → low + j ≤ position indices j
  middle : ∀ j, advanceStart indices.length (-1) < j → j < advanceStart indices.length 1 →
    position indices j = low + j

theorem Window.le_home {low : Nat} (window : Window low indices) {j : Nat}
    (outer : j < advanceStart indices.length 1) : position indices j ≤ low + j := by
  rcases Nat.lt_or_ge (advanceStart indices.length (-1)) j with middle | lower
  · exact (window.middle j middle outer).le
  · exact window.lower j lower

theorem Window.home_le {low : Nat} (window : Window low indices) {j : Nat}
    (outer : advanceStart indices.length (-1) < j) (bound : j < indices.length) :
    low + j ≤ position indices j := by
  rcases Nat.lt_or_ge j (advanceStart indices.length 1) with middle | upper
  · exact (window.middle j outer middle).ge
  · exact window.upper j upper bound

theorem Window.movedRight {low pivotPrime i : Nat} {before after : List Nat}
    (window : Window low before)
    (even : ∀ j, before.getD j 0 = 2 * position before j)
    (home : pivotPrime / 2 = low + advanceStart before.length 1)
    (moved : MovedRight pivotPrime (advanceStart before.length 1) i before after) :
    Window low after ∧ position before i < position after i := by
  have order := advanceStart_order window.many
  have atMoved : position after i = position before i + 1 := by
    rw [position, moved.moved, even]
    omega
  have aboveMoved : ∀ j, i < j → position after j = position before j := by
    intro j above
    rw [position, moved.above j above, position]
  have belowStart : ∀ j < advanceStart before.length 1,
      position after j = position before j := by
    intro j below
    rw [position, moved.outside j below, position]
  have between : (∀ j, advanceStart before.length 1 ≤ j → j < i → position after j = low + j) ∨
      ∀ j, advanceStart before.length 1 ≤ j → j < i → position after j = position before j := by
    rcases moved.between with reset | kept
    · refine Or.inl fun j start_le below => ?_
      rw [position, reset j start_le below]
      omega
    · exact Or.inr fun j start_le below => by rw [position, kept j start_le below, position]
  have space : i + 1 < before.length → position before i + 1 < position before (i + 1) := by
    intro inside
    have gap := moved.space inside
    rw [even i, even (i + 1)] at gap
    omega
  have inside := moved.inside
  have start_le := moved.start_le
  have atHome := window.upper i start_le inside
  have upperAfter : ∀ j, advanceStart before.length 1 ≤ j → j < before.length →
      low + j ≤ position after j := by
    intro j start bound
    have old := window.upper j start bound
    rcases Nat.lt_trichotomy j i with below | equal | above
    · rcases between with reset | kept
      · rw [reset j start below]
      · rw [kept j start below]
        exact old
    · rw [equal, atMoved]
      omega
    · rw [aboveMoved j above]
      exact old
  refine ⟨⟨moved.length ▸ window.many, ?_, ?_, ?_, ?_⟩, by omega⟩
  · intro j bound
    rw [moved.length] at bound
    have before_lt := window.ascending j bound
    rcases Nat.lt_or_ge j (advanceStart before.length 1) with outer | start
    · have home := window.le_home outer
      rw [belowStart j outer]
      rcases Nat.lt_or_ge (j + 1) (advanceStart before.length 1) with outerNext | startNext
      · rw [belowStart (j + 1) outerNext]
        exact before_lt
      · have nextHome := upperAfter (j + 1) startNext bound
        omega
    · have nextHome := upperAfter (j + 1) (by omega) bound
      rcases Nat.lt_trichotomy j i with below | equal | above
      · rcases between with reset | kept
        · rw [reset j start below]
          omega
        · rw [kept j start below]
          rcases Nat.lt_or_ge (j + 1) i with inner | last
          · rw [kept (j + 1) (by omega) inner]
            exact before_lt
          · have next : j + 1 = i := by omega
            rw [next] at before_lt ⊢
            rw [atMoved]
            omega
      · rw [equal, atMoved, aboveMoved (i + 1) (Nat.lt_succ_self i)]
        exact space (equal ▸ bound)
      · rw [aboveMoved j above, aboveMoved (j + 1) (by omega)]
        exact before_lt
  · intro j bound
    rw [moved.length] at bound
    rw [belowStart j (by omega)]
    exact window.lower j bound
  · intro j start bound
    rw [moved.length] at start bound
    exact upperAfter j start bound
  · intro j start bound
    rw [moved.length] at start bound
    rw [belowStart j bound]
    exact window.middle j start bound

theorem Window.movedLeft {low pivotPrime i : Nat} {before after : List Nat}
    (window : Window low before)
    (even : ∀ j ≤ advanceStart before.length (-1), before.getD j 0 = 2 * position before j)
    (home : pivotPrime / 2 = low + advanceStart before.length (-1))
    (moved : MovedLeft pivotPrime (advanceStart before.length (-1)) i before after) :
    Window low after := by
  have order := advanceStart_order window.many
  have le_start := moved.le_start
  have room := moved.room
  rw [even i le_start] at room
  have atMoved : position after i = position before i - 1 := by
    rw [position, moved.moved, even i le_start]
    omega
  have belowMoved : ∀ j < i, position after j = position before j := by
    intro j below
    rw [position, moved.below j below, position]
  have aboveStart : ∀ j, advanceStart before.length (-1) < j →
      position after j = position before j := by
    intro j above
    rw [position, moved.outside j above, position]
  have between : (∀ j, i < j → j ≤ advanceStart before.length (-1) → position after j = low + j) ∨
      ∀ j, i < j → j ≤ advanceStart before.length (-1) →
        position after j = position before j := by
    rcases moved.between with reset | kept
    · refine Or.inl fun j above start => ?_
      rw [position, reset j above start]
      omega
    · exact Or.inr fun j above start => by rw [position, kept j above start, position]
  have lowerAfter : ∀ j ≤ advanceStart before.length (-1), position after j ≤ low + j := by
    intro j start
    have old := window.lower j start
    rcases Nat.lt_trichotomy j i with below | equal | above
    · rw [belowMoved j below]
      exact old
    · rw [equal, atMoved]
      rw [equal] at old
      omega
    · rcases between with reset | kept
      · rw [reset j above start]
      · rw [kept j above start]
        exact old
  have space : 0 < i → position before (i - 1) + 1 < position before i := by
    intro positive
    have gap := moved.space positive
    rw [even i le_start, even (i - 1) (by omega)] at gap
    omega
  refine ⟨moved.length ▸ window.many, ?_, ?_, ?_, ?_⟩
  · intro j bound
    rw [moved.length] at bound
    have before_lt := window.ascending j bound
    rcases Nat.lt_or_ge (advanceStart before.length (-1)) (j + 1) with outer | start
    · rw [aboveStart (j + 1) outer]
      rcases Nat.lt_or_ge (advanceStart before.length (-1)) j with outerToo | inner
      · rw [aboveStart j outerToo]
        exact before_lt
      · have home := lowerAfter j inner
        have nextHome := window.home_le outer bound
        omega
    · have home := lowerAfter j (by omega)
      rcases Nat.lt_trichotomy (j + 1) i with below | equal | above
      · rw [belowMoved j (by omega), belowMoved (j + 1) below]
        exact before_lt
      · have gap := space (by omega)
        have previous : i - 1 = j := by omega
        rw [previous] at gap
        rw [equal, atMoved, belowMoved j (by omega)]
        omega
      · rcases between with reset | kept
        · rw [reset (j + 1) above start]
          omega
        · rw [kept (j + 1) above start]
          rcases Nat.lt_or_ge i j with inner | last
          · rw [kept j inner (by omega)]
            exact before_lt
          · have same : j = i := by omega
            rw [same] at before_lt ⊢
            rw [atMoved]
            omega
  · intro j start
    rw [moved.length] at start
    exact lowerAfter j start
  · intro j start bound
    rw [moved.length] at start bound
    rw [aboveStart j (by omega)]
    exact window.upper j start bound
  · intro j start bound
    rw [moved.length] at start bound
    rw [aboveStart j start]
    exact window.middle j start bound

/-! ## One move of the state -/

theorem resetFactor_eq (index : Nat) : resetFactor index = 2 * (index / 2) := by
  rw [resetFactor]
  split <;> omega

theorem flipFactor_half (index : Nat) : flipFactor index / 2 = index / 2 := by
  rw [flipFactor]
  split <;> omega

theorem getD_map_resetFactor (indices : List Nat) (j : Nat) :
    (indices.map resetFactor).getD j 0 = 2 * position indices j := by
  have mapped : (indices.map resetFactor).getD j (resetFactor 0) =
      resetFactor (indices.getD j 0) := List.getD_map indices 0 resetFactor
  rw [position, ← resetFactor_eq, ← mapped]
  rfl

theorem Window.congr {low : Nat} {left right : List Nat} (window : Window low left)
    (lengths : right.length = left.length) (positions : position right = position left) :
    Window low right := by
  rcases window with ⟨many, ascending, lower, upper, middle⟩
  rw [← lengths] at many ascending lower upper middle
  rw [← positions] at ascending lower upper middle
  exact ⟨many, ascending, lower, upper, middle⟩

theorem advance_right (indices : List Nat) (pivotPrime : Nat) : advance indices pivotPrime 1 2 =
      advanceRight indices pivotPrime (advanceStart indices.length 1) 2 := by
  rw [advance, if_pos (by decide)]

theorem advance_left (indices : List Nat) (pivotPrime : Nat) : advance indices pivotPrime (-1) 2 =
      advanceLeft indices pivotPrime (advanceStart indices.length (-1)) 2 := by
  rw [advance, if_neg (by decide), if_pos (by decide)]

theorem Window.advance_left {low pivotPrime : Nat} (window : Window low indices)
    (even : ∀ j ≤ advanceStart indices.length (-1), indices.getD j 0 = 2 * position indices j)
    (home : pivotPrime / 2 = low + advanceStart indices.length (-1)) :
    Window low (advance indices pivotPrime (-1) 2) ∧
      (advance indices pivotPrime (-1) 2).length = indices.length ∧
      ∀ j, advanceStart indices.length (-1) < j →
        position (advance indices pivotPrime (-1) 2) j = position indices j := by
  have order := advanceStart_order window.many
  rw [CudaMpqs.advance_left]
  rcases exists_movedLeft pivotPrime
    (Nat.lt_trans order.1 order.2 : advanceStart indices.length (-1) < indices.length) with
    same | ⟨i, moved⟩
  · rw [same]
    exact ⟨window, rfl, fun _ _ => rfl⟩
  · refine ⟨window.movedLeft even home moved, moved.length, ?_⟩
    intro j above
    rw [position, moved.outside j above, position]

/-- The slide of a whole window raises it in the colexicographic order. -/
theorem Window.slide {low upperPivot lowerPivot : Nat} (window : Window low indices)
    (upperHome : upperPivot / 2 = low + advanceStart indices.length 1)
    (lowerHome : lowerPivot / 2 = low + advanceStart indices.length (-1)) {right left : List Nat}
    (right_eq : right = advance (indices.map resetFactor) upperPivot 1 2)
    (left_eq : left = advance right lowerPivot (-1) 2) :
    Window low left ∧ left.length = indices.length ∧
      toColex (position indices) < toColex (position left) := by
  have lengths : (indices.map resetFactor).length = indices.length := List.length_map _
  have positions : position (indices.map resetFactor) = position indices := by
    funext j
    rw [position, getD_map_resetFactor]
    omega
  have even : ∀ j, (indices.map resetFactor).getD j 0 =
      2 * position (indices.map resetFactor) j := by
    intro j
    rw [positions]
    exact getD_map_resetFactor indices j
  have reset := window.congr lengths positions
  have order := advanceStart_order reset.many
  rcases exists_movedRight upperPivot order.2 with ⟨i, moved⟩
  rw [← advance_right, ← right_eq] at moved
  rcases reset.movedRight even (lengths ▸ upperHome) moved with ⟨rightWindow, raised⟩
  have evenRight : ∀ j ≤ advanceStart right.length (-1),
      right.getD j 0 = 2 * position right j := by
    intro j lower
    rw [moved.length] at lower
    rw [position, moved.outside j (by omega), even]
    omega
  have rightLength : right.length = indices.length := moved.length.trans lengths
  rcases rightWindow.advance_left evenRight (rightLength ▸ lowerHome) with
    ⟨leftWindow, leftLength, kept⟩
  rw [← left_eq] at leftWindow leftLength kept
  have start_le := moved.start_le
  rw [lengths] at start_le
  have lowerLt : advanceStart right.length (-1) < advanceStart indices.length 1 := by
    rw [rightLength, ← lengths]
    exact order.1
  refine ⟨leftWindow, leftLength.trans rightLength, i, ?_, ?_⟩
  · intro j above
    change position indices j = position left j
    rw [kept j (by omega), ← positions, position, ← moved.above j above, position]
  · change position indices i < position left i
    rw [kept i (by omega), ← positions]
    exact raised

namespace AFactorState

structure Canonical (low : Nat) (state : AFactorState) : Prop where
  window : Window low state.aFactors
  few : state.aFactors.length < 32
  maxAIndex : state.maxAIndex = 2 ^ state.aFactors.length
  index_lt : state.currentAIndex < state.maxAIndex
  lowerPivot : state.lowerHalfStart / 2 = low + advanceStart state.aFactors.length (-1)
  upperPivot : state.upperHalfStart / 2 = low + advanceStart state.aFactors.length 1

theorem Canonical.of_moved {low : Nat} {before after : AFactorState}
    (canonical : before.Canonical low) (window : Window low after.aFactors)
    (lengths : after.aFactors.length = before.aFactors.length)
    (maxAIndex : after.maxAIndex = before.maxAIndex)
    (index_lt : after.currentAIndex < before.maxAIndex)
    (lowerPivot : after.lowerHalfStart = before.lowerHalfStart)
    (upperPivot : after.upperHalfStart = before.upperHalfStart) :
    after.Canonical low := by
  constructor
  · exact window
  · rw [lengths]
    exact canonical.few
  · rw [lengths, maxAIndex]
    exact canonical.maxAIndex
  · rw [maxAIndex]
    exact index_lt
  · rw [lengths, lowerPivot]
    exact canonical.lowerPivot
  · rw [lengths, upperPivot]
    exact canonical.upperPivot

theorem slide_aFactors (state : AFactorState) :
    state.slide.aFactors = advance (advance (state.aFactors.map resetFactor)
      state.upperHalfStart 1 2) state.lowerHalfStart (-1) 2 := rfl

variable {state : AFactorState}

theorem Canonical.slide {low : Nat} (canonical : state.Canonical low) : state.slide.Canonical low ∧
      state.slide.aFactors.length = state.aFactors.length ∧
      toColex (position state.aFactors) < toColex (position state.slide.aFactors) := by
  rcases canonical.window.slide canonical.upperPivot canonical.lowerPivot rfl
    state.slide_aFactors with ⟨window, lengths, raised⟩
  have some_index : 0 < state.maxAIndex := Nat.zero_lt_of_lt canonical.index_lt
  exact ⟨canonical.of_moved window lengths rfl some_index rfl rfl, lengths, raised⟩

/-! ## One flip -/

theorem advanceGray_lowestBit {index : Nat} (fits : index + 1 < 2 ^ 32) :
    LowestBit (index + 1) (advanceGray (BitVec.ofNat 32 index)).toNat := by
  have toNat_index : (BitVec.ofNat 32 index).toNat = index := by
    rw [BitVec.toNat_ofNat]
    exact Nat.mod_eq_of_lt (by omega)
  have toNat_next : (BitVec.ofNat 32 index + 1).toNat = index + 1 := by
    rw [BitVec.toNat_add, toNat_index]
    exact Nat.mod_eq_of_lt fits
  rcases exists_lowestBit (Nat.succ_pos index) with ⟨bit, lowest⟩
  have change : (gray (BitVec.ofNat 32 index + 1) ^^^ gray (BitVec.ofNat 32 index)).toNat =
      2 ^ bit := by
    have code := lowest.grayCode_eq
    rw [Nat.succ_eq_add_one, Nat.add_sub_cancel] at code
    rw [BitVec.toNat_xor, toNat_gray, toNat_gray, toNat_index, toNat_next, code,
      Nat.xor_comm (grayCode index), Nat.xor_xor_cancel_right]
  have nonzero : gray (BitVec.ofNat 32 index + 1) ^^^ gray (BitVec.ofNat 32 index) ≠ 0 := by
    intro zero
    rw [zero] at change
    exact (Nat.two_pow_pos bit).ne change
  have flipped := lowestBit_ctz32 nonzero
  rw [change] at flipped
  have single : LowestBit (2 ^ bit) bit := by
    constructor
    · rw [Nat.testBit_two_pow_self]
    · intro lower below
      rw [Nat.testBit_two_pow_of_ne below.ne']
  have same : (advanceGray (BitVec.ofNat 32 index)).toNat = bit := flipped.unique single
  rw [same]
  exact lowest

theorem flip_length (state : AFactorState) (index : Nat) :
    (state.flip index).aFactors.length = state.aFactors.length := by
  rw [flip, List.length_modify]

theorem flip_getD (state : AFactorState) (index j : Nat) (inside : j < state.aFactors.length) :
    (state.flip index).aFactors.getD j 0 = if (advanceGray (BitVec.ofNat 32 index)).toNat = j then
        flipFactor (state.aFactors.getD j 0)
      else state.aFactors.getD j 0 := by
  have bound : j < (state.aFactors.modify (advanceGray (BitVec.ofNat 32 index)).toNat
      flipFactor).length := by
    rw [List.length_modify]
    exact inside
  rw [flip, List.getD_eq_getElem _ _ bound, List.getElem_modify, List.getD_eq_getElem _ _ inside]

theorem flip_position (state : AFactorState) (index : Nat) :
    position (state.flip index).aFactors = position state.aFactors := by
  funext j
  rcases Nat.lt_or_ge j state.aFactors.length with inside | outside
  · rw [position, flip_getD state index j inside, position]
    split
    next => rw [flipFactor_half]
    next => rfl
  · rw [position, position, List.getD_eq_default _ _ outside,
      List.getD_eq_default _ _ (by rw [flip_length]; exact outside)]

def basis (state : AFactorState) (j : Nat) : Bool :=
  decide (state.aFactors.getD j 0 % 2 = 1) ^^ (grayCode state.currentAIndex).testBit j

theorem flipFactor_parity (index : Nat) :
    decide (flipFactor index % 2 = 1) = !decide (index % 2 = 1) := by
  rw [flipFactor]
  rcases Nat.mod_two_eq_zero_or_one index with even | odd
  · have next : (index + 1) % 2 = 1 := by omega
    simp [even, next]
  · have previous : (index - 1) % 2 = 0 := by omega
    simp [odd, previous]

theorem prepareStep_flip (inside : state.currentAIndex + 1 < state.maxAIndex) : state.prepareStep =
      { state.flip state.currentAIndex with currentAIndex := state.currentAIndex + 1 } :=
  if_pos inside

theorem prepareStep_slide (last : ¬ state.currentAIndex + 1 < state.maxAIndex) :
    state.prepareStep = state.slide :=
  if_neg last

theorem basis_prepareStep (few : state.aFactors.length < 32)
    (cube : state.maxAIndex = 2 ^ state.aFactors.length)
    (inside : state.currentAIndex + 1 < state.maxAIndex) {j : Nat}
    (bound : j < state.aFactors.length) : state.prepareStep.basis j = state.basis j := by
  have fits : state.currentAIndex + 1 < 2 ^ 32 := by
    have small : 2 ^ state.aFactors.length < 2 ^ 32 :=
      Nat.pow_lt_pow_right (by decide) few
    rw [← cube] at small
    exact inside.trans small
  have lowest := advanceGray_lowestBit fits
  have code := lowest.grayCode_eq
  rw [Nat.add_sub_cancel] at code
  rw [prepareStep_flip inside, basis, basis]
  change (decide ((state.flip state.currentAIndex).aFactors.getD j 0 % 2 = 1) ^^
    (grayCode (state.currentAIndex + 1)).testBit j) = _
  rw [flip_getD state _ j bound, code, Nat.testBit_xor, Nat.testBit_two_pow]
  split
  next flipped =>
      rw [flipFactor_parity, decide_eq_true flipped]
      cases decide (state.aFactors.getD j 0 % 2 = 1) <;>
        cases (grayCode state.currentAIndex).testBit j <;> rfl
  next kept => rw [decide_eq_false kept, Bool.xor_false]

theorem Canonical.prepareStep {low : Nat} (canonical : state.Canonical low) :
    state.prepareStep.Canonical low := by
  rcases Nat.lt_or_ge (state.currentAIndex + 1) state.maxAIndex with inside | last
  · rw [prepareStep_flip inside]
    have lengths := state.flip_length state.currentAIndex
    have window := canonical.window.congr lengths (state.flip_position state.currentAIndex)
    exact canonical.of_moved window lengths rfl inside rfl rfl
  · rw [prepareStep_slide (Nat.not_lt.mpr last)]
    exact canonical.slide.1

theorem prepareStep_length {low : Nat} (canonical : state.Canonical low) :
    state.prepareStep.aFactors.length = state.aFactors.length := by
  rcases Nat.lt_or_ge (state.currentAIndex + 1) state.maxAIndex with inside | last
  · rw [prepareStep_flip inside]
    exact state.flip_length state.currentAIndex
  · rw [prepareStep_slide (Nat.not_lt.mpr last)]
    exact canonical.slide.2.1

end AFactorState

end CudaMpqs
