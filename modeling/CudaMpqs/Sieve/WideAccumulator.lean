import Mathlib.Data.BitVec
import Mathlib.Tactic.Linarith
import CudaMpqs.Common.UInt512Division
import CudaMpqs.Foundation.PackedLanes
import CudaMpqs.Foundation.SignedInt
import CudaMpqs.Sieve.CompactCandidates

/-! # The saturating accumulator of the wide sieve

`sieveAndScanBatchKernelWideU8Sat` replaces the 16-bit counters of
`sieveAndScanBatchKernelWide` by saturating bytes and scans a block by words of
four bytes. -/

namespace CudaMpqs

open PackedLanes SignedInt

/-! ## Host and device estimates -/

def log2 (a : Nat) : Int :=
  if a = 0 then -1 else Nat.log2 a

def hostIlog2 (v : BitVec 32) : Int :=
  if v.toInt ≤ 0 then 0 else Nat.log2 v.toNat

def approxPolyRoot (M : Nat) : Nat := M * 10000 / 14142

def apv (M log2A : Nat) (gi : Int) : Int :=
  log2A + hostIlog2 (BitVec.ofNat 32 (gi - approxPolyRoot M).natAbs) +
    hostIlog2 (BitVec.ofNat 32 (gi + approxPolyRoot M).natAbs)

def apvMax (M log2A : Nat) : Int :=
  ([-(M : Int), 0, M - 1].map (apv M log2A)).foldl max 0

/-- `abs(globalIndex - negRoot)` and `abs(globalIndex - posRoot)` of the byte scan, which are
`int`. The distances of the 16-bit scan are unsigned and do not wrap. -/
def intDistances (approxPolyRoot : Nat) (globalIndex : Int) : Option (Nat × Nat) := do
  let left ← int32 (globalIndex + approxPolyRoot)
  let dist1 ← int32 |left|
  let right ← int32 (globalIndex - approxPolyRoot)
  let dist2 ← int32 |right|
  return (dist1.toNat, dist2.toNat)

/-- What one step of a batch reads: `initiate` fills in the first fields from
`f_data`, the kernel takes `currentA` from the batch. `M` is an `int`, a threshold
the position of a set bit of a `uint64_t`. -/
structure WideLaunch where
  M : Nat
  a : UInt512
  threshold : Nat
  currentA : UInt512
  M_lt : M < 2 ^ 31
  threshold_lt : threshold < 64

namespace WideLaunch

def gateOk (launch : WideLaunch) : Prop :=
  apvMax launch.M launch.a.msb - launch.threshold ≤ 252

instance (launch : WideLaunch) : Decidable launch.gateOk :=
  inferInstanceAs (Decidable (_ ≤ _))

def approxPolyVal (launch : WideLaunch) (globalIndex : Int) : Int :=
  launch.currentA.msb + log2 (globalIndex + approxPolyRoot launch.M).natAbs +
    log2 (globalIndex - approxPolyRoot launch.M).natAbs

def target (launch : WideLaunch) (globalIndex : Int) : Nat :=
  ((launch.approxPolyVal globalIndex - launch.threshold) % 2 ^ 32).toNat

def wordTarget (launch : WideLaunch) (globalIndex : Int) : Option Nat :=
  (intDistances (approxPolyRoot launch.M) globalIndex).map fun (dist1, dist2) =>
    ((launch.currentA.msb + log2 dist1 + log2 dist2 - launch.threshold) % 2 ^ 32).toNat

end WideLaunch

/-! ## The scans -/

/-- A sieving block: its first index and the logs of the primes that hit it. The
logs of one position add up to at most the bit length of a polynomial value. -/
structure SieveBlock where
  start : Int
  size : Nat
  increments : List Increment
  total_lt : ∀ index, total increments index < 2 ^ 16

structure ScanState where
  candidateWriteHead : Nat
  indexToCandidate : Nat → Nat
  candidates : Nat → CandidateRelation
  blockEntries : Nat → Bool

structure ScanBuffers where
  b : UInt512
  startOffset : Int
  maxPerBlock : Nat

def scanPosition (buffers : ScanBuffers) (isCandidate : Bool) (state : ScanState)
    (index : Nat) : ScanState :=
  if isCandidate then
    let candidateIndex := state.candidateWriteHead
    if candidateIndex < buffers.maxPerBlock then
      { candidateWriteHead := candidateIndex + 1
        indexToCandidate := Function.update state.indexToCandidate index candidateIndex
        candidates := Function.update state.candidates candidateIndex
          { state.candidates candidateIndex with
            b := buffers.b
            sieveOffset := BitVec.ofInt 32 (buffers.startOffset + index)
            numFactors := 0 }
        blockEntries := Function.update state.blockEntries index true }
    else
      { state with
        candidateWriteHead := candidateIndex + 1
        blockEntries := Function.update state.blockEntries index false }
  else
    { state with blockEntries := Function.update state.blockEntries index false }

def isCandidate (launch : WideLaunch) (startOffset : Int) (words : Nat → Nat) (index : Nat) :
    Option Bool := do
  let target ← launch.wordTarget (startOffset + (4 * (index / 4) : Nat))
  return target < entry 256 4 words index

def isCandidateWide (launch : WideLaunch) (startOffset : Int) (words : Nat → Nat)
    (index : Nat) : Bool :=
  launch.target (startOffset + index) < entry 65536 2 words index

/-- The scan of the bytes; the positions arrive in the order of `arrivals`. -/
def excludeNonRelations (launch : WideLaunch) (buffers : ScanBuffers) (words : Nat → Nat)
    (arrivals : List Nat) (state : ScanState) : Option ScanState :=
  arrivals.foldlM (fun state index => do
    let selected ← isCandidate launch buffers.startOffset words index
    return scanPosition buffers selected state index) state

def excludeNonRelationsWide (launch : WideLaunch) (buffers : ScanBuffers)
    (words : Nat → Nat) (arrivals : List Nat) (state : ScanState) : ScanState :=
  arrivals.foldl (fun state index =>
    scanPosition buffers (isCandidateWide launch buffers.startOffset words index) state index)
    state

/-- The two kernels on one block: whatever the order in which their threads add
up the logs, positions that arrive in the same order leave the same candidates. -/
def SelectsSame (launch : WideLaunch) (block : SieveBlock) : Prop :=
  ∀ satOrder wideOrder : List Increment, satOrder.Perm block.increments →
    wideOrder.Perm block.increments → ∀ arrivals : List Nat,
      arrivals.Perm (List.range block.size) → ∀ (b : UInt512) (maxPerBlock : Nat)
        (state : ScanState),
        excludeNonRelations launch ⟨b, block.start, maxPerBlock⟩
            (satOrder.foldl (accumulateSat 256 4) fun _ => 0) arrivals state =
          some (excludeNonRelationsWide launch ⟨b, block.start, maxPerBlock⟩
            (wideOrder.foldl (accumulate 65536 2) fun _ => 0) arrivals state)

/-! ## What a scan leaves behind -/

theorem scanPosition_writeHead (buffers : ScanBuffers) (isCandidate : Bool)
    (state : ScanState) (index : Nat) :
    (scanPosition buffers isCandidate state index).candidateWriteHead ≤
      state.candidateWriteHead + 1 := by
  unfold scanPosition
  split
  next =>
      dsimp only
      split
      next => exact Nat.le_refl _
      next => exact Nat.le_refl _
  next => exact Nat.le_succ _

private theorem scanPosition_blockEntries (buffers : ScanBuffers) (isCandidate : Bool)
    {state : ScanState} (room : state.candidateWriteHead < buffers.maxPerBlock)
    (index : Nat) :
    (scanPosition buffers isCandidate state index).blockEntries =
      Function.update state.blockEntries index isCandidate := by
  unfold scanPosition
  cases isCandidate with
  | true =>
    dsimp only
    rw [if_pos rfl, if_pos room]
  | false => rfl

theorem foldl_scanPosition_blockEntries (buffers : ScanBuffers) (isCandidate : Nat → Bool)
    {arrivals : List Nat} (distinct : arrivals.Nodup) {state : ScanState}
    (room : state.candidateWriteHead + arrivals.length ≤ buffers.maxPerBlock) (index : Nat) :
    (arrivals.foldl (fun state index => scanPosition buffers (isCandidate index) state index)
        state).blockEntries index =
      if index ∈ arrivals then isCandidate index else state.blockEntries index := by
  induction arrivals generalizing state with
  | nil => simp
  | cons first arrivals induction =>
    rw [List.nodup_cons] at distinct
    rw [List.length_cons] at room
    have advanced := scanPosition_writeHead buffers (isCandidate first) state first
    rw [List.foldl_cons, induction distinct.2 (by omega),
      scanPosition_blockEntries buffers _ (by omega)]
    by_cases same : index = first
    · subst same
      rw [if_neg distinct.1, Function.update_self, if_pos List.mem_cons_self]
    · rw [Function.update_of_ne same]
      simp [same]

section Scan

variable {launch : WideLaunch} {buffers : ScanBuffers} {words : Nat → Nat} {arrivals : List Nat}

/-- The byte scan is defined where all of its tests are. -/
theorem excludeNonRelations_eq_some {selected : Nat → Bool} (tests : ∀ index ∈ arrivals,
      isCandidate launch buffers.startOffset words index = some (selected index))
    (state : ScanState) :
    excludeNonRelations launch buffers words arrivals state =
      some (arrivals.foldl (fun state index => scanPosition buffers (selected index) state index)
        state) := by
  induction arrivals generalizing state with
  | nil => rfl
  | cons first arrivals induction =>
    have rest := induction (fun index member => tests index (List.mem_cons_of_mem _ member))
      (scanPosition buffers (selected first) state first)
    rw [excludeNonRelations] at rest
    rw [excludeNonRelations, List.foldlM_cons, tests first List.mem_cons_self, List.foldl_cons]
    exact rest

private theorem isSome_of_excludeNonRelations {state last : ScanState}
    (run : excludeNonRelations launch buffers words arrivals state = some last) :
    ∀ index ∈ arrivals, (isCandidate launch buffers.startOffset words index).isSome := by
  induction arrivals generalizing state with
  | nil => exact fun _ member => absurd member List.not_mem_nil
  | cons first arrivals induction =>
    rw [excludeNonRelations, List.foldlM_cons] at run
    rcases test : isCandidate launch buffers.startOffset words first with _ | selected
    · rw [test] at run
      exact absurd run (Option.some_ne_none last).symm
    · rw [test] at run
      intro index member
      rcases List.mem_cons.mp member with rfl | later
      · rw [test]
        rfl
      · exact induction run index later

end Scan

/-- The scans agree for every arrival order exactly when their tests do. -/
theorem excludeNonRelations_eq_iff (launch : WideLaunch) (start : Int) (size : Nat)
    (satWords wideWords : Nat → Nat) :
    (∀ arrivals : List Nat, arrivals.Perm (List.range size) → ∀ (b : UInt512)
        (maxPerBlock : Nat) (state : ScanState),
        excludeNonRelations launch ⟨b, start, maxPerBlock⟩ satWords arrivals state =
          some (excludeNonRelationsWide launch ⟨b, start, maxPerBlock⟩ wideWords arrivals state)) ↔
      ∀ index < size, isCandidate launch start satWords index =
        some (isCandidateWide launch start wideWords index) := by
  constructor
  · intro agree index inside
    have empty : ScanState :=
      ⟨0, fun _ => 0, fun _ => ⟨UInt512.ofUInt32 0, 0, 0, []⟩, fun _ => false⟩
    have equal := agree (List.range size) (List.Perm.refl _) (UInt512.ofUInt32 0)
      (empty.candidateWriteHead + size) empty
    have member : index ∈ List.range size := List.mem_range.mpr inside
    have defined : ∃ selected : Nat → Bool, ∀ index ∈ List.range size,
        isCandidate launch start satWords index = some (selected index) := by
      refine ⟨fun index => (isCandidate launch start satWords index).getD false,
        fun index member => ?_⟩
      rcases Option.isSome_iff_exists.mp (isSome_of_excludeNonRelations equal index member) with
        ⟨selected, test⟩
      dsimp only
      rw [test]
      rfl
    rcases defined with ⟨selected, tested⟩
    rw [excludeNonRelations_eq_some tested, Option.some_inj] at equal
    have flags := congrFun (congrArg ScanState.blockEntries equal) index
    rw [excludeNonRelationsWide,
      foldl_scanPosition_blockEntries _ selected List.nodup_range (by simp),
      foldl_scanPosition_blockEntries _ (isCandidateWide launch start wideWords)
        List.nodup_range (by simp),
      if_pos member, if_pos member] at flags
    rw [tested index member, flags]
  · intro same arrivals perm b maxPerBlock state
    exact @excludeNonRelations_eq_some launch ⟨b, start, maxPerBlock⟩ satWords arrivals
      (isCandidateWide launch start wideWords)
      (fun index member => same index (List.mem_range.mp (perm.mem_iff.mp member))) state

/-! ## The sampled bound -/

theorem log2_mul_bounds {left right : Nat} (leftPositive : left ≠ 0) (rightPositive : right ≠ 0) :
    left.log2 + right.log2 ≤ (left * right).log2 ∧
      (left * right).log2 ≤ left.log2 + right.log2 + 1 := by
  have product : left * right ≠ 0 := Nat.mul_ne_zero leftPositive rightPositive
  constructor
  · rw [Nat.le_log2 product, pow_add]
    exact Nat.mul_le_mul (Nat.log2_self_le leftPositive) (Nat.log2_self_le rightPositive)
  · have below : left * right < 2 ^ (left.log2 + 1) * 2 ^ (right.log2 + 1) :=
      Nat.mul_lt_mul'' Nat.lt_log2_self Nat.lt_log2_self
    rw [← pow_add] at below
    have bound := (Nat.log2_lt product).mpr below
    omega

theorem log2_mono {left right : Nat} (order : left ≤ right) : left.log2 ≤ right.log2 := by
  by_cases zero : left = 0
  · rw [zero, Nat.log2_zero]
    exact Nat.zero_le _
  · rw [Nat.le_log2 (by omega)]
    exact (Nat.log2_self_le zero).trans order

def floorLog2 (v : Nat) : Int :=
  if v = 0 then 0 else Nat.log2 v

theorem hostIlog2_ofNat {v : Nat} (small : v < 2 ^ 31) :
    hostIlog2 (BitVec.ofNat 32 v) = floorLog2 v := by
  have value : (BitVec.ofNat 32 v).toNat = v := by
    rw [BitVec.toNat_ofNat]
    exact Nat.mod_eq_of_lt (by omega)
  have signed : (BitVec.ofNat 32 v).toInt = v := by
    rw [BitVec.toInt_eq_toNat_of_lt (by omega), value]
  unfold hostIlog2 floorLog2
  rw [signed, value]
  by_cases zero : v = 0
  · rw [if_pos zero, if_pos (by omega)]
  · rw [if_neg zero, if_neg (by omega)]

theorem log2_ge (v : Nat) : -1 ≤ log2 v := by
  unfold log2
  split
  next => exact le_refl _
  next => omega

theorem log2_add_le {x y left right : Nat} (product : x * y ≤ left * right) :
    log2 x + log2 y ≤ floorLog2 left + floorLog2 right + 1 ∨ x = 0 ∨ y = 0 := by
  by_cases xZero : x = 0
  · exact Or.inr (Or.inl xZero)
  by_cases yZero : y = 0
  · exact Or.inr (Or.inr yZero)
  left
  have positive : left * right ≠ 0 := by
    have factors := Nat.mul_ne_zero xZero yZero
    omega
  have leftPositive := left_ne_zero_of_mul positive
  have rightPositive := right_ne_zero_of_mul positive
  have lower := (log2_mul_bounds xZero yZero).1
  have upper := (log2_mul_bounds leftPositive rightPositive).2
  have order := log2_mono product
  rw [log2, log2, floorLog2, floorLog2, if_neg xZero, if_neg yZero, if_neg leftPositive,
    if_neg rightPositive]
  omega

theorem apv_le_apvMax (M log2A : Nat) (gi : Int)
    (sampled : gi ∈ [-(M : Int), 0, M - 1]) : apv M log2A gi ≤ apvMax M log2A := by
  have bound (values : List Int) (start : Int) :
      start ≤ values.foldl max start ∧ ∀ value ∈ values, value ≤ values.foldl max start := by
    induction values generalizing start with
    | nil => simp
    | cons first values induction =>
      have rest := induction (max start first)
      rw [List.foldl_cons]
      constructor
      · exact (le_max_left _ _).trans rest.1
      · intro value member
        rcases List.mem_cons.mp member with rfl | member
        · exact (le_max_right _ _).trans rest.1
        · exact rest.2 value member
  exact (bound _ 0).2 _ (List.mem_map_of_mem sampled)

theorem approxPolyRoot_le (M : Nat) : approxPolyRoot M ≤ M := by
  unfold approxPolyRoot
  omega

theorem floorLog2_nonneg (v : Nat) : 0 ≤ floorLog2 v := by
  unfold floorLog2
  split
  next => exact le_refl _
  next => exact Int.natCast_nonneg _

theorem log2_double_le (v : Nat) : log2 (2 * v) ≤ floorLog2 v + 1 := by
  by_cases zero : v = 0
  · subst zero
    decide
  · rw [log2, floorLog2, if_neg (by omega), if_neg zero, Nat.log2_two_mul zero]
    omega

theorem distances_mul_le {M : Nat} (root : Nat) {gi : Int} (inside : gi.natAbs ≤ M) :
    (gi + root).natAbs * (gi - root).natAbs ≤ root * root ∨
      (gi + root).natAbs * (gi - root).natAbs ≤ (M + root) * (M - root) := by
  have signs :
      (gi + root).natAbs = gi.natAbs + root ∧
          (gi - root).natAbs = (root - gi.natAbs) + (gi.natAbs - root) ∨
        (gi - root).natAbs = gi.natAbs + root ∧
          (gi + root).natAbs = (root - gi.natAbs) + (gi.natAbs - root) := by omega
  have product : (gi + root).natAbs * (gi - root).natAbs =
      (gi.natAbs + root) * ((root - gi.natAbs) + (gi.natAbs - root)) := by
    rcases signs with ⟨plus, minus⟩ | ⟨minus, plus⟩
    · rw [plus, minus]
    · rw [plus, minus, mul_comm]
  rw [product]
  rcases Nat.le_total gi.natAbs root with between | outside
  · left
    rw [Nat.sub_eq_zero_of_le between, add_zero, add_comm gi.natAbs, ← Nat.mul_self_sub_mul_self_eq]
    exact Nat.sub_le _ _
  · right
    rw [Nat.sub_eq_zero_of_le outside, zero_add]
    exact Nat.mul_le_mul (by omega) (by omega)

theorem log2_on_root_le (root : Nat) {gi : Int}
    (onRoot : (gi + root).natAbs = 0 ∨ (gi - root).natAbs = 0) :
    log2 (gi + root).natAbs + log2 (gi - root).natAbs ≤ floorLog2 root := by
  have double := log2_double_le root
  have zeroLog : log2 0 = -1 := rfl
  rcases onRoot with zero | zero
  · have other : (gi - root).natAbs = 2 * root := by omega
    rw [zero, other, zeroLog]
    omega
  · have other : (gi + root).natAbs = 2 * root := by omega
    rw [zero, other, zeroLog]
    omega

theorem approxPolyRoot_bounds (M : Nat) :
    approxPolyRoot M * 14142 ≤ M * 10000 ∧ M * 10000 < (approxPolyRoot M + 1) * 14142 := by
  unfold approxPolyRoot
  omega

/-- Where the border distance does not fit an `int`, the middle sample is enough. -/
theorem log2_distances_wide_le {M : Nat} (small : M < 2 ^ 31)
    (wide : 2 ^ 31 ≤ M + approxPolyRoot M) {gi : Int} (inside : gi.natAbs ≤ M) :
    log2 (gi + approxPolyRoot M).natAbs + log2 (gi - approxPolyRoot M).natAbs ≤
      floorLog2 (approxPolyRoot M) + floorLog2 (approxPolyRoot M) + 1 := by
  have bounds := approxPolyRoot_bounds M
  have products := distances_mul_le (approxPolyRoot M) inside
  have onRoot := fun zero => @log2_on_root_le (approxPolyRoot M) gi zero
  generalize approxPolyRoot M = root at *
  have logRoot := floorLog2_nonneg root
  rcases products with product | product
  · rcases log2_add_le product with close | zero
    · exact close
    · have close := onRoot zero
      omega
  · by_cases zero : (gi + root).natAbs = 0 ∨ (gi - root).natAbs = 0
    · have close := onRoot zero
      omega
    · rw [not_or] at zero
      have lower := (log2_mul_bounds zero.1 zero.2).1
      have order := log2_mono product
      have positive : (M + root) * (M - root) ≠ 0 := by
        have factors := Nat.mul_ne_zero zero.1 zero.2
        omega
      rw [log2, log2, if_neg zero.1, if_neg zero.2, floorLog2, if_neg (by omega)]
      rcases Nat.lt_or_ge root (2 ^ 30) with below | above
      · have least : 29 ≤ root.log2 := (Nat.le_log2 (by omega)).mpr (by omega)
        have most : ((M + root) * (M - root)).log2 < 60 := by
          rw [Nat.log2_lt positive]
          have square : M * 10000 * (M * 10000) ≤
              (root + 1) * 14142 * ((root + 1) * 14142) :=
            Nat.mul_le_mul bounds.2.le bounds.2.le
          have room : (root + 1) * (root + 1) ≤ 2 ^ 30 * 2 ^ 30 :=
            Nat.mul_le_mul below below
          rw [← Nat.mul_self_sub_mul_self_eq]
          nlinarith [Nat.sub_add_cancel (show root * root ≤ M * M by nlinarith)]
        omega
      · have least : 30 ≤ root.log2 := (Nat.le_log2 (by omega)).mpr above
        have most : ((M + root) * (M - root)).log2 < 62 := by
          rw [Nat.log2_lt positive, ← Nat.mul_self_sub_mul_self_eq]
          have square : M * M ≤ 2 ^ 31 * 2 ^ 31 := Nat.mul_le_mul small.le small.le
          have some : 0 < root * root := Nat.mul_pos (by omega) (by omega)
          omega
        omega

theorem log2_distances_le {M : Nat} (log2A : Nat) (small : M < 2 ^ 31) {gi : Int}
    (inside : gi.natAbs ≤ M) :
    log2A + log2 (gi + approxPolyRoot M).natAbs + log2 (gi - approxPolyRoot M).natAbs ≤
      apvMax M log2A + 1 := by
  have middle := apv_le_apvMax M log2A 0 (by simp)
  have border := apv_le_apvMax M log2A (-M) (by simp)
  have rootLe := approxPolyRoot_le M
  have wide := fun sum => @log2_distances_wide_le M small sum gi inside
  unfold apv at middle border
  generalize approxPolyRoot M = root at *
  have atZero : ((0 : Int) - root).natAbs = root ∧ ((0 : Int) + root).natAbs = root := by omega
  have atBorder : (-(M : Int) - root).natAbs = M + root ∧
      (-(M : Int) + root).natAbs = M - root := by omega
  rw [atZero.1, atZero.2, hostIlog2_ofNat (by omega)] at middle
  rw [atBorder.1, atBorder.2] at border
  have logRoot := floorLog2_nonneg root
  rcases Nat.lt_or_ge (M + root) (2 ^ 31) with narrow | wraps
  · rw [hostIlog2_ofNat narrow, hostIlog2_ofNat (by omega)] at border
    rcases distances_mul_le root inside with product | product
    · rcases log2_add_le product with close | onRoot
      · omega
      · have close := log2_on_root_le root onRoot
        omega
    · rcases log2_add_le product with close | onRoot
      · omega
      · have close := log2_on_root_le root onRoot
        omega
  · have close := wide wraps
    omega

namespace WideLaunch

private theorem approxPolyVal_ge (launch : WideLaunch) (globalIndex : Int) :
    -2 ≤ launch.approxPolyVal globalIndex := by
  have plus := log2_ge (globalIndex + approxPolyRoot launch.M).natAbs
  have minus := log2_ge (globalIndex - approxPolyRoot launch.M).natAbs
  unfold approxPolyVal
  omega

/-- Under the gate a target fits a byte, unless it wraps above every sum. -/
theorem target_bound (launch : WideLaunch) (gate : launch.gateOk)
    (slack : launch.currentA.msb ≤ launch.a.msb + 1) {globalIndex : Int}
    (inside : globalIndex.natAbs ≤ launch.M) :
    launch.target globalIndex ≤ 254 ∨ 2 ^ 16 ≤ launch.target globalIndex := by
  have upper := log2_distances_le launch.a.msb launch.M_lt inside
  have lower := launch.approxPolyVal_ge globalIndex
  have small := launch.threshold_lt
  unfold gateOk at gate
  unfold target
  have bound : launch.approxPolyVal globalIndex - launch.threshold ≤ 254 := by
    unfold approxPolyVal
    omega
  omega

end WideLaunch

/-! ## Agreement of the two kernels -/

namespace WideLaunch

def DistancesFit (launch : WideLaunch) (start : Int) (size : Nat) : Prop :=
  ∀ index < size, (start + (4 * (index / 4) : Nat)).natAbs + approxPolyRoot launch.M < 2 ^ 31

theorem intDistances_eq (root : Nat) (globalIndex : Int) : intDistances root globalIndex =
      if globalIndex.natAbs + root < 2 ^ 31 then
        some ((globalIndex + root).natAbs, (globalIndex - root).natAbs)
      else none := by
  have left := Int.abs_eq_natAbs (globalIndex + root)
  have right := Int.abs_eq_natAbs (globalIndex - root)
  rw [intDistances]
  split
  next fits =>
      rw [@int32_of_inInt (globalIndex + root) ⟨by omega, by omega⟩,
        @int32_of_inInt (globalIndex - root) ⟨by omega, by omega⟩]
      simp only [Option.bind_eq_bind, Option.bind_some]
      rw [@int32_of_inInt |globalIndex + root| ⟨by omega, by omega⟩,
        @int32_of_inInt |globalIndex - root| ⟨by omega, by omega⟩, left, right]
      rfl
  next large =>
      rcases Option.eq_none_or_eq_some (int32 (globalIndex + root)) with none | ⟨_, isLeft⟩
      · rw [none]
        rfl
      rcases int32_eq_some_iff.mp isLeft with ⟨-, rfl⟩
      rw [isLeft]
      simp only [Option.bind_eq_bind, Option.bind_some]
      rcases Option.eq_none_or_eq_some (int32 |globalIndex + root|) with none | ⟨_, isDist1⟩
      · rw [none]
        rfl
      rw [isDist1, Option.bind_some]
      rcases Option.eq_none_or_eq_some (int32 (globalIndex - root)) with none | ⟨_, isRight⟩
      · rw [none]
        rfl
      rcases int32_eq_some_iff.mp isRight with ⟨-, rfl⟩
      rw [isRight, Option.bind_some]
      rcases Option.eq_none_or_eq_some (int32 |globalIndex - root|) with none | ⟨_, isDist2⟩
      · rw [none]
        rfl
      have high1 := (int32_eq_some_iff.mp isDist1).1.2
      have high2 := (int32_eq_some_iff.mp isDist2).1.2
      omega

theorem wordTarget_eq (launch : WideLaunch) (globalIndex : Int) : launch.wordTarget globalIndex =
      if globalIndex.natAbs + approxPolyRoot launch.M < 2 ^ 31 then
        some (launch.target globalIndex)
      else none := by
  rw [wordTarget, intDistances_eq]
  split
  next => rfl
  next => rfl

end WideLaunch

section Agreement

variable {launch : WideLaunch} {block : SieveBlock} {start : Int} {size : Nat}

theorem isCandidate_foldl {order : List Increment} (perm : order.Perm block.increments)
    (index : Nat) :
    isCandidate launch block.start (order.foldl (accumulateSat 256 4) fun _ => 0) index =
      (launch.wordTarget (block.start + (4 * (index / 4) : Nat))).map fun target =>
        decide (target < min 255 (total block.increments index)) := by
  rw [isCandidate, entry_foldl_accumulateSat (by decide), entry_zero, zero_add, total_perm perm]
  cases launch.wordTarget (block.start + (4 * (index / 4) : Nat)) with
  | none => rfl
  | some target => rfl

private theorem isCandidateWide_foldl {order : List Increment} (perm : order.Perm block.increments)
    (index : Nat) :
    isCandidateWide launch block.start (order.foldl (accumulate 65536 2) fun _ => 0) index =
      decide (launch.target (block.start + index) < total block.increments index) := by
  have fits (index : Nat) : entry 65536 2 (fun _ => 0) index + total order index < 65536 := by
    rw [entry_zero, zero_add, total_perm perm]
    exact block.total_lt index
  rw [isCandidateWide, entry_foldl_accumulate (by decide) (by decide) _ _ fits, entry_zero,
    zero_add, total_perm perm]

theorem selectsSame_iff_tests : SelectsSame launch block ↔
    launch.DistancesFit block.start block.size ∧ ∀ index < block.size,
      (launch.target (block.start + (4 * (index / 4) : Nat)) <
          min 255 (total block.increments index) ↔
        launch.target (block.start + index) < total block.increments index) := by
  have tests : SelectsSame launch block ↔ ∀ index < block.size, isCandidate launch block.start
          (block.increments.foldl (accumulateSat 256 4) fun _ => 0) index =
        some (isCandidateWide launch block.start
          (block.increments.foldl (accumulate 65536 2) fun _ => 0) index) := by
    rw [← excludeNonRelations_eq_iff]
    constructor
    · intro agree
      exact agree _ _ (List.Perm.refl _) (List.Perm.refl _)
    · intro agree satOrder wideOrder satPerm widePerm
      refine (excludeNonRelations_eq_iff _ _ _ _ _).mpr fun index inside => ?_
      have same := (excludeNonRelations_eq_iff _ _ _ _ _).mp agree index inside
      rw [isCandidate_foldl (List.Perm.refl _), isCandidateWide_foldl (List.Perm.refl _)] at same
      rw [isCandidate_foldl satPerm, isCandidateWide_foldl widePerm, same]
  rw [tests, WideLaunch.DistancesFit, ← forall₂_and]
  refine forall₂_congr fun index _ => ?_
  rw [isCandidate_foldl (List.Perm.refl _), isCandidateWide_foldl (List.Perm.refl _),
    launch.wordTarget_eq]
  split
  next fits => rw [Option.map_some, Option.some_inj, decide_eq_decide, and_iff_right fits]
  next large => exact iff_of_false (Option.some_ne_none _).symm fun both => large both.1

def SieveBlock.single (start : Int) (size index sum : Nat) (small : sum < 2 ^ 16) : SieveBlock where
  start := start
  size := size
  increments := [⟨index, sum, true⟩]
  total_lt := by
    intro other
    by_cases same : index = other
    · rw [total_cons, if_pos same, total_nil]
      exact small
    · rw [total_cons, if_neg same, total_nil]
      decide

/-- With every content, the tests of a position agree if and only if its target is that of
its word, or neither test ever passes. -/
theorem tests_iff {word own : Nat} : (∀ sum < 2 ^ 16, (word < min 255 sum ↔ own < sum)) ↔
      word = own ∧ own ≤ 254 ∨ 255 ≤ word ∧ 2 ^ 16 ≤ own + 1 := by
  constructor
  · intro tests
    rcases Nat.lt_or_ge word 255 with small | large
    · have at_ := tests word (by omega)
      have above := tests (word + 1) (by omega)
      omega
    · have most := tests (2 ^ 16 - 1) (by decide)
      omega
  · intro same sum small
    omega

/-- For all contents, the byte kernel selects what the 16-bit kernel selects exactly when its
distances fit an `int` and every target is that of its word, or out of reach of both. Under a
sampled gate the targets fit a byte, and only their equality remains. -/
theorem selectsSame_iff (launch : WideLaunch) {start : Int} {size : Nat} :
    ((∀ block : SieveBlock, block.start = start → block.size = size → SelectsSame launch block) ↔
      launch.DistancesFit start size ∧ ∀ index < size,
        launch.target (start + (4 * (index / 4) : Nat)) = launch.target (start + index) ∧
            launch.target (start + index) ≤ 254 ∨
          255 ≤ launch.target (start + (4 * (index / 4) : Nat)) ∧
            2 ^ 16 ≤ launch.target (start + index) + 1) ∧
    (launch.gateOk → launch.currentA.msb ≤ launch.a.msb + 1 →
      (∀ index < size, (start + index).natAbs ≤ launch.M) →
      ((∀ block : SieveBlock, block.start = start → block.size = size → SelectsSame launch block) ↔
        launch.DistancesFit start size ∧ ∀ index < size,
          launch.target (start + (4 * (index / 4) : Nat)) = launch.target (start + index) ∨
            2 ^ 16 ≤ launch.target (start + (4 * (index / 4) : Nat)) ∧
              2 ^ 16 ≤ launch.target (start + index))) := by
  have exact_ : (∀ block : SieveBlock, block.start = start → block.size = size →
        SelectsSame launch block) ↔
      launch.DistancesFit start size ∧ ∀ index < size,
        launch.target (start + (4 * (index / 4) : Nat)) = launch.target (start + index) ∧
            launch.target (start + index) ≤ 254 ∨
          255 ≤ launch.target (start + (4 * (index / 4) : Nat)) ∧
            2 ^ 16 ≤ launch.target (start + index) + 1 := by
    constructor
    · intro agree
      have empty := agree ⟨start, size, [], by simp⟩ rfl rfl
      refine ⟨(selectsSame_iff_tests.mp empty).1, fun index inside => tests_iff.mp ?_⟩
      intro sum small
      have single := agree (.single start size index sum small) rfl rfl
      have tests := (selectsSame_iff_tests.mp single).2 index inside
      rwa [SieveBlock.single, total_cons, if_pos rfl, total_nil, Nat.add_zero] at tests
    · rintro ⟨fit, same⟩ block rfl rfl
      refine selectsSame_iff_tests.mpr ⟨fit, fun index inside => ?_⟩
      exact tests_iff.mpr (same index inside) _ (block.total_lt index)
  refine ⟨exact_, fun gate slack positions => ?_⟩
  rw [exact_]
  refine and_congr_right fun _ => forall₂_congr fun index inside => ?_
  have own := launch.target_bound gate slack (positions index inside)
  have word := launch.target_bound gate slack (positions (4 * (index / 4)) (by omega))
  omega

end Agreement

/-! ## A block between two targets -/

def sampleLaunch : WideLaunch where
  M := 2 ^ 20
  a := ⟨List.replicate 6 0 ++ [2 ^ 23] ++ List.replicate 9 0, rfl⟩
  threshold := 24
  currentA := ⟨List.replicate 6 0 ++ [2 ^ 23] ++ List.replicate 9 0, rfl⟩
  M_lt := by decide
  threshold_lt := by decide

theorem sampleLaunch_gateOk : sampleLaunch.gateOk := by decide

def crossingBlock (start : Int) : SieveBlock where
  start := start
  size := 256
  increments := ⟨85, 20, true⟩ :: List.replicate 8 ⟨85, 24, true⟩
  total_lt := by
    intro index
    by_cases same : 85 = index
    · subst same
      decide
    · simp [total, same]

/-- Away from the roots the targets of a block are all the same. -/
theorem selectsSame_iff_quiet : SelectsSame sampleLaunch (crossingBlock 0) := by
  have constant : ∀ index < 256, sampleLaunch.target (index : Nat) = 229 := by
    decide +kernel
  refine ((selectsSame_iff sampleLaunch).2 sampleLaunch_gateOk (by decide) ?_).mpr
    ⟨?_, ?_⟩ (crossingBlock 0) rfl rfl
  · intro index inside
    change index < 256 at inside
    change ((0 : Int) + index).natAbs ≤ 2 ^ 20
    omega
  · intro index inside
    change index < 256 at inside
    change ((0 : Int) + (4 * (index / 4) : Nat)).natAbs + 741462 < 2 ^ 31
    omega
  · intro index inside
    change index < 256 at inside
    change sampleLaunch.target (0 + _) = sampleLaunch.target (0 + _) ∨ _
    rw [zero_add, zero_add, constant index inside, constant (4 * (index / 4)) (by omega)]
    exact Or.inl rfl

theorem not_selectsSame_crossing : sampleLaunch.gateOk ∧ sampleLaunch.currentA = sampleLaunch.a ∧
      ¬SelectsSame sampleLaunch (crossingBlock 741376) := by
  refine ⟨sampleLaunch_gateOk, rfl, ?_⟩
  rw [selectsSame_iff_tests]
  rintro ⟨-, tests⟩
  have crossing := tests 85 (by decide)
  have own : sampleLaunch.target ((crossingBlock 741376).start + (85 : Nat)) = 211 := by decide
  have word : sampleLaunch.target
      ((crossingBlock 741376).start + (4 * (85 / 4) : Nat)) = 212 := by
    decide
  have sum : total (crossingBlock 741376).increments 85 = 212 := by decide
  rw [own, word, sum] at crossing
  exact absurd crossing (by decide)

end CudaMpqs
