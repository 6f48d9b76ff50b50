import Mathlib.Algebra.Field.ZMod
import Mathlib.Data.List.GetD
import CudaMpqs.Foundation.PivotReduction

/-! # The initialization basis

`init_basis.cu` scans the columns of a sequence of bit matrices and accepts those that are
linearly independent of the columns before. The host keeps an echelon, one warp of the device
a fully reduced basis. -/

namespace CudaMpqs.Lingen.InitBasis

open Function PivotReduction

abbrev Words := Nat → BitVec 64

def wordsFor (bits : Nat) : Nat := (bits + 63) / 64

def bitAt (v : Words) (p : Nat) : Bool := (v (p / 64)).getLsbD (p % 64)

def setBit (v : Words) (r : Nat) : Words :=
  update v (r / 64) (v (r / 64) ||| (1 : BitVec 64) <<< (r % 64))

def xorWords (left right : Words) : Words := fun w => left w ^^^ right w

def getBitRm (data : List (BitVec 64)) (cols r c : Nat) : Bool :=
  (data.getD (r * wordsFor cols + c / 64) 0).getLsbD (c % 64)

structure InitBasisResult where
  t0 : Nat
  rank : Nat
  pairs : List (Nat × Nat)
  pivotMask : List (BitVec 64)
deriving DecidableEq

/-- The loops over the candidates. An accepted candidate that completes the rank ends them, and
`t0` is one more than its term. -/
def scan {State Candidate : Type} (accept : State → Candidate → Option State)
    (full : State → Bool) (term : Candidate → Nat) : List Candidate → State → Option Nat × State
  | [], state => (none, state)
  | candidate :: candidates, state =>
    match accept state candidate with
    | none => scan accept full term candidates state
    | some next =>
      if full next then (some (term candidate + 1), next)
      else scan accept full term candidates next

/-- The scan ends early exactly when the rank is complete. -/
theorem full_scan {State Candidate : Type} {accept : State → Candidate → Option State}
    {full : State → Bool} {term : Candidate → Nat} (candidates : List Candidate) {state : State}
    (start : full state = false) :
    full (scan accept full term candidates state).2 =
      (scan accept full term candidates state).1.isSome := by
  induction candidates generalizing state with
  | nil => exact start
  | cons candidate candidates induction =>
    rw [scan]
    cases accept state candidate with
    | none => exact induction start
    | some next =>
      dsimp only
      cases complete : full next with
      | true => exact complete
      | false => exact induction complete

/-! ## Host -/

structure HostState where
  basisVecs : Nat → Words
  pivotFound : Nat → Bool
  pairs : List (Nat × Nat)
  rank : Nat

def HostState.start : HostState := ⟨fun _ _ => 0, fun _ => false, [], 0⟩

def hostColumn (S : List (List (BitVec 64))) (m n i j : Nat) : Words :=
  (List.range m).foldl (fun v r => if getBitRm (S.getD i []) n r j then setBit v r else v)
    fun _ => 0

def hostReduce (state : HostState) (m : Nat) (v : Words) : Words :=
  (List.range m).foldl (fun v p =>
    if state.pivotFound p then if bitAt v p then xorWords v (state.basisVecs p) else v else v) v

def hostAccept (S : List (List (BitVec 64))) (m n : Nat) (state : HostState)
    (candidate : Nat × Nat) : Option HostState :=
  let v := hostReduce state m (hostColumn S m n candidate.1 candidate.2)
  ((List.range m).find? (bitAt v)).map fun firstBit =>
    { basisVecs := update state.basisVecs firstBit v
      pivotFound := update state.pivotFound firstBit true
      pairs := state.pairs ++ [candidate]
      rank := state.rank + 1 }

def hostCandidates (len n : Nat) : List (Nat × Nat) :=
  (List.range len).flatMap fun i => (List.range n).map fun j => (i, j)

def hostScan (S : List (List (BitVec 64))) (m n : Nat) : Option Nat × HostState :=
  scan (hostAccept S m n) (fun state => state.rank = m) Prod.fst (hostCandidates S.length n) .start

def packPivots (m : Nat) (pivotFound : Nat → Bool) : List (BitVec 64) :=
  (List.range (wordsFor m)).map
    ((List.range m).foldl (fun mask p => if pivotFound p then setBit mask p else mask) fun _ => 0)

def findInitBasisCpu (S : List (List (BitVec 64))) (m n : Nat) : InitBasisResult :=
  match hostScan S m n with
  | (some t0, state) => ⟨t0, state.rank, state.pairs, []⟩
  | (none, state) => ⟨0, state.rank, [], packPivots m state.pivotFound⟩

/-! ## Device -/

abbrev Lane := Fin 32

def ballot (predicate : Lane → Bool) : BitVec 32 :=
  (List.finRange 32).foldl
    (fun mask lane => mask ||| (BitVec.ofBool (predicate lane)).setWidth 32 <<< lane.val) 0

/-- The five steps of `__shfl_xor_sync`, each lane combining with the lane that it reads. -/
def butterfly {M : Type} (combine : M → M → M) (value : Lane → M) : Lane → M :=
  [16, 8, 4, 2, 1].foldl (fun value off lane => combine (value lane) (value (lane ^^^ off))) value

def laneOf (p : Nat) : Lane := ⟨p % 32, Nat.mod_lt p (by decide)⟩

structure DeviceState where
  B : Nat → Words
  piv : Words
  pairs : List (Nat × Nat)
  rank : Nat

def ownedWord (S : List (BitVec 64)) (m n i c : Nat) (lane : Lane) (k : Nat) : BitVec 64 :=
  let p := lane.val + 32 * k
  if p < m then S.getD (i * (m * wordsFor n) + p * wordsFor n + c) 0 else 0

def deviceColumn (S : List (BitVec 64)) (m n i c jj : Nat) : Words := fun w =>
  let lo := ballot fun lane => (ownedWord S m n i c lane (2 * w)).getLsbD jj
  let hi := ballot fun lane => (ownedWord S m n i c lane (2 * w + 1)).getLsbD jj
  lo.setWidth 64 ||| hi.setWidth 64 <<< 32

def accumulate (state : DeviceState) (m mw : Nat) (v : Words) (lane : Lane) : Words := fun w =>
  (List.range (2 * mw)).foldl (fun acc k =>
    let p := lane.val + 32 * k
    let bit := lane.val + 32 * (k % 2)
    if p < m ∧ (state.piv (k / 2) &&& v (k / 2)).getLsbD bit then acc ^^^ state.B p w else acc) 0

def deviceReduce (state : DeviceState) (m mw : Nat) (v : Words) (lane : Lane) : Words := fun w =>
  v w ^^^ butterfly (· ^^^ ·) (fun lane => accumulate state m mw v lane w) lane

def lowest (mw : Nat) (r : Words) : Option Nat :=
  (List.range mw).foldr (fun w q => if r w ≠ 0 then some (64 * w + (r w).ctz.toNat) else q) none

/-- The pivot rows are cleared in coordinate `q` by their lanes, and row `q` becomes `r`. -/
def deviceUpdate (state : DeviceState) (m : Nat) (r : Lane → Words) (q p : Nat) : Words :=
  if p = q then r (laneOf q)
  else if p < m ∧ bitAt state.piv p ∧ bitAt (state.B p) q then xorWords (state.B p) (r (laneOf p))
  else state.B p

/-- One candidate of word-column `c`. All lanes hold the same `r` (`coords_deviceReduce`)
and branch alike. -/
def deviceAccept (S : List (BitVec 64)) (m n mw : Nat) (state : DeviceState)
    (candidate : Nat × Nat × Nat) : Option DeviceState :=
  let (i, c, jj) := candidate
  let v := deviceColumn S m n i c jj
  if ∀ w < mw, v w = 0 then none
  else
    let r := deviceReduce state m mw v
    (lowest mw (r 0)).map fun q =>
      { B := deviceUpdate state m r q
        piv := setBit state.piv q
        pairs := state.pairs ++ [(i, 64 * c + jj)]
        rank := state.rank + 1 }

def deviceCandidates (len n : Nat) : List (Nat × Nat × Nat) :=
  (List.range len).flatMap fun i => (List.range (wordsFor n)).flatMap fun c =>
    (List.range (min 64 (n - 64 * c))).map fun jj => (i, c, jj)

/-- The shared memory starts with whatever it holds. -/
def DeviceState.start (shared : Nat → Words) : DeviceState := ⟨shared, fun _ => 0, [], 0⟩

def deviceScan (shared : Nat → Words) (S : List (BitVec 64)) (len m n mw : Nat) :
    Option Nat × DeviceState :=
  scan (deviceAccept S m n mw) (fun state => state.rank = m) Prod.fst (deviceCandidates len n)
    (.start shared)

/-- The meta record, the pairs, and the pivot mask, which is written on failure only. -/
structure DeviceResult where
  t0 : Nat
  rank : Nat
  status : Nat
  pairs : List (Nat × Nat)
  pivmask : List (BitVec 64)

def findInitBasis (shared : Nat → Words) (S : List (BitVec 64)) (len m n mw : Nat) : DeviceResult :=
  match deviceScan shared S len m n mw with
  | (some t0, state) => ⟨t0, state.rank, 0, state.pairs, []⟩
  | (none, state) => ⟨0, state.rank, 1, state.pairs, (List.range (wordsFor m)).map state.piv⟩

def initBasisGpuMaxM : Nat := 512

def initBasisGpuSupported (m n : Nat) : Bool := 1 ≤ m ∧ m ≤ initBasisGpuMaxM ∧ 1 ≤ n

def kernelWords (m : Nat) : Nat :=
  if wordsFor m ≤ 1 then 1 else if wordsFor m ≤ 2 then 2 else if wordsFor m ≤ 4 then 4 else 8

/-- `launch_find_init_basis_gpu`; `none` where it throws. -/
def launchFindInitBasisGpu (shared : Nat → Words) (S : List (BitVec 64)) (len m n : Nat) :
    Option DeviceResult :=
  if initBasisGpuSupported m n then some (findInitBasis shared S len m n (kernelWords m)) else none

def DeviceResult.download (device : DeviceResult) (m : Nat) : InitBasisResult where
  t0 := device.t0
  rank := device.rank
  pairs := if device.rank = m then device.pairs.take m else []
  pivotMask := if device.status ≠ 0 then device.pivmask else []

example : findInitBasisCpu [[1, 1], [2, 1]] 2 2 = ⟨2, 2, [(0, 0), (1, 0)], []⟩ := by decide +kernel

/-! ## Bits -/

theorem bitAt_xorWords (left right : Words) (p : Nat) :
    bitAt (xorWords left right) p = (bitAt left p ^^ bitAt right p) :=
  BitVec.getLsbD_xor

theorem getLsbD_one_shiftLeft {place : Nat} (inside : place < 64) (b : Nat) :
    ((1 : BitVec 64) <<< place).getLsbD b = decide (b = place) := by
  rw [BitVec.getLsbD_shiftLeft]
  by_cases same : b = place
  · simp [same, inside]
  · by_cases below : b < place
    · simp [below, same]
    · simp [below, same, BitVec.getLsbD_one, show b - place ≠ 0 by omega]

theorem bitAt_setBit (v : Words) (r p : Nat) :
    bitAt (setBit v r) p = (bitAt v p || decide (p = r)) := by
  by_cases word : p / 64 = r / 64
  · have place : p = r ↔ p % 64 = r % 64 := by omega
    have mask := getLsbD_one_shiftLeft (Nat.mod_lt r (by decide : 0 < 64)) (p % 64)
    rw [bitAt, setBit, word, update_self, BitVec.getLsbD_or, mask, bitAt, word,
      decide_eq_decide.mpr place]
  · have different : p ≠ r := fun same => word (congrArg (· / 64) same)
    rw [bitAt, setBit, update_of_ne word, bitAt, decide_eq_false different, Bool.or_false]

@[simp] theorem bitAt_zero (p : Nat) : bitAt (fun _ => 0#64) p = false := BitVec.getLsbD_zero

def coords (v : Words) (p : Nat) : ZMod 2 := if bitAt v p then 1 else 0

theorem ite_xor (left right : Bool) : (if (left ^^ right) = true then 1 else 0 : ZMod 2) =
    (if left = true then 1 else 0) + if right = true then 1 else 0 := by
  revert left right
  decide

theorem coords_xorWords (left right : Words) :
    coords (xorWords left right) = coords left + coords right := by
  funext p
  rw [coords, bitAt_xorWords, ite_xor]
  rfl

theorem coords_eq_one_iff {v : Words} {p : Nat} : coords v p = 1 ↔ bitAt v p = true := by
  rw [coords]
  split <;> simp [*]

theorem coords_eq_zero_iff {v : Words} {p : Nat} : coords v p = 0 ↔ bitAt v p = false := by
  rw [coords]
  split <;> simp [*]

theorem bitAt_congr {left right : Words} (same : coords left = coords right) (p : Nat) :
    bitAt left p = bitAt right p := by
  rw [Bool.eq_iff_iff, ← coords_eq_one_iff, ← coords_eq_one_iff, same]

/-! ## The warp -/

theorem getLsbD_ballot (predicate : Lane → Bool) (lane : Lane) :
    (ballot predicate).getLsbD lane = predicate lane := by
  have folded : ∀ (lanes : List Lane) (mask : BitVec 32), (lanes.foldl (fun mask lane =>
      mask ||| (BitVec.ofBool (predicate lane)).setWidth 32 <<< lane.val) mask).getLsbD lane =
        (mask.getLsbD lane || (decide (lane ∈ lanes) && predicate lane)) := by
    intro lanes
    induction lanes with
    | nil => simp
    | cons first lanes induction =>
      intro mask
      have bit : ((BitVec.ofBool (predicate first)).setWidth 32 <<< first.val).getLsbD lane =
          (decide (lane = first) && predicate lane) := by
        rw [BitVec.getLsbD_shiftLeft]
        by_cases same : lane = first
        · subst same
          simp
        · have apart : lane.val ≠ first.val := fun equal => same (Fin.ext equal)
          by_cases below : lane.val < first.val
          · simp [below, same]
          · simp [below, same, BitVec.getLsbD_ofBool, show lane.val - first.val ≠ 0 by omega]
      rw [List.foldl_cons, induction, BitVec.getLsbD_or, bit]
      by_cases same : lane = first <;> by_cases later : lane ∈ lanes <;>
        cases mask.getLsbD lane <;> simp [same, later]
  rw [ballot, folded]
  simp

theorem butterfly_map {M N : Type} {combine : M → M → M} {combine' : N → N → N} {f : M → N}
    (hom : ∀ left right, f (combine left right) = combine' (f left) (f right)) (value : Lane → M)
    (lane : Lane) :
    f (butterfly combine value lane) = butterfly combine' (fun lane => f (value lane)) lane := by
  simp only [butterfly, List.foldl_cons, List.foldl_nil, hom]

/-- The lanes that a lane has heard of when lanes that differ by a multiple of `width` have
been combined. -/
def heard (width : Nat) (lane : Lane) : Finset Lane :=
  Finset.univ.filter fun other => other.val % width = lane.val % width

private theorem heard_step {M : Type} [AddCommMonoid M] (value : Lane → M) {wide narrow : Nat}
    {off : Lane}
    (halves : ∀ lane other : Lane, (other.val % narrow = lane.val % narrow ↔
        other.val % wide = lane.val % wide ∨ other.val % wide = (lane ^^^ off).val % wide) ∧
      (lane ^^^ off).val % wide ≠ lane.val % wide) (lane : Lane) :
    ∑ other ∈ heard wide lane, value other + ∑ other ∈ heard wide (lane ^^^ off), value other =
      ∑ other ∈ heard narrow lane, value other := by
  have apart : Disjoint (heard wide lane) (heard wide (lane ^^^ off)) := by
    refine Finset.disjoint_filter.mpr fun other _ near far => ?_
    exact (halves lane other).2 (far.symm.trans near)
  rw [← Finset.sum_union apart]
  congr 1
  ext other
  simp only [heard, Finset.mem_union, Finset.mem_filter, Finset.mem_univ, true_and]
  exact (halves lane other).1.symm

theorem butterfly_add {M : Type} [AddCommMonoid M] (value : Lane → M) (lane : Lane) :
    butterfly (· + ·) value lane = ∑ other, value other := by
  have own : value = fun lane => ∑ other ∈ heard 32 lane, value other := by
    funext lane
    have alone : heard 32 lane = {lane} := by
      ext other
      simp only [heard, Finset.mem_filter, Finset.mem_univ, true_and, Finset.mem_singleton]
      rw [Nat.mod_eq_of_lt other.isLt, Nat.mod_eq_of_lt lane.isLt, Fin.ext_iff]
    rw [alone, Finset.sum_singleton]
  have all : heard 1 lane = Finset.univ :=
    Finset.filter_true_of_mem fun other _ => by rw [Nat.mod_one, Nat.mod_one]
  conv_lhs => rw [own]
  simp only [butterfly, List.foldl_cons, List.foldl_nil]
  simp only [@heard_step M _ value 32 16 16 (by decide +kernel),
    @heard_step M _ value 16 8 8 (by decide +kernel),
    @heard_step M _ value 8 4 4 (by decide +kernel),
    @heard_step M _ value 4 2 2 (by decide +kernel),
    @heard_step M _ value 2 1 1 (by decide +kernel)]
  rw [all]

end CudaMpqs.Lingen.InitBasis
