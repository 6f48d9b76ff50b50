import Mathlib.Algebra.BigOperators.Fin
import CudaMpqs.Spmm.BlockWiedemannSpMM

/-! # Solutions in the original coordinates

`RunStage3` unpacks each solution, moves its bits along the inverse map of the domain
and packs it again. Kernel vectors of the permuted operator become kernel vectors of
the matrix that the solver was given. -/

namespace CudaMpqs.Lingen

open HostMatrix

/-! ## Packed bits -/

def solutionBit (packed : List (BitVec 64)) (i : Nat) : Bool :=
  (packed.getD (i / 64) 0#64).getLsbD (i % 64)

def unpackBits (packed : List (BitVec 64)) (nBits : Nat) : List Bool :=
  (List.range nBits).map fun i => (packed.getD (i / 64) 0#64 >>> (i % 64)).getLsbD 0

def setBit (packed : List (BitVec 64)) (i : Nat) : List (BitVec 64) :=
  packed.modify (i / 64) (· ||| 1#64 <<< (i % 64))

def packBits (unpacked : List Bool) : List (BitVec 64) :=
  (List.range unpacked.length).foldl
    (fun packed i => if unpacked.getD i false then setBit packed i else packed)
    (List.replicate ((unpacked.length + 63) / 64) 0#64)

theorem getD_unpackBits (packed : List (BitVec 64)) {nBits i : Nat} (inside : i < nBits) :
    (unpackBits packed nBits).getD i false = solutionBit packed i := by
  rw [unpackBits, List.getD_eq_getElem _ _ (by simpa using inside), List.getElem_map,
    List.getElem_range, BitVec.getLsbD_ushiftRight, Nat.add_zero, solutionBit]

theorem solutionBit_setBit {packed : List (BitVec 64)} {i : Nat}
    (inside : i / 64 < packed.length) (j : Nat) :
    solutionBit (setBit packed i) j = (solutionBit packed j || decide (j = i)) := by
  by_cases within : j / 64 < packed.length
  · rw [solutionBit, solutionBit, setBit,
      List.getD_eq_getElem _ _ (by rw [List.length_modify]; exact within),
      List.getD_eq_getElem _ _ within, List.getElem_modify]
    have narrow : j % 64 < 64 := Nat.mod_lt _ (by decide)
    by_cases word : i / 64 = j / 64
    · rw [if_pos word, BitVec.getLsbD_or]
      congr 1
      rw [BitVec.getLsbD_shiftLeft, BitVec.getLsbD_one]
      by_cases same : j = i
      · simp [same, Nat.mod_lt]
      · have apart : j % 64 ≠ i % 64 := by omega
        by_cases below : j % 64 < i % 64
        · simp [same, below]
        · have positive : j % 64 - i % 64 ≠ 0 := by omega
          simp [same, positive]
    · have apart : j ≠ i := by
        intro same
        exact word (by rw [same])
      simp [word, apart]
  · have apart : j ≠ i := by
      intro same
      exact within (by rw [same]; exact inside)
    rw [solutionBit, solutionBit, setBit,
      List.getD_eq_default _ _ (by rw [List.length_modify]; omega),
      List.getD_eq_default _ _ (by omega)]
    simp [apart]

theorem packBits_upto (unpacked : List Bool) : ∀ count ≤ unpacked.length,
    let packed := (List.range count).foldl
      (fun packed i => if unpacked.getD i false then setBit packed i else packed)
      (List.replicate ((unpacked.length + 63) / 64) 0#64)
    packed.length = (unpacked.length + 63) / 64 ∧
      ∀ j, solutionBit packed j = (decide (j < count) && unpacked.getD j false) := by
  intro count
  induction count with
  | zero =>
    refine fun _ => ⟨List.length_replicate, fun j => ?_⟩
    rw [List.range_zero, List.foldl_nil, solutionBit, List.getD_eq_getElem?_getD,
      List.getElem?_getD_replicate_default_eq]
    simp
  | succ count induction =>
    intro fits packed
    obtain ⟨length, bits⟩ := induction (by omega)
    have split : packed = if unpacked.getD count false then
        setBit ((List.range count).foldl
          (fun packed i => if unpacked.getD i false then setBit packed i else packed)
          (List.replicate ((unpacked.length + 63) / 64) 0#64)) count
        else (List.range count).foldl
          (fun packed i => if unpacked.getD i false then setBit packed i else packed)
          (List.replicate ((unpacked.length + 63) / 64) 0#64) := by
      simp only [packed, List.range_succ, List.foldl_append, List.foldl_cons, List.foldl_nil]
    rw [split]
    by_cases taken : unpacked.getD count false = true
    · rw [if_pos taken]
      refine ⟨by rw [setBit, List.length_modify, length], fun j => ?_⟩
      rw [solutionBit_setBit (by rw [length]; omega), bits j]
      by_cases last : j = count
      · rw [last, taken]
        simp
      · have same : (j < count + 1) = (j < count) := propext (by omega)
        simp [last, same]
    · rw [if_neg taken]
      refine ⟨length, fun j => ?_⟩
      rw [bits j]
      by_cases last : j = count
      · rw [last, eq_false_of_ne_true taken, Bool.and_false, Bool.and_false]
      · have same : (j < count + 1) = (j < count) := propext (by omega)
        simp only [same]

theorem solutionBit_packBits (unpacked : List Bool) {i : Nat} (inside : i < unpacked.length) :
    solutionBit (packBits unpacked) i = unpacked.getD i false := by
  rw [packBits, (packBits_upto unpacked _ le_rfl).2, decide_eq_true inside, Bool.true_and]

/-! ## Both modes -/

def domain (A : HostMatrix) (solveTransposed : Bool) : Nat :=
  if solveTransposed then A.nRows else A.nCols

def InKernel (A : HostMatrix) (solveTransposed : Bool) (x : Nat → Bool) : Prop :=
  if solveTransposed then Matrix.vecMul (fun r : Fin A.nRows => bit (x r)) A.matrix = 0
  else A.matrix.mulVec (fun c : Fin A.nCols => bit (x c)) = 0

variable {raw : HostMatrix} {nrows : Nat} {sortRows sortCols : Bool}

def operatorMatrix (spmm : BlockWiedemannSpMM raw nrows sortRows sortCols)
    (solveTransposed : Bool) : HostMatrix :=
  if solveTransposed then spmm.matAT else spmm.matA

def unpermute (spmm : BlockWiedemannSpMM raw nrows sortRows sortCols)
    (solveTransposed : Bool) (solution : List (BitVec 64)) : List (BitVec 64) :=
  packBits
    (if solveTransposed then spmm.postprocessDomainA (unpackBits solution nrows) nrows
    else spmm.postprocessDomainAT (unpackBits solution nrows) nrows)

def position (spmm : BlockWiedemannSpMM raw nrows sortRows sortCols)
    (solveTransposed : Bool) (i : Nat) : Nat :=
  if solveTransposed then spmm.pRow.inv.getD i 0 else spmm.pCol.inv.getD i 0

def Supported (A : HostMatrix) (spmm : BlockWiedemannSpMM raw nrows sortRows sortCols)
    (solveTransposed : Bool) (solution : List (BitVec 64)) : Prop :=
  ∀ j < nrows, solutionBit solution j = true →
    ∃ i < domain A solveTransposed, position spmm solveTransposed i = j

theorem solutionBit_unpermute (spmm : BlockWiedemannSpMM raw nrows sortRows sortCols)
    (rowsFit : raw.nRows ≤ nrows) (colsFit : raw.nCols ≤ nrows) (solveTransposed : Bool)
    (solution : List (BitVec 64)) {i : Nat}
    (inside : i < if solveTransposed then raw.nRows else nrows) :
    solutionBit (unpermute spmm solveTransposed solution) i =
      solutionBit solution (position spmm solveTransposed i) := by
  cases solveTransposed with
  | true =>
    have within : i < raw.nRows := inside
    have target := spmm.pRow.inv_lt within
    change solutionBit (packBits (BlockWiedemannSpMM.applyPermutationCpu
      (unpackBits solution nrows) nrows spmm.pRow.inv)) i =
        solutionBit solution (spmm.pRow.inv.getD i 0)
    rw [solutionBit_packBits _ (by rw [BlockWiedemannSpMM.length_applyPermutationCpu]; omega),
      BlockWiedemannSpMM.getD_applyPermutationCpu _ (by omega)
        (by rw [spmm.pRow.inv_length]; exact within), getD_unpackBits _ (by omega)]
  | false =>
    have within : i < nrows := inside
    have same := logicalNCols_of_le colsFit
    have target := spmm.pCol.inv_lt (r := i) (by rw [same]; exact within)
    change solutionBit (packBits (BlockWiedemannSpMM.applyPermutationCpu
      (unpackBits solution nrows) nrows spmm.pCol.inv)) i =
        solutionBit solution (spmm.pCol.inv.getD i 0)
    rw [solutionBit_packBits _
        (by rw [BlockWiedemannSpMM.length_applyPermutationCpu]; exact within),
      BlockWiedemannSpMM.getD_applyPermutationCpu _ within
        (by rw [spmm.pCol.inv_length, same]; exact within),
      getD_unpackBits _ (target.trans_eq same)]

/-- The matrix that the solver is given, square as it is or padded. -/
def IsInput (A raw : HostMatrix) : Prop := raw = A ∨ raw = A.padToSquare

variable {A : HostMatrix}

theorem IsInput.entry (input : IsInput A raw) (r c : Nat) : raw.entry r c = A.entry r c := by
  rcases input with same | padded
  · rw [same]
  · rw [padded, entry_padToSquare]

theorem IsInput.nRows_le (input : IsInput A raw) : A.nRows ≤ raw.nRows := by
  rcases input with same | padded
  · rw [same]
  · rw [padded]
    exact le_max_left _ _

theorem IsInput.nCols_le (input : IsInput A raw) : A.nCols ≤ raw.nCols := by
  rcases input with same | padded
  · rw [same]
  · rw [padded]
    exact le_max_right _ _

theorem IsInput.domain_le (input : IsInput A raw) (colsFit : raw.nCols ≤ nrows)
    (solveTransposed : Bool) :
    domain A solveTransposed ≤ if solveTransposed then raw.nRows else nrows := by
  cases solveTransposed with
  | true => exact input.nRows_le
  | false => exact input.nCols_le.trans colsFit

/-- Summing over the rows or columns of `A` alone leaves out vanishing entries. -/
theorem sum_fin_eq_range {count bound : Nat} (fits : count ≤ bound) (f : Nat → ZMod 2)
    (beyond : ∀ i, count ≤ i → f i = 0) :
    ∑ i : Fin count, f i = ∑ i ∈ Finset.range bound, f i := by
  rw [← Finset.sum_range]
  apply Finset.sum_subset
  · intro i member
    exact Finset.mem_range.mpr ((Finset.mem_range.mp member).trans_le fits)
  · intro i _ outside
    exact beyond i (by simpa using outside)

theorem inKernel_unpermute {A : HostMatrix} (input : IsInput A raw)
    (rowsFit : raw.nRows ≤ nrows) (colsFit : raw.nCols ≤ nrows)
    (spmm : BlockWiedemannSpMM raw nrows sortRows sortCols) (solveTransposed : Bool)
    {solution : List (BitVec 64)}
    (kernel : (operatorMatrix spmm solveTransposed).Annihilates (solutionBit solution)) :
    InKernel A solveTransposed (solutionBit (unpermute spmm solveTransposed solution)) := by
  have moved := fun i inside =>
    solutionBit_unpermute spmm rowsFit colsFit solveTransposed solution (i := i) inside
  have columns := logicalNCols_of_le colsFit
  cases solveTransposed with
  | true =>
    change Matrix.vecMul _ A.matrix = 0
    funext c
    have vanishes := spmm.annihilates_matAT kernel (c := c)
      (by rw [columns]; exact (c.isLt.trans_le input.nCols_le).trans_le colsFit)
    change ∑ r : Fin A.nRows, bit (solutionBit (unpermute spmm true solution) r) * A.entry r c = 0
    rw [sum_fin_eq_range input.nRows_le
        (fun r => bit (solutionBit (unpermute spmm true solution) r) * A.entry r c)
        fun r beyond => by rw [A.entry_beyond_rows beyond, mul_zero], ← vanishes]
    apply Finset.sum_congr rfl
    intro r member
    rw [moved r (Finset.mem_range.mp member), input.entry, mul_comm]
    rfl
  | false =>
    change A.matrix.mulVec _ = 0
    funext r
    have vanishes := spmm.annihilates_matA kernel (r.isLt.trans_le input.nRows_le)
    change ∑ c : Fin A.nCols, A.entry r c *
      bit (solutionBit (unpermute spmm false solution) c) = 0
    rw [sum_fin_eq_range (input.nCols_le.trans (nCols_le_logicalNCols raw nrows))
        (fun c => A.entry r c * bit (solutionBit (unpermute spmm false solution) c))
        fun c beyond => by rw [A.entry_beyond_cols beyond, zero_mul], ← vanishes]
    apply Finset.sum_congr rfl
    intro c member
    rw [moved c ((Finset.mem_range.mp member).trans_eq columns), input.entry]
    rfl

theorem unpermute_injective {A : HostMatrix} (input : IsInput A raw)
    (rowsFit : raw.nRows ≤ nrows) (colsFit : raw.nCols ≤ nrows)
    (spmm : BlockWiedemannSpMM raw nrows sortRows sortCols) (solveTransposed : Bool)
    {left right : List (BitVec 64)} (leftSupported : Supported A spmm solveTransposed left)
    (rightSupported : Supported A spmm solveTransposed right)
    (agree : ∀ i < domain A solveTransposed, solutionBit (unpermute spmm solveTransposed left) i =
        solutionBit (unpermute spmm solveTransposed right) i) :
    unpackBits left nrows = unpackBits right nrows := by
  have places : ∀ i < domain A solveTransposed, solutionBit left (position spmm solveTransposed i) =
        solutionBit right (position spmm solveTransposed i) := by
    intro i inside
    have within := inside.trans_le (input.domain_le colsFit solveTransposed)
    rw [← solutionBit_unpermute spmm rowsFit colsFit solveTransposed left within,
      ← solutionBit_unpermute spmm rowsFit colsFit solveTransposed right within]
    exact agree i inside
  have bits : ∀ j < nrows, solutionBit left j = solutionBit right j := by
    intro j inside
    rw [Bool.eq_iff_iff]
    constructor
    · intro set
      obtain ⟨i, within, place⟩ := leftSupported j inside set
      rw [← place, ← places i within, place]
      exact set
    · intro set
      obtain ⟨i, within, place⟩ := rightSupported j inside set
      rw [← place, places i within, place]
      exact set
  apply List.ext_getElem (by simp [unpackBits])
  intro j inside within
  have below : j < nrows := by simpa [unpackBits] using inside
  rw [← List.getD_eq_getElem _ false inside, ← List.getD_eq_getElem _ false within,
    getD_unpackBits _ below, getD_unpackBits _ below]
  exact bits j below

/-- Whatever is sorted and solved for, a kernel vector of the permuted operator becomes
a kernel vector of the original matrix, and nothing supported on its coordinates is
lost. -/
theorem unpermutation_sound {A : HostMatrix} (input : IsInput A raw)
    (rowsFit : raw.nRows ≤ nrows) (colsFit : raw.nCols ≤ nrows)
    (spmm : BlockWiedemannSpMM raw nrows sortRows sortCols) (solveTransposed : Bool) :
    (∀ solution, (operatorMatrix spmm solveTransposed).Annihilates (solutionBit solution) →
        InKernel A solveTransposed (solutionBit (unpermute spmm solveTransposed solution))) ∧
      ∀ left right, Supported A spmm solveTransposed left → Supported A spmm solveTransposed right →
          (∀ i < domain A solveTransposed, solutionBit (unpermute spmm solveTransposed left) i =
              solutionBit (unpermute spmm solveTransposed right) i) →
            unpackBits left nrows = unpackBits right nrows :=
  ⟨fun _ kernel => inKernel_unpermute input rowsFit colsFit spmm solveTransposed kernel,
    fun _ _ leftSupported rightSupported agree =>
      unpermute_injective input rowsFit colsFit spmm solveTransposed leftSupported
        rightSupported agree⟩

def tallMatrix : HostMatrix where
  nRows := 3
  nCols := 2
  rows := [[0], [0, 1], [0]]
  rows_length := rfl
  inside := by decide

def tallSpMM : BlockWiedemannSpMM tallMatrix.padToSquare 3 true true where
  rowOrder := ⟨[1, 2, 0], by decide, by decide⟩
  colOrder := ⟨[0, 1, 2], by decide, by decide⟩

theorem unpermutation_sound_tallSpMM :
    InKernel tallMatrix true (solutionBit (unpermute tallSpMM true [6#64])) :=
  (unpermutation_sound (.inr rfl) (by decide) (by decide) tallSpMM true).1 [6#64]
    (by unfold Annihilates; decide +kernel)

end CudaMpqs.Lingen
