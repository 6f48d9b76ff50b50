import CudaMpqs.Matrix.MergeTree

/-! # Reduced matrices and the kernel of the input

A reduced matrix with its row map and merge tree stands for the input matrix if
the expansion of its kernel vectors is a bijection onto those of the input. -/

namespace CudaMpqs

open Elimination

namespace HostMatrixCSR

structure IsKernelVector (matrix : HostMatrixCSR) (rels : List Nat) : Prop where
  ascending : rels.Pairwise (· < ·)
  bound : ∀ rel ∈ rels, rel < matrix.nRows
  cancels : matrix.InLeftKernel fun rel => decide (rel ∈ rels)

theorem entry_eq_indicator {rels : List Nat} {bound : Nat} (inside : ∀ rel ∈ rels, rel < bound) :
    entry rels = indicator bound fun rel => decide (rel ∈ rels) := by
  funext rel
  rw [entry, indicator]
  apply if_congr _ rfl rfl
  constructor
  · exact fun member => ⟨inside rel member, decide_eq_true member⟩
  · exact fun chosen => of_decide_eq_true chosen.2

theorem isKernelVector_of_entry {matrix : HostMatrixCSR} {rels : List Nat}
    (ascending : rels.Pairwise (· < ·)) (member : entry rels ∈ matrix.leftKernel) :
    matrix.IsKernelVector rels := by
  have bound : ∀ rel ∈ rels, rel < matrix.nRows := by
    intro rel present
    by_contra outside
    have zero := member.1 rel (by simpa using outside)
    rw [entry, if_pos present] at zero
    exact one_ne_zero zero
  refine ⟨ascending, bound, ?_⟩
  rw [entry_eq_indicator bound] at member
  exact (indicator_mem_leftKernel _ _).mp member

theorem IsKernelVector.entry_mem {matrix : HostMatrixCSR} {rels : List Nat}
    (kernelVector : matrix.IsKernelVector rels) :
    entry rels ∈ matrix.leftKernel := by
  rw [entry_eq_indicator kernelVector.bound]
  exact (indicator_mem_leftKernel _ _).mpr kernelVector.cancels

theorem entry_injective {left right : List Nat} (leftAscending : left.Pairwise (· < ·))
    (rightAscending : right.Pairwise (· < ·)) (equal : entry left = entry right) :
    left = right := by
  have same : ∀ rel, rel ∈ left ↔ rel ∈ right := by
    intro rel
    have entries := congrFun equal rel
    rw [entry, entry] at entries
    by_cases inLeft : rel ∈ left <;> by_cases inRight : rel ∈ right <;>
      simp_all
  have permutation : left.Perm right := by
    apply (List.perm_ext_iff_of_nodup ?_ ?_).mpr same
    · exact leftAscending.imp fun less => less.ne
    · exact rightAscending.imp fun less => less.ne
  exact permutation.eq_of_pairwise
    (fun _ _ _ _ less greater => absurd (less.trans greater) (lt_irrefl _))
    leftAscending rightAscending

theorem indicator_injective {bound : Nat} {left right : Nat → Bool}
    (equal : indicator bound left = indicator bound right) :
    ∀ r < bound, left r = right r := by
  intro r inside
  have same := congrFun equal r
  cases leftChosen : left r <;> cases rightChosen : right r <;>
    simp_all [indicator]

theorem exists_chosen {matrix : HostMatrixCSR} {x : Nat → ZMod 2} (member : x ∈ matrix.leftKernel) :
    ∃ chosen, x = indicator matrix.nRows chosen := by
  refine ⟨fun r => decide (x r = 1), ?_⟩
  funext r
  rw [indicator]
  by_cases inside : r < matrix.nRows
  · have bit : x r = 0 ∨ x r = 1 := by
      generalize x r = coefficient
      revert coefficient
      decide
    rcases bit with zero | one
    · simp [zero]
    · simp [one, inside]
  · rw [if_neg fun chosen => inside chosen.1]
    exact member.1 r (by simpa using inside)

end HostMatrixCSR

/-! ## Packed vectors -/

private theorem exists_word (chosen : Nat → Bool) (width : Nat) :
    ∃ word : BitVec width, ∀ place < width, word.getLsbD place = chosen place := by
  induction width with
  | zero => exact ⟨0, fun place inside => absurd inside (Nat.not_lt_zero place)⟩
  | succ width induction =>
    rcases induction with ⟨word, bits⟩
    refine ⟨BitVec.cons (chosen width) word, ?_⟩
    intro place inside
    rw [BitVec.getLsbD_cons]
    by_cases last : place = width
    · rw [if_pos last, last]
    · rw [if_neg last]
      exact bits place (by omega)

theorem exists_packed (chosen : Nat → Bool) (bound : Nat) :
    ∃ packed, ∀ i < bound, bitAt packed i = chosen i := by
  choose word bits using fun index : Nat =>
    exists_word (fun place => chosen (64 * index + place)) 64
  refine ⟨(List.range (bound / 64 + 1)).map word, ?_⟩
  intro i inside
  have index : i / 64 < bound / 64 + 1 :=
    Nat.lt_succ_of_le (Nat.div_le_div_right inside.le)
  rw [bitAt, List.getD_eq_getElem _ _ (by simpa using index), List.getElem_map,
    List.getElem_range, bits _ _ (Nat.mod_lt _ (by decide)), Nat.div_add_mod]

/-! ## Reductions -/

structure MergeResult where
  reduced : HostMatrixCSR
  rowMap : List Nat
  mergeTree : MergeTree
  mergesPerformed : Nat
  rowsRemoved : Nat
deriving DecidableEq

/-- The rows of the reduced matrix record leaves whose combinations are the
kernel of the input. -/
def Reduction (input reduced : HostMatrixCSR) (rowMap : List Nat) (tree : MergeTree) : Prop :=
  ∃ leaves : Nat → List Nat, (∀ i < reduced.nRows, tree.Expansion (rowMap.getD i 0) (leaves i)) ∧
    Expands (Finset.range reduced.nRows)
      (fun i => HostMatrixCSR.entry (reduced.row i)) (fun i => parity (leaves i))
      input.leftKernel

def KernelBijection (input : HostMatrixCSR) (result : MergeResult) : Prop :=
  ∃ enough, ∀ fuel, enough ≤ fuel → (∀ packed, result.reduced.InLeftKernel (bitAt packed) →
      ∃ rels, expandKernelVector fuel packed result.reduced.nRows result.rowMap
        result.mergeTree = some rels ∧ input.IsKernelVector rels) ∧
    (∀ packed packed', result.reduced.InLeftKernel (bitAt packed) →
      result.reduced.InLeftKernel (bitAt packed') →
      expandKernelVector fuel packed result.reduced.nRows result.rowMap
          result.mergeTree =
        expandKernelVector fuel packed' result.reduced.nRows result.rowMap
          result.mergeTree →
      ∀ i < result.reduced.nRows, bitAt packed i = bitAt packed' i) ∧
    ∀ rels, input.IsKernelVector rels → ∃ packed, result.reduced.InLeftKernel (bitAt packed) ∧
        expandKernelVector fuel packed result.reduced.nRows result.rowMap
          result.mergeTree = some rels

theorem Reduction.kernelBijection {input : HostMatrixCSR} {result : MergeResult}
    (reduction : Reduction input result.reduced result.rowMap result.mergeTree) :
    KernelBijection input result := by
  rcases reduction with ⟨leaves, expansions, mapsTo, injective, surjective⟩
  rcases exists_fuel expansions with ⟨enough, expanded⟩
  refine ⟨enough, ?_⟩
  intro fuel sufficient
  have spec packed := expandKernelVector_eq packed (expanded fuel sufficient)
  refine ⟨?_, ?_, ?_⟩
  · intro packed cancels
    rcases spec packed with ⟨rels, result, ascending, entries⟩
    refine ⟨rels, result, HostMatrixCSR.isKernelVector_of_entry ascending ?_⟩
    rw [entries]
    exact mapsTo ((HostMatrixCSR.indicator_mem_leftKernel _ _).mpr cancels)
  · intro packed packed' cancels cancels' equal
    rcases spec packed with ⟨rels, result, -, entries⟩
    rcases spec packed' with ⟨rels', result', -, entries'⟩
    rw [result, result', Option.some.injEq] at equal
    subst equal
    exact HostMatrixCSR.indicator_injective (injective
      ((HostMatrixCSR.indicator_mem_leftKernel _ _).mpr cancels)
      ((HostMatrixCSR.indicator_mem_leftKernel _ _).mpr cancels')
      (entries.symm.trans entries'))
  · intro rels kernelVector
    rcases surjective kernelVector.entry_mem with ⟨x, xKernel, combined⟩
    rcases HostMatrixCSR.exists_chosen xKernel with ⟨chosen, rfl⟩
    rcases exists_packed chosen result.reduced.nRows with ⟨packed, bits⟩
    have same : HostMatrixCSR.indicator result.reduced.nRows (bitAt packed) =
        HostMatrixCSR.indicator result.reduced.nRows chosen := by
      funext i
      rw [HostMatrixCSR.indicator, HostMatrixCSR.indicator]
      by_cases inside : i < result.reduced.nRows
      · rw [bits i inside]
      · simp [inside]
    rcases spec packed with ⟨found, expansion, ascending, entries⟩
    have equal : found = rels := by
      apply HostMatrixCSR.entry_injective ascending kernelVector.ascending
      rw [entries, same, combined]
    refine ⟨packed, ?_, by rw [expansion, equal]⟩
    rw [← HostMatrixCSR.indicator_mem_leftKernel, same]
    exact xKernel

end CudaMpqs
