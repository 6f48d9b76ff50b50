import CudaMpqs.Matrix.HostMatrixCsr

/-! # The merge tree

The merge history of `merge_tree.h`, the leaves below a node, and the expansion
of kernel vectors to original relations. -/

namespace CudaMpqs

open Elimination

structure MergeTree where
  numLeaves : Nat
  internalNodes : List (Nat × Nat)
deriving DecidableEq

namespace MergeTree

def pushNode (tree : MergeTree) (left right : Nat) : MergeTree :=
  { tree with internalNodes := tree.internalNodes ++ [(left, right)] }

def lastNode (tree : MergeTree) : Nat :=
  tree.numLeaves + tree.internalNodes.length - 1

/-- The traversal with its stack; `none` when the fuel runs out. -/
def expandLoop (tree : MergeTree) : Nat → List Nat → List Nat → Option (List Nat)
  | _, [], out => some out
  | 0, _ :: _, _ => none
  | fuel + 1, idx :: work, out =>
    if idx < tree.numLeaves then tree.expandLoop fuel work (out ++ [idx])
    else
      let node := tree.internalNodes.getD (idx - tree.numLeaves) (0, 0)
      tree.expandLoop fuel (node.2 :: node.1 :: work) out

def expand (tree : MergeTree) (fuel idx : Nat) : Option (List Nat) :=
  tree.expandLoop fuel [idx] []

inductive Expansion (tree : MergeTree) : Nat → List Nat → Prop
  | leaf (idx : Nat) : idx < tree.numLeaves → Expansion tree idx [idx]
  | node (idx left right : Nat) (leftLeaves rightLeaves : List Nat) :
      tree.numLeaves ≤ idx →
      tree.internalNodes[idx - tree.numLeaves]? = some (left, right) →
      Expansion tree left leftLeaves → Expansion tree right rightLeaves →
      Expansion tree idx (rightLeaves ++ leftLeaves)

variable {tree : MergeTree}

theorem Expansion.pushNode {idx : Nat} {leaves : List Nat}
    (expansion : tree.Expansion idx leaves) (left right : Nat) :
    (tree.pushNode left right).Expansion idx leaves := by
  induction expansion with
  | leaf idx inside => exact .leaf idx inside
  | node idx left' right' leftLeaves rightLeaves above found _ _ leftRest rightRest =>
    refine .node idx left' right' leftLeaves rightLeaves above ?_ leftRest rightRest
    have inside := (List.getElem?_eq_some_iff.mp found).1
    exact (List.getElem?_append_left inside).trans found

theorem expansion_lastNode {left right : Nat} {leftLeaves rightLeaves : List Nat}
    (leftExpansion : tree.Expansion left leftLeaves)
    (rightExpansion : tree.Expansion right rightLeaves) :
    (tree.pushNode left right).Expansion (tree.pushNode left right).lastNode
      (rightLeaves ++ leftLeaves) := by
  have index : (tree.pushNode left right).lastNode =
      tree.numLeaves + tree.internalNodes.length := by
    simp [lastNode, MergeTree.pushNode]
  rw [index]
  refine .node _ left right leftLeaves rightLeaves (Nat.le_add_right _ _) ?_
    (leftExpansion.pushNode left right) (rightExpansion.pushNode left right)
  simp [MergeTree.pushNode]

theorem Expansion.expandLoop_eq {idx : Nat} {leaves : List Nat}
    (expansion : tree.Expansion idx leaves) :
    ∃ steps, ∀ fuel work out, tree.expandLoop (fuel + steps) (idx :: work) out =
      tree.expandLoop fuel work (out ++ leaves) := by
  induction expansion with
  | leaf idx inside =>
    refine ⟨1, ?_⟩
    intro fuel work out
    rw [expandLoop, if_pos inside]
  | node idx left right leftLeaves rightLeaves above found _ _ leftRest rightRest =>
    rcases leftRest with ⟨leftSteps, leftLoop⟩
    rcases rightRest with ⟨rightSteps, rightLoop⟩
    refine ⟨leftSteps + rightSteps + 1, ?_⟩
    intro fuel work out
    have node : tree.internalNodes.getD (idx - tree.numLeaves) (0, 0) =
        (left, right) := by
      rw [List.getD_eq_getElem?_getD, found]
      rfl
    rw [← Nat.add_assoc, ← Nat.add_assoc, expandLoop, if_neg (by omega)]
    simp only [node]
    rw [rightLoop, leftLoop, List.append_assoc]

private theorem expandLoop_nil (fuel : Nat) (out : List Nat) :
    tree.expandLoop fuel [] out = some out := by
  cases fuel <;> rfl

theorem Expansion.expand_eq {idx : Nat} {leaves : List Nat}
    (expansion : tree.Expansion idx leaves) :
    ∃ enough, ∀ fuel, enough ≤ fuel → tree.expand fuel idx = some leaves := by
  rcases expansion.expandLoop_eq with ⟨steps, loop⟩
  refine ⟨steps, ?_⟩
  intro fuel bound
  have run := loop (fuel - steps) [] []
  rw [Nat.sub_add_cancel bound, expandLoop_nil] at run
  exact run

end MergeTree

/-! ## Kernel vectors -/

def bitAt (packed : List (BitVec 64)) (i : Nat) : Bool :=
  (packed.getD (i / 64) 0).getLsbD (i % 64)

def collectLeaves (fuel : Nat) (packed : List (BitVec 64)) (rowMap : List Nat)
    (tree : MergeTree) : List Nat → Option (List Nat)
  | [] => some []
  | i :: rows =>
    if packed.length ≤ i / 64 then some []
    else if !bitAt packed i then collectLeaves fuel packed rowMap tree rows
    else do
      let leaves ← tree.expand fuel (rowMap.getD i 0)
      let rest ← collectLeaves fuel packed rowMap tree rows
      return leaves ++ rest

/-- The leaves whose 32-bit frequency is odd, in ascending order. -/
def oddLeaves (leaves : List Nat) : List Nat :=
  (leaves.dedup.filter fun leaf =>
    BitVec.ofNat 32 (leaves.count leaf) &&& 1 != 0).insertionSort (· ≤ ·)

def expandKernelVector (fuel : Nat) (packed : List (BitVec 64))
    (numReducedRows : Nat) (rowMap : List Nat) (tree : MergeTree) :
    Option (List Nat) := do
  let leaves ← collectLeaves fuel packed rowMap tree (List.range numReducedRows)
  return oddLeaves leaves

private theorem oddFrequency_iff (count : Nat) :
    (BitVec.ofNat 32 count &&& 1 != 0) = true ↔ Odd count := by
  have one : (1 : BitVec 32).toNat = 1 := rfl
  have zero : (0 : BitVec 32).toNat = 0 := rfl
  have masked : (BitVec.ofNat 32 count &&& 1).toNat = count % 2 := by
    rw [BitVec.toNat_and, BitVec.toNat_ofNat, one, Nat.and_one_is_mod]
    omega
  rw [bne_iff_ne, ne_eq, ← BitVec.toNat_inj, masked, zero, Nat.odd_iff]
  omega

theorem mem_oddLeaves_iff (leaves : List Nat) (leaf : Nat) :
    leaf ∈ oddLeaves leaves ↔ Odd (leaves.count leaf) := by
  rw [oddLeaves, List.mem_insertionSort, List.mem_filter, List.mem_dedup, oddFrequency_iff]
  constructor
  · exact fun odd => odd.2
  · intro odd
    exact ⟨List.count_pos_iff.mp odd.pos, odd⟩

theorem ascending_oddLeaves (leaves : List Nat) : (oddLeaves leaves).Pairwise (· < ·) := by
  have sorted := List.pairwise_insertionSort (· ≤ ·)
    (leaves.dedup.filter fun leaf =>
      BitVec.ofNat 32 (leaves.count leaf) &&& 1 != 0)
  have nodup : (oddLeaves leaves).Nodup :=
    (List.perm_insertionSort _ _).nodup_iff.mpr (leaves.nodup_dedup.filter _)
  exact (sorted.and nodup).imp fun le => lt_of_le_of_ne le.1 le.2

/-! ## What an expansion computes -/

def parity (leaves : List Nat) (leaf : Nat) : ZMod 2 := (leaves.count leaf : Nat)

theorem parity_append (left right : List Nat) (leaf : Nat) :
    parity (left ++ right) leaf = parity left leaf + parity right leaf := by
  rw [parity, List.count_append, Nat.cast_add, parity, parity]

section Expansion

variable {fuel numReducedRows : Nat} {rowMap : List Nat} {tree : MergeTree}
  {leaves : Nat → List Nat}

theorem collectLeaves_eq (packed : List (BitVec 64)) {rows : List Nat}
    (ascending : rows.Pairwise (· < ·))
    (expanded : ∀ i ∈ rows, tree.expand fuel (rowMap.getD i 0) = some (leaves i)) :
    collectLeaves fuel packed rowMap tree rows =
      some ((rows.filter (bitAt packed)).flatMap leaves) := by
  induction rows with
  | nil => rfl
  | cons i rows induction =>
    rcases List.pairwise_cons.mp ascending with ⟨below, ascending⟩
    have rest := induction ascending fun item member =>
      expanded item (List.mem_cons_of_mem _ member)
    rw [collectLeaves]
    by_cases outside : packed.length ≤ i / 64
    · have unset : ∀ item ∈ i :: rows, ¬ bitAt packed item = true := by
        intro item member
        have above : i ≤ item := by
          rcases List.mem_cons.mp member with rfl | member
          · exact le_rfl
          · exact (below item member).le
        have beyond := outside.trans (Nat.div_le_div_right above)
        rw [bitAt, List.getD_eq_default _ _ beyond]
        simp
      rw [if_pos outside, List.filter_eq_nil_iff.mpr unset]
      rfl
    · rw [if_neg outside]
      by_cases set : bitAt packed i = true
      · rw [set, expanded i List.mem_cons_self, rest, List.filter_cons_of_pos set,
          List.flatMap_cons]
        rfl
      · rw [List.filter_cons_of_neg set, ← rest]
        simp [set]

private theorem count_selected (chosen : Nat → Bool) (leaf bound : Nat) :
    ((((List.range bound).filter chosen).flatMap leaves).count leaf : ZMod 2) =
      combine (Finset.range bound) (fun i => parity (leaves i))
        (HostMatrixCSR.indicator bound chosen) leaf := by
  have total : ((((List.range bound).filter chosen).flatMap leaves).count leaf :
      ZMod 2) = ∑ i ∈ Finset.range bound,
        (if chosen i then 1 else 0) * parity (leaves i) leaf := by
    induction bound with
    | zero => rfl
    | succ bound induction =>
      rw [Finset.sum_range_succ, ← induction, List.range_succ,
        List.filter_append, List.flatMap_append, List.count_append, Nat.cast_add]
      by_cases taken : chosen bound = true
      · simp [taken, parity]
      · simp [taken]
  rw [total, combine]
  apply Finset.sum_congr rfl
  intro i member
  have inside := Finset.mem_range.mp member
  simp [HostMatrixCSR.indicator, inside]

theorem expandKernelVector_eq (packed : List (BitVec 64)) (expanded : ∀ i < numReducedRows,
      tree.expand fuel (rowMap.getD i 0) = some (leaves i)) :
    ∃ rels, expandKernelVector fuel packed numReducedRows rowMap tree =
        some rels ∧ rels.Pairwise (· < ·) ∧
      HostMatrixCSR.entry rels = combine (Finset.range numReducedRows) (fun i => parity (leaves i))
        (HostMatrixCSR.indicator numReducedRows (bitAt packed)) := by
  have collected := collectLeaves_eq packed List.pairwise_lt_range
    fun i member => expanded i (List.mem_range.mp member)
  refine ⟨_, by rw [expandKernelVector, collected]; rfl, ascending_oddLeaves _, ?_⟩
  funext leaf
  rw [← count_selected, HostMatrixCSR.entry]
  by_cases odd : Odd ((((List.range numReducedRows).filter
      (bitAt packed)).flatMap leaves).count leaf)
  · rw [if_pos ((mem_oddLeaves_iff _ _).mpr odd)]
    exact (ZMod.natCast_eq_one_iff_odd.mpr odd).symm
  · rw [if_neg (mt (mem_oddLeaves_iff _ _).mp odd)]
    exact (ZMod.natCast_eq_zero_iff_even.mpr (Nat.not_odd_iff_even.mp odd)).symm

theorem exists_fuel (expansions : ∀ i < numReducedRows,
      tree.Expansion (rowMap.getD i 0) (leaves i)) :
    ∃ enough, ∀ fuel, enough ≤ fuel → ∀ i < numReducedRows,
      tree.expand fuel (rowMap.getD i 0) = some (leaves i) := by
  induction numReducedRows with
  | zero => exact ⟨0, fun _ _ i inside => absurd inside (Nat.not_lt_zero i)⟩
  | succ bound induction =>
    rcases induction fun i inside => expansions i (by omega) with
      ⟨enough, prior⟩
    rcases (expansions bound (Nat.lt_succ_self _)).expand_eq with
      ⟨enoughLast, last⟩
    refine ⟨max enough enoughLast, ?_⟩
    intro fuel sufficient i inside
    rcases Nat.lt_succ_iff_lt_or_eq.mp inside with inside | rfl
    · exact prior fuel ((le_max_left _ _).trans sufficient) i inside
    · exact last fuel ((le_max_right _ _).trans sufficient)

end Expansion

end CudaMpqs
