import Mathlib.Data.List.GetD
import CudaMpqs.Common.Relation

/-! # Host relation batches

The structure-of-arrays mirror of `mpqs_soa.h`, with its factors in CSR form,
and the rows it holds. -/

namespace CudaMpqs

structure HostRelationBatch where
  sqrtQ : List UInt512
  signs : List (BitVec 8)
  val2Exps : List (BitVec 32)
  largePrimes : List (BitVec 128)
  charBits : List (BitVec 32)
  factorOffsets : List Nat
  factorIndices : List Nat
  factorCounts : List (BitVec 8)
  numRelations : Nat
  numFactors : Nat
deriving DecidableEq

namespace HostRelationBatch

def empty : HostRelationBatch :=
  ⟨[], [], [], [], [], [0], [], [], 0, 0⟩

def factorSlice (batch : HostRelationBatch) (fstart fend : Nat) : List Factor :=
  ((batch.factorIndices.drop fstart).take (fend - fstart)).zip
    ((batch.factorCounts.drop fstart).take (fend - fstart))

def relation (batch : HostRelationBatch) (idx : Nat) : Relation where
  sqrtQ := batch.sqrtQ.getD idx (UInt512.ofUInt32 0)
  sign := batch.signs.getD idx 0
  val2Exp := batch.val2Exps.getD idx 0
  largePrime := batch.largePrimes.getD idx 0
  charBits := batch.charBits.getD idx 0
  factors := batch.factorSlice (batch.factorOffsets.getD idx 0)
    (batch.factorOffsets.getD (idx + 1) 0)

def relations (batch : HostRelationBatch) : List Relation :=
  (List.range batch.numRelations).map batch.relation

def push (batch : HostRelationBatch) (row : Relation) : HostRelationBatch where
  sqrtQ := batch.sqrtQ ++ [row.sqrtQ]
  signs := batch.signs ++ [row.sign]
  val2Exps := batch.val2Exps ++ [row.val2Exp]
  largePrimes := batch.largePrimes ++ [row.largePrime]
  charBits := batch.charBits ++ [row.charBits]
  factorOffsets := batch.factorOffsets ++ [batch.numFactors + row.factors.length]
  factorIndices := batch.factorIndices ++ row.factors.map Prod.fst
  factorCounts := batch.factorCounts ++ row.factors.map Prod.snd
  numRelations := batch.numRelations + 1
  numFactors := batch.numFactors + row.factors.length

structure WellFormed (batch : HostRelationBatch) : Prop where
  sqrtQ : batch.sqrtQ.length = batch.numRelations
  signs : batch.signs.length = batch.numRelations
  val2Exps : batch.val2Exps.length = batch.numRelations
  largePrimes : batch.largePrimes.length = batch.numRelations
  charBits : batch.charBits.length = batch.numRelations
  factorOffsets : batch.factorOffsets.length = batch.numRelations + 1
  factorIndices : batch.factorIndices.length = batch.numFactors
  factorCounts : batch.factorCounts.length = batch.numFactors
  offsetsLe : ∀ offset ∈ batch.factorOffsets, offset ≤ batch.numFactors
  lastOffset : batch.factorOffsets.getD batch.numRelations 0 = batch.numFactors

theorem empty_wellFormed : empty.WellFormed where
  sqrtQ := rfl
  signs := rfl
  val2Exps := rfl
  largePrimes := rfl
  charBits := rfl
  factorOffsets := rfl
  factorIndices := rfl
  factorCounts := rfl
  offsetsLe := by simp [empty]
  lastOffset := rfl

variable {batch : HostRelationBatch}

section

variable (wellFormed : batch.WellFormed)

include wellFormed

theorem WellFormed.push (row : Relation) : (batch.push row).WellFormed where
  sqrtQ := by simp [HostRelationBatch.push, wellFormed.sqrtQ]
  signs := by simp [HostRelationBatch.push, wellFormed.signs]
  val2Exps := by simp [HostRelationBatch.push, wellFormed.val2Exps]
  largePrimes := by simp [HostRelationBatch.push, wellFormed.largePrimes]
  charBits := by simp [HostRelationBatch.push, wellFormed.charBits]
  factorOffsets := by simp [HostRelationBatch.push, wellFormed.factorOffsets]
  factorIndices := by simp [HostRelationBatch.push, wellFormed.factorIndices]
  factorCounts := by simp [HostRelationBatch.push, wellFormed.factorCounts]
  offsetsLe := by
    intro offset member
    rcases List.mem_append.mp member with member | member
    · exact (wellFormed.offsetsLe offset member).trans (Nat.le_add_right _ _)
    · exact (List.mem_singleton.mp member).le
  lastOffset := by
    simp only [HostRelationBatch.push]
    rw [List.getD_append_right _ _ _ _ wellFormed.factorOffsets.le,
      wellFormed.factorOffsets, Nat.sub_self]
    rfl

theorem WellFormed.factorSlice_push (row : Relation) {fstart fend : Nat}
    (inside : fend ≤ batch.numFactors) :
    (batch.push row).factorSlice fstart fend = batch.factorSlice fstart fend := by
  have slice {α : Type} (list added : List α) (length : list.length = batch.numFactors) :
      ((list ++ added).drop fstart).take (fend - fstart) =
        (list.drop fstart).take (fend - fstart) := by
    by_cases empty : fend ≤ fstart
    · rw [Nat.sub_eq_zero_of_le empty, List.take_zero, List.take_zero]
    · rw [List.drop_append_of_le_length (by omega), List.take_append_of_le_length]
      rw [List.length_drop]
      omega
  unfold factorSlice
  simp only [HostRelationBatch.push]
  rw [slice _ _ wellFormed.factorIndices, slice _ _ wellFormed.factorCounts]

theorem WellFormed.factorSlice_push_last (row : Relation) :
    (batch.push row).factorSlice batch.numFactors
      (batch.numFactors + row.factors.length) = row.factors := by
  unfold factorSlice
  simp only [HostRelationBatch.push]
  rw [← wellFormed.factorIndices, List.drop_left, wellFormed.factorIndices,
    ← wellFormed.factorCounts, List.drop_left, Nat.add_sub_cancel_left,
    List.take_of_length_le (by simp), List.take_of_length_le (by simp)]
  exact (List.zip_of_prod rfl rfl).symm

theorem WellFormed.offset_le (idx : Nat) : batch.factorOffsets.getD idx 0 ≤ batch.numFactors := by
  by_cases inside : idx < batch.factorOffsets.length
  · rw [List.getD_eq_getElem _ _ inside]
    exact wellFormed.offsetsLe _ (List.getElem_mem inside)
  · rw [List.getD_eq_default _ _ (not_lt.mp inside)]
    exact Nat.zero_le _

theorem WellFormed.relation_push_of_lt (row : Relation) {idx : Nat}
    (inside : idx < batch.numRelations) : (batch.push row).relation idx = batch.relation idx := by
  have kept {α : Type} (list : List α) (added default : α)
      (length : idx < list.length) :
      (list ++ [added]).getD idx default = list.getD idx default :=
    List.getD_append _ _ _ _ length
  have offset : ∀ place ≤ batch.numRelations, (batch.push row).factorOffsets.getD place 0 =
        batch.factorOffsets.getD place 0 := by
    intro place bound
    apply List.getD_append
    rw [wellFormed.factorOffsets]
    omega
  unfold relation
  rw [offset idx inside.le, offset (idx + 1) inside,
    wellFormed.factorSlice_push row (wellFormed.offset_le _)]
  simp only [HostRelationBatch.push]
  rw [kept _ _ _ (wellFormed.sqrtQ ▸ inside), kept _ _ _ (wellFormed.signs ▸ inside),
    kept _ _ _ (wellFormed.val2Exps ▸ inside),
    kept _ _ _ (wellFormed.largePrimes ▸ inside),
    kept _ _ _ (wellFormed.charBits ▸ inside)]

theorem WellFormed.relation_push_last (row : Relation) :
    (batch.push row).relation batch.numRelations = row := by
  have last {α : Type} (list : List α) (added default : α)
      (length : list.length = batch.numRelations) :
      (list ++ [added]).getD batch.numRelations default = added := by
    rw [List.getD_append_right _ _ _ _ length.le, length, Nat.sub_self]
    rfl
  have fstart : (batch.push row).factorOffsets.getD batch.numRelations 0 =
      batch.numFactors := by
    refine Eq.trans (List.getD_append _ _ _ _ ?_) wellFormed.lastOffset
    rw [wellFormed.factorOffsets]
    exact Nat.lt_succ_self _
  have fend : (batch.push row).factorOffsets.getD (batch.numRelations + 1) 0 =
      batch.numFactors + row.factors.length :=
    (wellFormed.push row).lastOffset
  unfold relation
  rw [fstart, fend, wellFormed.factorSlice_push_last]
  simp only [HostRelationBatch.push]
  rw [last _ _ _ wellFormed.sqrtQ, last _ _ _ wellFormed.signs,
    last _ _ _ wellFormed.val2Exps, last _ _ _ wellFormed.largePrimes,
    last _ _ _ wellFormed.charBits]

theorem WellFormed.relations_push (row : Relation) :
    (batch.push row).relations = batch.relations ++ [row] := by
  have prior : (List.range batch.numRelations).map (batch.push row).relation =
      batch.relations := by
    apply List.map_congr_left
    intro idx member
    exact wellFormed.relation_push_of_lt row (List.mem_range.mp member)
  rw [relations, show (batch.push row).numRelations = batch.numRelations + 1
    from rfl, List.range_succ, List.map_append, prior, List.map_singleton,
    wellFormed.relation_push_last]

end

/-! ## Offset tables -/

structure Csr (batch : HostRelationBatch) : Prop extends WellFormed batch where
  first : batch.factorOffsets.head? = some 0
  sorted : batch.factorOffsets.Pairwise (· ≤ ·)

theorem empty_csr : empty.Csr where
  toWellFormed := empty_wellFormed
  first := rfl
  sorted := List.pairwise_singleton _ _

theorem Csr.push (csr : batch.Csr) (row : Relation) : (batch.push row).Csr where
  toWellFormed := csr.toWellFormed.push row
  first := by
    rw [HostRelationBatch.push, List.head?_append, csr.first]
    rfl
  sorted := by
    refine List.pairwise_append.mpr ⟨csr.sorted, List.pairwise_singleton _ _, ?_⟩
    intro offset member last isLast
    rw [List.mem_singleton.mp isLast]
    exact (csr.offsetsLe offset member).trans (Nat.le_add_right _ _)

theorem Csr.offsets (csr : batch.Csr) {idx : Nat} (inside : idx < batch.numRelations) :
    ∃ start stop, batch.factorOffsets[idx]? = some start ∧
      batch.factorOffsets[idx + 1]? = some stop ∧ start ≤ stop ∧ stop ≤ batch.numFactors := by
  have length := csr.factorOffsets
  have here : idx < batch.factorOffsets.length := by omega
  have next : idx + 1 < batch.factorOffsets.length := by omega
  exact ⟨_, _, List.getElem?_eq_getElem here, List.getElem?_eq_getElem next,
    List.pairwise_iff_getElem.mp csr.sorted idx (idx + 1) here next (Nat.lt_succ_self idx),
    csr.offsetsLe _ (List.getElem_mem next)⟩

/-! ## Batches that can be read

Only the first `numRelations` entries are ever read, and the character bits may be
missing. -/

structure Readable (batch : HostRelationBatch) : Prop where
  sqrtQ : batch.numRelations ≤ batch.sqrtQ.length
  signs : batch.numRelations ≤ batch.signs.length
  val2Exps : batch.numRelations ≤ batch.val2Exps.length
  largePrimes : batch.numRelations ≤ batch.largePrimes.length
  offsets : ∀ idx < batch.numRelations, ∃ start stop,
    batch.factorOffsets[idx]? = some start ∧ batch.factorOffsets[idx + 1]? = some stop ∧
      start ≤ stop ∧ stop ≤ batch.factorIndices.length ∧ stop ≤ batch.factorCounts.length
  size : batch.factorIndices.length < 2 ^ 64

theorem Csr.readable (csr : batch.Csr) (size : batch.numFactors < 2 ^ 64) : batch.Readable where
  sqrtQ := csr.sqrtQ.ge
  signs := csr.signs.ge
  val2Exps := csr.val2Exps.ge
  largePrimes := csr.largePrimes.ge
  offsets := by
    intro idx inside
    rcases csr.offsets inside with ⟨start, stop, isStart, isStop, ordered, bounded⟩
    exact ⟨start, stop, isStart, isStop, ordered, csr.factorIndices ▸ bounded,
      csr.factorCounts ▸ bounded⟩
  size := csr.factorIndices ▸ size

theorem getElem?_eq_getD {α : Type} {items : List α} {idx : Nat} (inside : idx < items.length)
    (default : α) : items[idx]? = some (items.getD idx default) := by
  rw [List.getD_eq_getElem _ _ inside, List.getElem?_eq_getElem inside]

theorem Readable.row (readable : batch.Readable) {idx : Nat} (inside : idx < batch.numRelations) :
    ∃ start stop, batch.factorOffsets[idx]? = some start ∧
      batch.factorOffsets[idx + 1]? = some stop ∧ start ≤ stop ∧
      stop ≤ batch.factorIndices.length ∧ stop ≤ batch.factorCounts.length ∧
      (batch.relation idx).factors = batch.factorSlice start stop ∧
      (batch.relation idx).factors.length = stop - start := by
  rcases readable.offsets idx inside with ⟨start, stop, isStart, isStop, ordered, left, right⟩
  have factors : (batch.relation idx).factors = batch.factorSlice start stop := by
    simp [relation, List.getD_eq_getElem?_getD, isStart, isStop]
  refine ⟨start, stop, isStart, isStop, ordered, left, right, factors, ?_⟩
  rw [factors, factorSlice, List.length_zip, List.length_take, List.length_take,
    List.length_drop, List.length_drop]
  omega

end HostRelationBatch

end CudaMpqs
