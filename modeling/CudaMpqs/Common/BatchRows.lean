import CudaMpqs.Common.HostRelationBatch
import CudaMpqs.Foundation.Slice

/-! # Rows of a batch as arrays

Pushing the first rows of a batch one by one appends prefixes of its arrays, with the
offsets shifted by the factors that are there already. -/

namespace CudaMpqs.HostRelationBatch

/-! ## Batches to be sent -/

/-- A batch whose offsets start at 0, with character bits for all rows or for none;
its indices are words of 32 bits. -/
structure Sendable (batch : HostRelationBatch) : Prop extends Readable batch where
  first : batch.factorOffsets.getD 0 0 = 0
  charBits : batch.charBits = [] ∨ batch.numRelations ≤ batch.charBits.length
  indices : ∀ index ∈ batch.factorIndices, index < 2 ^ 32

def factorsBefore (batch : HostRelationBatch) (count : Nat) : Nat :=
  batch.factorOffsets.getD count 0

variable {batch : HostRelationBatch}

theorem Readable.lt_length_offsets (readable : batch.Readable) {count : Nat}
    (positive : 0 < count) (inside : count ≤ batch.numRelations) :
    count < batch.factorOffsets.length := by
  rcases readable.offsets (count - 1) (by omega) with ⟨_, _, _, isStop, _⟩
  rw [Nat.sub_add_cancel positive] at isStop
  exact (List.getElem?_eq_some_iff.mp isStop).1

theorem Readable.factorsBefore_succ (readable : batch.Readable) {idx : Nat}
    (inside : idx < batch.numRelations) :
    batch.factorsBefore idx ≤ batch.factorsBefore (idx + 1) ∧
      batch.factorsBefore (idx + 1) ≤ batch.factorIndices.length ∧
      batch.factorsBefore (idx + 1) ≤ batch.factorCounts.length ∧
      (batch.relation idx).factors =
        batch.factorSlice (batch.factorsBefore idx) (batch.factorsBefore (idx + 1)) := by
  rcases readable.row inside with
    ⟨start, stop, isStart, isStop, ordered, left, right, factors, _⟩
  simp [factorsBefore, List.getD_eq_getElem?_getD, isStart, isStop, ordered, left, right, factors]

/-! ## Pushing many rows -/

def pushAll (batch : HostRelationBatch) (rows : List Relation) : HostRelationBatch :=
  rows.foldl push batch

@[simp] theorem pushAll_nil (batch : HostRelationBatch) : batch.pushAll [] = batch := rfl

theorem pushAll_append (batch : HostRelationBatch) (left right : List Relation) :
    batch.pushAll (left ++ right) = (batch.pushAll left).pushAll right :=
  List.foldl_append

theorem Csr.pushAll (csr : batch.Csr) (rows : List Relation) : (batch.pushAll rows).Csr := by
  induction rows generalizing batch with
  | nil => exact csr
  | cons row rows induction => exact induction (csr.push row)

theorem Csr.relations_pushAll (csr : batch.Csr) (rows : List Relation) :
    (batch.pushAll rows).relations = batch.relations ++ rows := by
  induction rows generalizing batch with
  | nil => simp
  | cons row rows induction =>
    rw [HostRelationBatch.pushAll, List.foldl_cons]
    exact (induction (csr.push row)).trans (by simp [csr.relations_push])

theorem Csr.numRelations_pushAll (rows : List Relation) :
    (batch.pushAll rows).numRelations = batch.numRelations + rows.length := by
  induction rows generalizing batch with
  | nil => rfl
  | cons row rows induction =>
    rw [HostRelationBatch.pushAll, List.foldl_cons]
    exact induction.trans (by simp [HostRelationBatch.push]; omega)

def appended (target batch : HostRelationBatch) (count : Nat) : HostRelationBatch where
  sqrtQ := target.sqrtQ ++ batch.sqrtQ.take count
  signs := target.signs ++ batch.signs.take count
  val2Exps := target.val2Exps ++ batch.val2Exps.take count
  largePrimes := target.largePrimes ++ batch.largePrimes.take count
  charBits := target.charBits ++ (List.range count).map fun idx => batch.charBits.getD idx 0
  factorOffsets := target.factorOffsets ++
    (List.range' 1 count).map fun idx => batch.factorsBefore idx + target.numFactors
  factorIndices := target.factorIndices ++ batch.factorIndices.take (batch.factorsBefore count)
  factorCounts := target.factorCounts ++ batch.factorCounts.take (batch.factorsBefore count)
  numRelations := target.numRelations + count
  numFactors := target.numFactors + batch.factorsBefore count

theorem take_succ_getD {α : Type} {items : List α} {count : Nat} (inside : count < items.length)
    (default : α) : items.take (count + 1) = items.take count ++ [items.getD count default] := by
  rw [List.take_add_one, getElem?_eq_getD inside default]
  rfl

private theorem take_append_slice {α : Type} (items : List α) {start stop : Nat}
    (ordered : start ≤ stop) :
    items.take start ++ (items.drop start).take (stop - start) = items.take stop := by
  rw [← List.take_add, Nat.add_sub_cancel' ordered]

theorem Readable.appended_succ (readable : batch.Readable) (target : HostRelationBatch)
    {count : Nat} (inside : count < batch.numRelations) :
    (target.appended batch count).push (batch.relation count) =
      target.appended batch (count + 1) := by
  rcases readable.factorsBefore_succ inside with ⟨ordered, left, right, factors⟩
  have length : (batch.relation count).factors.length =
      batch.factorsBefore (count + 1) - batch.factorsBefore count := by
    rw [factors, factorSlice, List.length_zip, List.length_take, List.length_take,
      List.length_drop, List.length_drop]
    omega
  have indices : (batch.relation count).factors.map Prod.fst =
      (batch.factorIndices.drop (batch.factorsBefore count)).take
        (batch.factorsBefore (count + 1) - batch.factorsBefore count) := by
    rw [factors, factorSlice, List.map_fst_zip]
    simp only [List.length_take, List.length_drop]
    omega
  have counts : (batch.relation count).factors.map Prod.snd =
      (batch.factorCounts.drop (batch.factorsBefore count)).take
        (batch.factorsBefore (count + 1) - batch.factorsBefore count) := by
    rw [factors, factorSlice, List.map_snd_zip]
    simp only [List.length_take, List.length_drop]
    omega
  have relations : target.numRelations + count + 1 = target.numRelations + (count + 1) :=
    Nat.add_assoc _ _ _
  have total : target.numFactors + batch.factorsBefore count +
      (batch.factorsBefore (count + 1) - batch.factorsBefore count) =
        target.numFactors + batch.factorsBefore (count + 1) := by omega
  simp only [push, appended, indices, counts, length, total, List.append_assoc,
    take_append_slice _ ordered, List.range_succ, List.range'_concat, List.map_append]
  rw [take_succ_getD (inside.trans_le readable.sqrtQ) (UInt512.ofUInt32 0),
    take_succ_getD (inside.trans_le readable.signs) 0,
    take_succ_getD (inside.trans_le readable.val2Exps) 0,
    take_succ_getD (inside.trans_le readable.largePrimes) 0]
  simp only [relation, relations, Nat.add_comm 1 count, Nat.one_mul, List.map_cons, List.map_nil,
    Nat.add_comm (batch.factorsBefore _)]

theorem Sendable.pushAll_rows (sendable : batch.Sendable) (target : HostRelationBatch)
    {count : Nat} (inside : count ≤ batch.numRelations) :
    target.pushAll (batch.relations.take count) = target.appended batch count := by
  induction count with
  | zero =>
    have none : batch.factorsBefore 0 = 0 := sendable.first
    simp [appended, none]
  | succ count induction =>
    have rows : batch.relations.take (count + 1) =
        batch.relations.take count ++ [batch.relation count] := by
      rw [List.take_add_one, relations, List.getElem?_map,
        List.getElem?_range (by omega : count < batch.numRelations)]
      rfl
    rw [rows, pushAll_append, induction (by omega),
      ← sendable.appended_succ target (by omega : count < batch.numRelations)]
    rfl

/-! ## Arrays with more behind them -/

structure Begins (batch whole : HostRelationBatch) : Prop where
  sqrtQ : batch.sqrtQ <+: whole.sqrtQ
  signs : batch.signs <+: whole.signs
  val2Exps : batch.val2Exps <+: whole.val2Exps
  largePrimes : batch.largePrimes <+: whole.largePrimes
  charBits : batch.charBits <+: whole.charBits
  factorOffsets : batch.factorOffsets <+: whole.factorOffsets
  factorIndices : batch.factorIndices <+: whole.factorIndices
  factorCounts : batch.factorCounts <+: whole.factorCounts
  numRelations : whole.numRelations = batch.numRelations

private theorem getD_of_leading {α : Type} {items whole : List α} (isPrefix : items <+: whole)
    {idx : Nat}
    (inside : idx < items.length) (default : α) :
    whole.getD idx default = items.getD idx default := by
  rcases isPrefix with ⟨rest, rfl⟩
  exact List.getD_append _ _ _ _ inside

theorem Begins.relations {whole : HostRelationBatch} (begins : batch.Begins whole)
    (wellFormed : batch.WellFormed) : whole.relations = batch.relations := by
  rw [HostRelationBatch.relations, HostRelationBatch.relations, begins.numRelations]
  apply List.map_congr_left
  intro idx member
  have inside := List.mem_range.mp member
  have length := wellFormed.factorOffsets
  have slices {start : Nat} : whole.factorSlice start (batch.factorOffsets.getD (idx + 1) 0) =
      batch.factorSlice start (batch.factorOffsets.getD (idx + 1) 0) := by
    have bound := wellFormed.offset_le (idx + 1)
    rcases begins.factorIndices with ⟨indices, sameIndices⟩
    rcases begins.factorCounts with ⟨counts, sameCounts⟩
    unfold factorSlice
    rw [← sameIndices, ← sameCounts]
    have kept := @Slice.slice_append_of_le _ batch.factorIndices indices start _
      (bound.trans wellFormed.factorIndices.ge)
    have keptCounts := @Slice.slice_append_of_le _ batch.factorCounts counts start _
      (bound.trans wellFormed.factorCounts.ge)
    unfold Slice.slice at kept keptCounts
    rw [kept, keptCounts]
  unfold relation
  rw [getD_of_leading begins.sqrtQ (wellFormed.sqrtQ ▸ inside),
    getD_of_leading begins.signs (wellFormed.signs ▸ inside),
    getD_of_leading begins.val2Exps (wellFormed.val2Exps ▸ inside),
    getD_of_leading begins.largePrimes (wellFormed.largePrimes ▸ inside),
    getD_of_leading begins.charBits (wellFormed.charBits ▸ inside),
    getD_of_leading begins.factorOffsets (by omega : idx < batch.factorOffsets.length),
    getD_of_leading begins.factorOffsets (by omega : idx + 1 < batch.factorOffsets.length), slices]

def firstRows (batch : HostRelationBatch) (count : Nat) : HostRelationBatch :=
  empty.pushAll (batch.relations.take count)

theorem firstRows_csr (batch : HostRelationBatch) (count : Nat) : (batch.firstRows count).Csr :=
  empty_csr.pushAll _

theorem relations_firstRows (batch : HostRelationBatch) (count : Nat) :
    (batch.firstRows count).relations = batch.relations.take count := by
  rw [firstRows, empty_csr.relations_pushAll]
  rfl

end CudaMpqs.HostRelationBatch
