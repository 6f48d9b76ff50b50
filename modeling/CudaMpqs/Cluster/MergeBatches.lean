import CudaMpqs.Cluster.IncrementalBatch

/-! # Merging relation batches

`mergeRelationBatches` copies the first rows of each batch into arrays that were sized
before, shifting the offsets by the factors in front of them. The counts size arrays
that exist, hence no sum of 64 bits wraps. -/

namespace CudaMpqs.Serialization

open ByteStream RelationIo HostRelationBatch

/-! ## The merge -/

def store {α : Type} (vec : List α) (cursor : Nat) (items : List α) : List α :=
  vec.take cursor ++ (items ++ vec.drop (cursor + items.length))

def mergedFactors (b : HostRelationBatch) (n : Nat) : Nat :=
  if n = 0 then 0 else if n < b.factorOffsets.length then b.factorOffsets.getD n 0 else 0

structure MergeState where
  out : HostRelationBatch
  relCursor : Nat
  facCursor : Nat

def mergeStep (state : MergeState) (part : HostRelationBatch × Nat) : MergeState :=
  let (b, n) := part
  if n = 0 then state
  else
    let ⟨out, relCursor, facCursor⟩ := state
    let nFacs := mergedFactors b n
    { out := { out with
        sqrtQ := store out.sqrtQ relCursor (b.sqrtQ.take n)
        signs := store out.signs relCursor (b.signs.take n)
        val2Exps := store out.val2Exps relCursor (b.val2Exps.take n)
        largePrimes := store out.largePrimes relCursor (b.largePrimes.take n)
        charBits :=
          if n ≤ b.charBits.length then store out.charBits relCursor (b.charBits.take n)
          else out.charBits
        factorIndices :=
          if 0 < nFacs then store out.factorIndices facCursor (b.factorIndices.take nFacs)
          else out.factorIndices
        factorCounts :=
          if 0 < nFacs then store out.factorCounts facCursor (b.factorCounts.take nFacs)
          else out.factorCounts
        factorOffsets :=
          if relCursor = 0 then store out.factorOffsets 0 (b.factorOffsets.take (n + 1))
          else store out.factorOffsets (relCursor + 1)
            ((List.range' 1 n).map fun j => b.factorOffsets.getD j 0 + facCursor) }
      relCursor := relCursor + n
      facCursor := facCursor + nFacs }

def mergeRelationBatches (memory : Nat) (parts : List (HostRelationBatch × Nat)) :
    Option HostRelationBatch :=
  let totalRels := (parts.map fun part => part.2).sum
  let totalFactors := (parts.map fun part => mergedFactors part.1 part.2).sum
  if totalRels = 0 then some cleared
  else do
    let out ← resizeBatch memory cleared totalRels totalFactors
    let state := parts.foldl mergeStep ⟨out, 0, 0⟩
    return { state.out with
      factorOffsets := state.out.factorOffsets.set totalRels totalFactors
      numRelations := totalRels
      numFactors := totalFactors }

/-! ## Arrays that are not filled yet -/

def padded (batch : HostRelationBatch) (rels facs : Nat) : HostRelationBatch where
  sqrtQ := batch.sqrtQ ++ List.replicate rels (UInt512.ofUInt32 0)
  signs := batch.signs ++ List.replicate rels 0
  val2Exps := batch.val2Exps ++ List.replicate rels 0
  largePrimes := batch.largePrimes ++ List.replicate rels 0
  charBits := batch.charBits ++ List.replicate rels 0
  factorOffsets := batch.factorOffsets ++ List.replicate rels 0
  factorIndices := batch.factorIndices ++ List.replicate facs 0
  factorCounts := batch.factorCounts ++ List.replicate facs 0
  numRelations := batch.numRelations + rels
  numFactors := batch.numFactors + facs

theorem blankBatch_eq_padded (nRels nFactors : Nat) :
    blankBatch nRels nFactors = padded empty nRels nFactors := by
  simp only [blankBatch, padded, empty, List.nil_append, Nat.zero_add, List.replicate_succ,
    List.singleton_append]
  rfl

theorem padded_zero (batch : HostRelationBatch) : padded batch 0 0 = batch := by
  simp [padded]

theorem store_padded {α : Type} (front items : List α) {cursor count : Nat} (rest : Nat)
    (zero : α) (atEnd : front.length = cursor) (size : items.length = count) :
    store (front ++ List.replicate (count + rest) zero) cursor items =
      front ++ items ++ List.replicate rest zero := by
  have after : cursor + count - front.length = count := by omega
  rw [store, List.take_left' atEnd, size, List.drop_append, after,
    List.drop_of_length_le (by omega),
    List.drop_replicate, List.append_assoc, List.nil_append, Nat.add_sub_cancel_left]

variable {batch target : HostRelationBatch} {n rels facs : Nat}

theorem mergedFactors_eq (sendable : batch.Sendable) (inside : n ≤ batch.numRelations) :
    mergedFactors batch n = batch.factorsBefore n := by
  rw [mergedFactors]
  split
  next none => rw [none, factorsBefore, sendable.first]
  next some =>
      rw [if_pos (sendable.lt_length_offsets (by omega) inside)]
      rfl

theorem charBits_stored (csr : target.Csr) (sendable : batch.Sendable)
    (inside : n ≤ batch.numRelations) :
    (if n ≤ batch.charBits.length then
        store (target.charBits ++ List.replicate (n + rels) 0) target.numRelations
          (batch.charBits.take n)
      else target.charBits ++ List.replicate (n + rels) 0) =
      target.charBits ++ ((List.range n).map fun idx => batch.charBits.getD idx 0) ++
        List.replicate rels 0 := by
  rw [charBits_sent sendable inside]
  split
  next long =>
      exact store_padded _ _ rels 0 csr.charBits (List.length_take_of_le long)
  next => rw [List.replicate_add, List.append_assoc]

theorem offsets_stored (csr : target.Csr) (sendable : batch.Sendable) (positive : 0 < n)
    (inside : n ≤ batch.numRelations) :
    (if target.numRelations = 0 then
        store (target.factorOffsets ++ List.replicate (n + rels) 0) 0
          (batch.factorOffsets.take (n + 1))
      else store (target.factorOffsets ++ List.replicate (n + rels) 0) (target.numRelations + 1)
        ((List.range' 1 n).map fun j => batch.factorOffsets.getD j 0 + target.numFactors)) =
      target.factorOffsets ++
        ((List.range' 1 n).map fun idx => batch.factorsBefore idx + target.numFactors) ++
          List.replicate rels 0 := by
  split
  next none =>
      -- the offsets of the first batch come with their own 0
      have single : target.factorOffsets = [0] := by
        have first := csr.first
        have length := csr.factorOffsets
        rw [none] at length
        cases offsets : target.factorOffsets with
        | nil => simp [offsets] at length
        | cons offset rest =>
          simp only [offsets, List.length_cons, List.head?_cons, Option.some.injEq] at first length
          rw [first, List.eq_nil_of_length_eq_zero (by omega : rest.length = 0)]
      have noFactors : target.numFactors = 0 := by
        rw [← csr.lastOffset, none, single]
        rfl
      have long := sendable.lt_length_offsets positive inside
      have wide : [0] ++ List.replicate (n + rels) 0 =
          ([] : List Nat) ++ List.replicate ((n + 1) + rels) 0 := by
        rw [List.nil_append, Nat.add_right_comm, List.replicate_succ]
        rfl
      have stored := store_padded [] _ rels (0 : Nat) List.length_nil
        (List.length_take_of_le (show n + 1 ≤ batch.factorOffsets.length from long))
      rw [single, noFactors, offsets_sent sendable positive inside, wide, stored, List.nil_append]
  next => exact store_padded _ _ rels 0 csr.factorOffsets (by simp)

private theorem factors_stored {α : Type} {front items : List α} (zero : α)
    (atEnd : front.length = target.numFactors) {count : Nat} (enough : count ≤ items.length) :
    (if 0 < count then
        store (front ++ List.replicate (count + facs) zero) target.numFactors (items.take count)
      else front ++ List.replicate (count + facs) zero) =
      front ++ items.take count ++ List.replicate facs zero := by
  split
  next => exact store_padded _ _ facs zero atEnd (List.length_take_of_le enough)
  next none => simp [Nat.eq_zero_of_not_pos none]

theorem mergeStep_padded (csr : target.Csr) (sendable : batch.Sendable)
    (inside : n ≤ batch.numRelations) :
    mergeStep ⟨padded target (n + rels) (batch.factorsBefore n + facs), target.numRelations,
        target.numFactors⟩ (batch, n) =
      ⟨padded (target.appended batch n) rels facs, (target.appended batch n).numRelations,
        (target.appended batch n).numFactors⟩ := by
  rcases Nat.eq_zero_or_pos n with rfl | positive
  · have same : target.appended batch 0 = target := (sendable.pushAll_rows target inside).symm
    have none : batch.factorsBefore 0 = 0 := sendable.first
    simp [mergeStep, same, none]
  · rcases sendable.factorsBefore_succ (show n - 1 < batch.numRelations by omega) with
      ⟨_, indices, counts, _⟩
    rw [Nat.sub_add_cancel positive] at indices counts
    have sqrtQ := store_padded target.sqrtQ _ rels (UInt512.ofUInt32 0) csr.sqrtQ
      (List.length_take_of_le (inside.trans sendable.sqrtQ))
    have signs := store_padded target.signs _ rels 0 csr.signs
      (List.length_take_of_le (inside.trans sendable.signs))
    have val2Exps := store_padded target.val2Exps _ rels 0 csr.val2Exps
      (List.length_take_of_le (inside.trans sendable.val2Exps))
    have largePrimes := store_padded target.largePrimes _ rels 0 csr.largePrimes
      (List.length_take_of_le (inside.trans sendable.largePrimes))
    have factorIndices := @factors_stored target facs _ _ _ (0 : Nat) csr.factorIndices _ indices
    have factorCounts := @factors_stored target facs _ _ _ (0 : BitVec 8) csr.factorCounts _ counts
    simp only [mergeStep, padded, appended, positive.ne', if_false,
      mergedFactors_eq sendable inside,
      sqrtQ, signs, val2Exps, largePrimes, factorIndices, factorCounts,
      charBits_stored csr sendable inside, offsets_stored csr sendable positive inside,
      Nat.add_assoc]

/-! ## All batches -/

structure Mergeable (part : HostRelationBatch × Nat) : Prop where
  sendable : part.1.Sendable
  inside : part.2 ≤ part.1.numRelations

def mergedRows (parts : List (HostRelationBatch × Nat)) : List Relation :=
  parts.flatMap fun part => part.1.relations.take part.2

def totalRows (parts : List (HostRelationBatch × Nat)) : Nat := (parts.map Prod.snd).sum

def totalFactors (parts : List (HostRelationBatch × Nat)) : Nat :=
  (parts.map fun part => part.1.factorsBefore part.2).sum

variable {parts : List (HostRelationBatch × Nat)}

theorem pushAll_mergedRows_cons {part : HostRelationBatch × Nat} (mergeable : Mergeable part)
    (target : HostRelationBatch) :
    target.pushAll (mergedRows (part :: parts)) =
      (target.appended part.1 part.2).pushAll (mergedRows parts) := by
  rw [mergedRows, List.flatMap_cons, pushAll_append,
    mergeable.sendable.pushAll_rows target mergeable.inside]
  rfl

section

variable (mergeable : ∀ part ∈ parts, Mergeable part)

include mergeable

theorem foldl_mergeStep (csr : target.Csr) :
    parts.foldl mergeStep ⟨padded target (totalRows parts) (totalFactors parts),
        target.numRelations, target.numFactors⟩ =
      ⟨target.pushAll (mergedRows parts), (target.pushAll (mergedRows parts)).numRelations,
        (target.pushAll (mergedRows parts)).numFactors⟩ := by
  induction parts generalizing target with
  | nil => simp [totalRows, totalFactors, mergedRows, padded_zero]
  | cons part parts induction =>
    rcases mergeable part List.mem_cons_self with ⟨sendable, inside⟩
    have rows := sendable.pushAll_rows target inside
    have grown : (target.appended part.1 part.2).Csr := rows ▸ csr.pushAll _
    have rest := induction (fun other member => mergeable other (List.mem_cons_of_mem _ member))
      grown
    have step := @mergeStep_padded _ _ _ (totalRows parts) (totalFactors parts) csr sendable inside
    rw [List.foldl_cons, pushAll_mergedRows_cons (mergeable part List.mem_cons_self), ← rest,
      ← step]
    simp [totalRows, totalFactors]

theorem factorTotals :
    (parts.map fun part => mergedFactors part.1 part.2).sum = totalFactors parts := by
  have same : ∀ part ∈ parts, mergedFactors part.1 part.2 = part.1.factorsBefore part.2 :=
    fun part member => mergedFactors_eq (mergeable part member).sendable
      (mergeable part member).inside
  rw [List.map_congr_left same, totalFactors]

theorem length_mergedRows : (mergedRows parts).length = totalRows parts := by
  have lengths : ∀ part ∈ parts, (part.1.relations.take part.2).length = part.2 := by
    intro part member
    have inside := (mergeable part member).inside
    simp only [List.length_take, relations, List.length_map, List.length_range]
    omega
  rw [mergedRows, List.length_flatMap, List.map_congr_left lengths, totalRows]

theorem pushAll_mergedRows (target : HostRelationBatch) :
    (target.pushAll (mergedRows parts)).numFactors = target.numFactors + totalFactors parts ∧
      ((∀ index ∈ target.factorIndices, index < 2 ^ 32) →
        ∀ index ∈ (target.pushAll (mergedRows parts)).factorIndices, index < 2 ^ 32) := by
  induction parts generalizing target with
  | nil => simp [totalFactors, mergedRows]
  | cons part parts induction =>
    have sendable := (mergeable part List.mem_cons_self).sendable
    rcases induction (fun other member => mergeable other (List.mem_cons_of_mem _ member))
      (target.appended part.1 part.2) with ⟨factors, indices⟩
    rw [pushAll_mergedRows_cons (mergeable part List.mem_cons_self)]
    constructor
    · rw [factors]
      simp [appended, totalFactors, Nat.add_assoc]
    · intro before
      apply indices
      intro index member
      rcases List.mem_append.mp member with old | new
      · exact before index old
      · exact sendable.indices index (List.mem_of_mem_take new)

end

def mergedBatch (parts : List (HostRelationBatch × Nat)) : HostRelationBatch :=
  empty.pushAll (mergedRows parts)

theorem mergedBatch_csr (parts : List (HostRelationBatch × Nat)) : (mergedBatch parts).Csr :=
  empty_csr.pushAll _

theorem mergedBatch_relations (parts : List (HostRelationBatch × Nat)) :
    (mergedBatch parts).relations = mergedRows parts := by
  rw [mergedBatch, empty_csr.relations_pushAll]
  rfl

theorem mergedBatch_counts (mergeable : ∀ part ∈ parts, Mergeable part) :
    (mergedBatch parts).numRelations = totalRows parts ∧
      (mergedBatch parts).numFactors = totalFactors parts := by
  rw [mergedBatch, Csr.numRelations_pushAll, length_mergedRows mergeable,
    (pushAll_mergedRows mergeable empty).1]
  exact ⟨Nat.zero_add _, Nat.zero_add _⟩

/-- The merge is the batch of all the rows; without rows it is a batch without
arrays. -/
theorem mergeRelationBatches_eq (mergeable : ∀ part ∈ parts, Mergeable part) {memory : Nat}
    (room : Allocatable memory (totalRows parts) (totalFactors parts)) :
    mergeRelationBatches memory parts =
      some (if totalRows parts = 0 then cleared else mergedBatch parts) := by
  have csr := mergedBatch_csr parts
  rcases mergedBatch_counts mergeable with ⟨relations, factors⟩
  have total : (parts.map fun part => part.2).sum = totalRows parts := rfl
  rw [mergeRelationBatches]
  simp only [factorTotals mergeable, total]
  split
  next => rfl
  next =>
      have sentinel := csr.lastOffset
      have long := csr.factorOffsets
      rw [relations, factors] at sentinel
      rw [relations] at long
      have kept : (mergedBatch parts).factorOffsets.set (totalRows parts) (totalFactors parts) =
          (mergedBatch parts).factorOffsets := by
        rw [← sentinel, List.getD_eq_getElem _ _ (by omega), List.set_getElem_self]
      have filled := foldl_mergeStep mergeable empty_csr
      have start : empty.numRelations = 0 ∧ empty.numFactors = 0 := ⟨rfl, rfl⟩
      rw [start.1, start.2, ← mergedBatch] at filled
      rw [resizeBatch_cleared, if_pos ⟨room.relations, room.offsets, room.factors⟩,
        blankBatch_eq_padded]
      simp only [Option.bind_eq_bind, Option.bind_some, filled, kept]
      simp only [← relations, ← factors, Option.pure_def]

/-! ## Encoding the merge -/

theorem numFactors_eq_zero (csr : batch.Csr) (none : batch.numRelations = 0) :
    batch.numFactors = 0 := by
  have first := csr.first
  have last := csr.lastOffset
  rw [List.head?_eq_getElem?] at first
  rw [none, List.getD_eq_getElem?_getD, first] at last
  exact last.symm

theorem serializeRelationBatch_self (csr : batch.Csr) :
    serializeRelationBatch batch batch.numRelations = wire batch := by
  rcases Nat.eq_zero_or_pos batch.numRelations with none | some
  · simp [serializeRelationBatch, wire, none, numFactors_eq_zero csr none]
  · have long : batch.numRelations < batch.factorOffsets.length := by
      rw [csr.factorOffsets]
      exact Nat.lt_succ_self _
    simp only [serializeRelationBatch, wire, arraysOf, some, long, and_self, if_true,
      csr.lastOffset,
      List.take_of_length_le csr.sqrtQ.le, List.take_of_length_le csr.signs.le,
      List.take_of_length_le csr.val2Exps.le, List.take_of_length_le csr.largePrimes.le,
      List.take_of_length_le csr.charBits.le, csr.charBits.ge,
      List.take_of_length_le csr.factorOffsets.le, List.take_of_length_le csr.factorIndices.le,
      List.take_of_length_le csr.factorCounts.le]
    split
    next => rfl
    next none =>
        have noFactors := Nat.eq_zero_of_not_pos none
        simp [Codec.encodeAll, List.eq_nil_of_length_eq_zero (csr.factorIndices.trans noFactors),
          List.eq_nil_of_length_eq_zero (csr.factorCounts.trans noFactors)]

theorem mergedBatch_narrow (mergeable : ∀ part ∈ parts, Mergeable part)
    (short : (wire (mergedBatch parts)).length < 2 ^ 32) : Narrow (mergedBatch parts) := by
  have none := numFactors_eq_zero (mergedBatch_csr parts)
  rw [length_wire (mergedBatch_csr parts)] at short
  constructor
  · split at short <;> omega
  · split at short
    · omega
    · rw [none (by omega)]
      decide
  · exact (pushAll_mergedRows mergeable empty).2 (by simp [empty])

theorem serialize_merge (mergeable : ∀ part ∈ parts, Mergeable part) {merged : HostRelationBatch}
    (isMerged : merged = if totalRows parts = 0 then cleared else mergedBatch parts) :
    serializeRelationBatch merged merged.numRelations = wire (mergedBatch parts) := by
  split at isMerged
  next none =>
      have noRows : mergedRows parts = [] :=
        List.eq_nil_of_length_eq_zero ((length_mergedRows mergeable).trans none)
      rw [isMerged, mergedBatch, noRows]
      rfl
  next =>
      rw [isMerged]
      exact serializeRelationBatch_self (mergedBatch_csr parts)

private theorem decode_parts {memory : Nat}
    (encodable : ∀ part ∈ parts, Encodable memory part.1 part.2)
    (out : HostRelationBatch) :
    ∃ decodes, List.Forall₂ (fun part decode => decodeRelationBatch memory
        (serializeRelationBatch part.1 part.2) out = some (true, decode)) parts decodes ∧
      decodes.flatMap HostRelationBatch.relations = mergedRows parts := by
  induction parts with
  | nil => exact ⟨[], .nil, rfl⟩
  | cons part parts induction =>
    rcases (encodable part List.mem_cons_self).decode out with ⟨decode, isDecode, rows, _⟩
    rcases induction (fun other member => encodable other (List.mem_cons_of_mem _ member)) with
      ⟨decodes, areDecodes, all⟩
    exact ⟨decode :: decodes, .cons isDecode areDecodes, by
      rw [List.flatMap_cons, rows, all, mergedRows, mergedRows, List.flatMap_cons]⟩

/-- What an incremental batch decodes to, what a merge is, and that a merge decodes to
what its parts decode to. Every message must be shorter than `2 ^ 32` bytes, and what is
allocated must be there. -/
theorem incrementalBatch_merge (memory : Nat) :
    (∀ (fullBatch partialBatch : HostRelationBatch) (fullCount partialCount : Nat),
      Encodable memory fullBatch fullCount → Encodable memory partialBatch partialCount →
        ∀ fullOut partialOut, ∃ decodedFull decodedPartial, deserializeIncrementalBatch memory
              (serializeIncrementalBatch fullBatch fullCount partialBatch partialCount)
              fullOut partialOut = some (true, decodedFull, decodedPartial) ∧
            decodedFull.relations = fullBatch.relations.take fullCount ∧
            decodedPartial.relations = partialBatch.relations.take partialCount) ∧
      ∀ parts : List (HostRelationBatch × Nat), (∀ part ∈ parts, Mergeable part) →
        Allocatable memory (totalRows parts) (totalFactors parts) →
          ∃ merged, mergeRelationBatches memory parts = some merged ∧
            (merged = cleared ∨ merged.Csr) ∧ merged.relations = mergedRows parts ∧
            ((serializeRelationBatch merged merged.numRelations).length < 2 ^ 32 →
              (∀ part ∈ parts, Encodable memory part.1 part.2) → ∀ out, ∃ decodes decoded,
                List.Forall₂ (fun part decode => decodeRelationBatch memory
                    (serializeRelationBatch part.1 part.2) out = some (true, decode))
                  parts decodes ∧
                decodeRelationBatch memory (serializeRelationBatch merged merged.numRelations) out =
                  some (true, decoded) ∧
                decoded.relations = decodes.flatMap HostRelationBatch.relations) := by
  constructor
  · intro fullBatch partialBatch fullCount partialCount full part fullOut partialOut
    exact deserializeIncrementalBatch_serialize full part fullOut partialOut
  · intro parts mergeable room
    refine ⟨_, mergeRelationBatches_eq mergeable room, ?_, ?_, ?_⟩
    · split
      next => exact Or.inl rfl
      next => exact Or.inr (mergedBatch_csr parts)
    · split
      next none =>
          have noRows : mergedRows parts = [] :=
            List.eq_nil_of_length_eq_zero ((length_mergedRows mergeable).trans none)
          rw [noRows]
          rfl
      next => exact mergedBatch_relations parts
    · intro short encodable out
      rw [serialize_merge mergeable rfl] at short ⊢
      rcases mergedBatch_counts mergeable with ⟨relations, factors⟩
      rcases decode_parts encodable out with ⟨decodes, areDecodes, all⟩
      rcases decodeRelationBatch_wire (mergedBatch_csr parts) (mergedBatch_narrow mergeable short)
        (by rw [relations, factors]; exact room) out with ⟨decoded, isDecoded, rows, _⟩
      exact ⟨decodes, decoded, areDecodes, isDecoded, by rw [rows, mergedBatch_relations, all]⟩

/-- Two rows, with and without factors, in a batch without character bits. -/
def sampleBatch : HostRelationBatch where
  sqrtQ := [UInt512.ofUInt32 3, UInt512.ofUInt32 5]
  signs := [1, 0xFF]
  val2Exps := [2, 0]
  largePrimes := [1, 11]
  charBits := []
  factorOffsets := [0, 2, 2]
  factorIndices := [4, 9]
  factorCounts := [1, 3]
  numRelations := 2
  numFactors := 2

private theorem sampleBatch_encodable {count : Nat} (inside : count ≤ 2) :
    Encodable (2 ^ 40) sampleBatch count where
  sendable := {
    sqrtQ := by decide
    signs := by decide
    val2Exps := by decide
    largePrimes := by decide
    offsets := by
      intro idx below
      have cases' : idx = 0 ∨ idx = 1 := by
        have two : sampleBatch.numRelations = 2 := rfl
        omega
      rcases cases' with rfl | rfl
      · exact ⟨0, 2, rfl, rfl, by decide, by decide, by decide⟩
      · exact ⟨2, 2, rfl, rfl, by decide, by decide, by decide⟩
    size := by decide
    first := rfl
    charBits := Or.inl rfl
    indices := by decide }
  inside := inside
  short := by
    rcases (by omega : count = 0 ∨ count = 1 ∨ count = 2) with rfl | rfl | rfl <;> decide +kernel
  room := by
    rcases (by omega : count = 0 ∨ count = 1 ∨ count = 2) with rfl | rfl | rfl <;>
      exact ⟨by decide, by decide, by decide⟩

theorem incrementalBatch_merge_sample : (∃ decodedFull decodedPartial,
      deserializeIncrementalBatch (2 ^ 40) (serializeIncrementalBatch sampleBatch 1 sampleBatch 2)
          cleared cleared = some (true, decodedFull, decodedPartial) ∧
        decodedFull.relations = sampleBatch.relations.take 1 ∧
        decodedPartial.relations = sampleBatch.relations.take 2) ∧
      ∃ merged, mergeRelationBatches (2 ^ 40)
        [(sampleBatch, 1), (sampleBatch, 0), (sampleBatch, 2)] =
          some merged ∧
        merged.relations = mergedRows [(sampleBatch, 1), (sampleBatch, 0), (sampleBatch, 2)] := by
  have mergeable : ∀ part ∈ [(sampleBatch, 1), (sampleBatch, 0), (sampleBatch, 2)],
      Mergeable part := by
    simp only [List.forall_mem_cons]
    have sendable := (sampleBatch_encodable (Nat.zero_le 2)).sendable
    exact ⟨⟨sendable, by decide⟩, ⟨sendable, by decide⟩, ⟨sendable, by decide⟩, by simp⟩
  constructor
  · exact (incrementalBatch_merge (2 ^ 40)).1 _ _ _ _ (sampleBatch_encodable (by decide))
      (sampleBatch_encodable (by decide)) _ _
  · rcases (incrementalBatch_merge (2 ^ 40)).2 _ mergeable ⟨by decide, by decide, by decide⟩ with
      ⟨merged, isMerged, _, rows, _⟩
    exact ⟨merged, isMerged, rows⟩

end CudaMpqs.Serialization
