import CudaMpqs.Foundation.CheckedAccess
import CudaMpqs.Cluster.CpuLargePrime
import CudaMpqs.Cluster.Serialization

/-! # Reading a batch through its offsets

The relation hash, the accumulator of `accumulator.h` and the large-prime table, with
every array access of theirs checked; `none` is an access outside an array. -/

namespace CudaMpqs

open CheckedAccess

/-! ## The relation hash -/

namespace HostRelationBatch

def MAGIC : BitVec 32 := 0x9e3779b9

def hashFactor (batch : HostRelationBatch) (folded : BitVec 16 × BitVec 32) (k : Nat) :
    Option (BitVec 16 × BitVec 32) := do
  let count ← batch.factorCounts[k]?
  let index ← batch.factorIndices[k]?
  return (folded.1 ^^^ count.setWidth 16, folded.2 ^^^ BitVec.ofNat 32 index * MAGIC)

def computeRelationHash (batch : HostRelationBatch) (i : Nat) : Option (BitVec 64) := do
  let start ← batch.factorOffsets[i]?
  let stop ← batch.factorOffsets[i + 1]?
  let len : BitVec 16 := (BitVec.ofNat 64 stop - BitVec.ofNat 64 start).setWidth 16
  let (expXor, bodyXor) ← (List.range' start (stop - start)).foldlM (hashFactor batch) (0, 0)
  let sign ← batch.signs[i]?
  let val2Exp ← batch.val2Exps[i]?
  let power := (1 : BitVec 32) <<< (val2Exp &&& 0x1F)
  let shiftVal := if sign != 1 then -power else power
  return (len.setWidth 64 <<< 48) ||| (expXor.setWidth 64 <<< 32) |||
    (bodyXor ^^^ shiftVal).setWidth 64

def appendFactor (src : HostRelationBatch) (dest : List Nat × List (BitVec 8)) (f : Nat) :
    Option (List Nat × List (BitVec 8)) := do
  let index ← src.factorIndices[f]?
  let count ← src.factorCounts[f]?
  return (dest.1 ++ [index], dest.2 ++ [count])

def appendSingleRelation (dest src : HostRelationBatch) (idx : Nat) : Option HostRelationBatch := do
  let sqrtQ ← src.sqrtQ[idx]?
  let sign ← src.signs[idx]?
  let val2Exp ← src.val2Exps[idx]?
  let largePrime ← src.largePrimes[idx]?
  let fstart ← src.factorOffsets[idx]?
  let fend ← src.factorOffsets[idx + 1]?
  let (factorIndices, factorCounts) ← (List.range' fstart (fend - fstart)).foldlM
    (appendFactor src) (dest.factorIndices, dest.factorCounts)
  let numFactors := (dest.numFactors + (fend + 2 ^ 64 - fstart)) % 2 ^ 64
  return {
    sqrtQ := dest.sqrtQ ++ [sqrtQ]
    signs := dest.signs ++ [sign]
    val2Exps := dest.val2Exps ++ [val2Exp]
    largePrimes := dest.largePrimes ++ [largePrime]
    charBits := dest.charBits ++ [src.charBits.getD idx 0]
    factorOffsets := dest.factorOffsets ++ [numFactors]
    factorIndices, factorCounts
    numRelations := dest.numRelations + 1
    numFactors }

end HostRelationBatch

open HostRelationBatch

structure RelationAccumulator where
  accumulated : HostRelationBatch
  seen : Finset (BitVec 64)
  perSource : BitVec 8 → Nat

namespace RelationAccumulator

def new : RelationAccumulator := ⟨.empty, ∅, fun _ => 0⟩

def addRelation (batch : HostRelationBatch) (sourceId : BitVec 8)
    (self : RelationAccumulator) (i : Nat) : Option RelationAccumulator := do
  let hash ← batch.computeRelationHash i
  if hash ∈ self.seen then return self
  else
    let accumulated ← appendSingleRelation self.accumulated batch i
    return {
      accumulated
      seen := insert hash self.seen
      perSource := Function.update self.perSource sourceId (self.perSource sourceId + 1) }

def addRelations (self : RelationAccumulator) (batch : HostRelationBatch)
    (sourceId : BitVec 8) : Option RelationAccumulator :=
  (List.range batch.numRelations).foldlM (addRelation batch sourceId) self

def addLPRelations (self : RelationAccumulator) (batch : HostRelationBatch) :
    Option RelationAccumulator :=
  self.addRelations batch 255

end RelationAccumulator

/-! ## The large-prime table -/

namespace CPULargePrimeTable

def extractPartial (batch : HostRelationBatch) (idx : Nat) : Option Relation := do
  let sqrtQ ← batch.sqrtQ[idx]?
  let sign ← batch.signs[idx]?
  let val2Exp ← batch.val2Exps[idx]?
  let largePrime ← batch.largePrimes[idx]?
  let fstart ← batch.factorOffsets[idx]?
  let fend ← batch.factorOffsets[idx + 1]?
  let factorIndices ← checkedSlice batch.factorIndices fstart fend
  let factorCounts ← checkedSlice batch.factorCounts fstart fend
  return {
    sqrtQ, sign, val2Exp, largePrime
    charBits := batch.charBits.getD idx 0
    factors := factorIndices.zip factorCounts }

/-- The row as `insertAndMatch` reads it; of a dropped duplicate and of a row without a
large prime it reads only what tells them. -/
def readRow (table : BitVec 64 → Option Relation) (partials : HostRelationBatch)
    (idx : Nat) : Option Relation := do
  let largePrime ← partials.largePrimes[idx]?
  let key := largePrime.setWidth 64
  if key = 0 ∨ key = 1 then return partials.relation idx
  else
    match table key with
    | some stored =>
      let sqrtQ ← partials.sqrtQ[idx]?
      if stored.sqrtQ = sqrtQ then return partials.relation idx
      else extractPartial partials idx
    | none => extractPartial partials idx

def insertRowChecked (partials : HostRelationBatch)
    (current : CPULargePrimeTable × HostRelationBatch) (idx : Nat) :
    Option (CPULargePrimeTable × HostRelationBatch) := do
  let incoming ← readRow current.1.table partials idx
  let (table, emitted) := current.1.deliver incoming
  match emitted with
  | some combined => return (table, current.2.push combined)
  | none => return (table, current.2)

def insertAndMatchChecked (self : CPULargePrimeTable) (partials : HostRelationBatch)
    (accumulator : RelationAccumulator) :
    Option (CPULargePrimeTable × RelationAccumulator) := do
  let (table, combined) ← (List.range partials.numRelations).foldlM
    (insertRowChecked partials) (self, .empty)
  if 0 < combined.numRelations then
    let accumulator ← accumulator.addLPRelations combined
    return (table, accumulator)
  else return (table, accumulator)

end CPULargePrimeTable

/-! ## Offsets in order -/

namespace HostRelationBatch

variable {batch : HostRelationBatch}

theorem Csr.factor (csr : batch.Csr) {k : Nat} (inside : k < batch.numFactors) :
    ∃ index count, batch.factorIndices[k]? = some index ∧ batch.factorCounts[k]? = some count :=
  ⟨_, _, List.getElem?_eq_getElem (csr.factorIndices ▸ inside),
    List.getElem?_eq_getElem (csr.factorCounts ▸ inside)⟩

theorem Csr.foldlM_isSome {State : Type} (csr : batch.Csr) {start stop : Nat}
    (ordered : start ≤ stop) (inside : stop ≤ batch.numFactors)
    {step : State → Nat → Option State}
    (steps : ∀ state k, k < batch.numFactors → (step state k).isSome) (state : State) :
    ((List.range' start (stop - start)).foldlM step state).isSome := by
  refine CheckedAccess.foldlM_isSome (fun k member state => steps state k ?_) state
  have bounds := List.mem_range'_1.mp member
  omega

theorem Csr.hashFactor (csr : batch.Csr) (folded : BitVec 16 × BitVec 32) {k : Nat}
    (inside : k < batch.numFactors) : (batch.hashFactor folded k).isSome := by
  obtain ⟨index, count, isIndex, isCount⟩ := csr.factor inside
  rw [HostRelationBatch.hashFactor, isIndex, isCount]
  rfl

theorem Csr.appendFactor (csr : batch.Csr) (dest : List Nat × List (BitVec 8)) {k : Nat}
    (inside : k < batch.numFactors) : (batch.appendFactor dest k).isSome := by
  obtain ⟨index, count, isIndex, isCount⟩ := csr.factor inside
  rw [HostRelationBatch.appendFactor, isIndex, isCount]
  rfl

theorem Csr.computeRelationHash (csr : batch.Csr) {i : Nat}
    (inside : i < batch.numRelations) : (batch.computeRelationHash i).isSome := by
  obtain ⟨start, stop, isStart, isStop, ordered, bounded⟩ := csr.offsets inside
  obtain ⟨folded, isFolded⟩ := Option.isSome_iff_exists.mp
    (csr.foldlM_isSome ordered bounded (fun folded k => csr.hashFactor folded) (0, 0))
  rw [HostRelationBatch.computeRelationHash, isStart, isStop]
  simp only [Option.bind_eq_bind, Option.bind_some, isFolded,
    List.getElem?_eq_getElem (csr.signs ▸ inside),
    List.getElem?_eq_getElem (csr.val2Exps ▸ inside)]
  rfl

theorem Csr.appendSingleRelation (csr : batch.Csr) (dest : HostRelationBatch) {idx : Nat}
    (inside : idx < batch.numRelations) :
    (HostRelationBatch.appendSingleRelation dest batch idx).isSome := by
  obtain ⟨start, stop, isStart, isStop, ordered, bounded⟩ := csr.offsets inside
  obtain ⟨factors, isFactors⟩ := Option.isSome_iff_exists.mp
    (csr.foldlM_isSome ordered bounded (fun factors k => csr.appendFactor factors)
      (dest.factorIndices, dest.factorCounts))
  rw [HostRelationBatch.appendSingleRelation]
  simp only [Option.bind_eq_bind, Option.bind_some, isStart, isStop, isFactors,
    List.getElem?_eq_getElem (csr.sqrtQ ▸ inside),
    List.getElem?_eq_getElem (csr.signs ▸ inside),
    List.getElem?_eq_getElem (csr.val2Exps ▸ inside),
    List.getElem?_eq_getElem (csr.largePrimes ▸ inside)]
  rfl

end HostRelationBatch

namespace RelationAccumulator

variable {batch : HostRelationBatch}

private theorem addRelation_isSome (csr : batch.Csr) (sourceId : BitVec 8)
    (self : RelationAccumulator) {i : Nat} (inside : i < batch.numRelations) :
    (addRelation batch sourceId self i).isSome := by
  obtain ⟨hash, isHash⟩ := Option.isSome_iff_exists.mp (csr.computeRelationHash inside)
  obtain ⟨accumulated, isAccumulated⟩ := Option.isSome_iff_exists.mp
    (csr.appendSingleRelation self.accumulated inside)
  rw [addRelation, isHash]
  simp only [Option.bind_eq_bind, Option.bind_some, isAccumulated]
  split <;> rfl

theorem addRelations_isSome (csr : batch.Csr) (self : RelationAccumulator)
    (sourceId : BitVec 8) : (self.addRelations batch sourceId).isSome :=
  CheckedAccess.foldlM_isSome
    (fun _ member self => addRelation_isSome csr sourceId self (List.mem_range.mp member)) self

end RelationAccumulator

namespace CPULargePrimeTable

variable {partials : HostRelationBatch}

private theorem extractPartial_eq (csr : partials.Csr) {idx : Nat}
    (inside : idx < partials.numRelations) :
    extractPartial partials idx = some (partials.relation idx) := by
  obtain ⟨start, stop, isStart, isStop, ordered, bounded⟩ := csr.offsets inside
  have held {α : Type} {items : List α} (length : items.length = partials.numRelations)
      (default : α) : items[idx]? = some (items.getD idx default) := by
    rw [List.getD_eq_getElem _ _ (length ▸ inside), List.getElem?_eq_getElem]
  have offset (place : Nat) {value : Nat} (isValue : partials.factorOffsets[place]? = some value) :
      partials.factorOffsets.getD place 0 = value := by
    rw [List.getD_eq_getElem?_getD, isValue, Option.getD_some]
  rw [extractPartial, held csr.sqrtQ (UInt512.ofUInt32 0), held csr.signs 0,
    held csr.val2Exps 0, held csr.largePrimes 0, isStart, isStop]
  simp only [Option.bind_eq_bind, Option.bind_some,
    checkedSlice_inside ordered (csr.factorIndices ▸ bounded :
      stop ≤ partials.factorIndices.length),
    checkedSlice_inside ordered (csr.factorCounts ▸ bounded : stop ≤ partials.factorCounts.length)]
  rw [relation, offset idx isStart, offset (idx + 1) isStop]
  rfl

private theorem readRow_eq (csr : partials.Csr) (table : BitVec 64 → Option Relation) {idx : Nat}
    (inside : idx < partials.numRelations) :
    readRow table partials idx = some (partials.relation idx) := by
  rw [readRow, List.getElem?_eq_getElem (csr.largePrimes ▸ inside)]
  simp only [Option.bind_eq_bind, Option.bind_some, extractPartial_eq csr inside,
    List.getElem?_eq_getElem (csr.sqrtQ ▸ inside)]
  split
  · rfl
  split
  · split <;> rfl
  · rfl

theorem insertRowChecked_eq (csr : partials.Csr)
    (current : CPULargePrimeTable × HostRelationBatch) {idx : Nat}
    (inside : idx < partials.numRelations) :
    insertRowChecked partials current idx = some (insertRow partials current idx) := by
  rw [insertRowChecked, readRow_eq csr current.1.table inside, insertRow]
  simp only [Option.bind_eq_bind, Option.bind_some]
  cases (current.1.deliver (partials.relation idx)).2 <;> rfl

private theorem insertRow_csr {current : CPULargePrimeTable × HostRelationBatch}
    (csr : current.2.Csr) (partials : HostRelationBatch) (idx : Nat) :
    (insertRow partials current idx).2.Csr := by
  unfold insertRow
  dsimp only
  split
  · exact csr.push _
  · exact csr

private theorem insertAndMatch_csr (self : CPULargePrimeTable) (partials : HostRelationBatch) :
    (self.insertAndMatch partials).2.Csr :=
  List.foldlRecOn
    (motive := fun current : CPULargePrimeTable × HostRelationBatch => current.2.Csr) _ _
    empty_csr
    fun _ csr idx _ => insertRow_csr csr partials idx

theorem insertAndMatchChecked_isSome (csr : partials.Csr) (self : CPULargePrimeTable)
    (accumulator : RelationAccumulator) :
    (self.insertAndMatchChecked partials accumulator).isSome := by
  have loop := foldlM_eq_foldl (fun idx member current =>
    insertRowChecked_eq csr current (List.mem_range.mp member)) (self, HostRelationBatch.empty)
  obtain ⟨added, isAdded⟩ := Option.isSome_iff_exists.mp
    (RelationAccumulator.addRelations_isSome (insertAndMatch_csr self partials) accumulator 255)
  rw [insertAndMatch] at isAdded
  rw [insertAndMatchChecked, loop]
  simp only [Option.bind_eq_bind, Option.bind_some, RelationAccumulator.addLPRelations, isAdded]
  split <;> rfl

end CPULargePrimeTable

/-! ## Accepted messages -/

namespace Serialization

open ByteStream RelationIo

/-- Both consumers of a batch stay inside its arrays, whatever they hold. -/
structure ReadInside (batch : HostRelationBatch) : Prop where
  addRelations : ∀ (accumulator : RelationAccumulator) (sourceId : BitVec 8),
    (accumulator.addRelations batch sourceId).isSome
  insertAndMatch : ∀ (table : CPULargePrimeTable) (accumulator : RelationAccumulator),
    (table.insertAndMatchChecked batch accumulator).isSome

theorem readInside_of_csr {batch : HostRelationBatch} (csr : batch.Csr) : ReadInside batch where
  addRelations := RelationAccumulator.addRelations_isSome csr
  insertAndMatch := CPULargePrimeTable.insertAndMatchChecked_isSome csr

structure OffsetsInOrder (data : List UInt8) : Prop where
  first : (offsetTable data).head? = some 0
  sorted : (offsetTable data).Pairwise (· ≤ ·)
  last : (offsetTable data).getLast? = some (facCount data)

theorem length_offsetTable (data : List UInt8) : (offsetTable data).length = relCount data + 1 := by
  unfold offsetTable
  generalize isStored : (if 0 < relCount data then _ else _ : Nat) = stored
  have storedLe : stored ≤ relCount data + 1 := by
    rw [← isStored]
    split
    · exact Nat.mod_le _ _
    · exact Nat.zero_le _
  rw [List.length_append, Codec.length_decodeAll, List.length_replicate]
  omega

private theorem getLast?_eq_getD {offsets : List Nat} {count : Nat}
    (length : offsets.length = count + 1) :
    offsets.getLast? = some (offsets.getD count 0) := by
  rw [List.getLast?_eq_getElem?, length, Nat.add_sub_cancel, List.getD_eq_getElem?_getD,
    List.getElem?_eq_getElem (by omega), Option.getD_some]

theorem csr_iff_offsetsInOrder {data : List UInt8} {out : HostRelationBatch}
    (announced : Announced data out) : out.Csr ↔ OffsetsInOrder data := by
  have length := length_offsetTable data
  have last := getLast?_eq_getD length
  have table := announced.factorOffsets
  constructor
  · intro csr
    have isLast := csr.lastOffset
    rw [table, announced.numRelations, announced.numFactors] at isLast
    exact ⟨table ▸ csr.first, table ▸ csr.sorted, by rw [last, isLast]⟩
  · intro inOrder
    have isLast : (offsetTable data).getD (relCount data) 0 = facCount data :=
      Option.some.inj (last.symm.trans inOrder.last)
    have bounded : ∀ offset ∈ offsetTable data, offset ≤ facCount data := by
      intro offset member
      obtain ⟨place, inside, rfl⟩ := List.getElem_of_mem member
      rw [← isLast, List.getD_eq_getElem _ _ (by omega)]
      exact inOrder.sorted.rel_get_of_le (a := ⟨place, inside⟩)
        (b := ⟨relCount data, by omega⟩) (Fin.mk_le_mk.mpr (by omega))
    exact {
      sqrtQ := announced.sqrtQ.trans announced.numRelations.symm
      signs := announced.signs.trans announced.numRelations.symm
      val2Exps := announced.val2Exps.trans announced.numRelations.symm
      largePrimes := announced.largePrimes.trans announced.numRelations.symm
      charBits := announced.charBits.trans announced.numRelations.symm
      factorOffsets := by rw [table, length, announced.numRelations]
      factorIndices := announced.factorIndices.trans announced.numFactors.symm
      factorCounts := announced.factorCounts.trans announced.numFactors.symm
      offsetsLe := by rw [table, announced.numFactors]; exact bounded
      lastOffset := by rw [table, announced.numRelations, announced.numFactors, isLast]
      first := table ▸ inOrder.first
      sorted := table ▸ inOrder.sorted }

/-- The decoder takes any offsets; it is up to the sender that the consumers stay inside
the arrays. -/
theorem accepted_csr_iff {memory : Nat} {data : List UInt8} {out : HostRelationBatch}
    (accepted : decodeRelationBatch memory data cleared = some (true, out)) :
    out.Csr ∧ ReadInside out ↔ OffsetsInOrder data := by
  rw [← csr_iff_offsetsInOrder (decodeRelationBatch_announced accepted)]
  exact ⟨And.left, fun csr => ⟨csr, readInside_of_csr csr⟩⟩

def oneRelationMessage (nFacs first last : Nat) : List UInt8 :=
  littleEndian 4 1 ++ littleEndian 4 nFacs ++ List.replicate 64 7 ++ [1] ++
    littleEndian 4 0 ++ littleEndian 16 5 ++ littleEndian 4 0 ++ littleEndian 8 first ++
    littleEndian 8 last ++ List.replicate (nFacs * 5) 2

def orderedBatch : HostRelationBatch where
  sqrtQ := [⟨List.replicate 16 0x07070707, rfl⟩]
  signs := [1]
  val2Exps := [0]
  largePrimes := [5]
  charBits := [0]
  factorOffsets := [0, 1]
  factorIndices := [0x02020202]
  factorCounts := [2]
  numRelations := 1
  numFactors := 1

theorem orderedBatch_csr_iff : orderedBatch.Csr ∧ ReadInside orderedBatch ↔
      OffsetsInOrder (oneRelationMessage 1 0 1) := by
  have accepted : decodeRelationBatch (2 ^ 40) (oneRelationMessage 1 0 1) cleared =
      some (true, orderedBatch) := by decide +kernel
  exact accepted_csr_iff accepted

/-- The last offset points one factor past the arrays of a message without factors. -/
theorem reads_outside : ∃ out, decodeRelationBatch (2 ^ 40) (oneRelationMessage 0 0 1) cleared =
        some (true, out) ∧
      ¬ (out.Csr ∧ ReadInside out) ∧
      (RelationAccumulator.new.addRelations out 1).isNone ∧
      ((CPULargePrimeTable.new (UInt512.ofUInt32 91)).insertAndMatchChecked out
        RelationAccumulator.new).isNone := by
  have outside : (RelationAccumulator.new.addRelations { orderedBatch with
      factorIndices := [], factorCounts := [], numFactors := 0 } 1).isNone := by
    decide +kernel
  refine ⟨{ orderedBatch with factorIndices := [], factorCounts := [], numFactors := 0 },
    by decide +kernel, fun sound => ?_, outside, by decide +kernel⟩
  have inside := sound.2.addRelations RelationAccumulator.new 1
  rw [Option.isNone_iff_eq_none.mp outside] at inside
  nomatch inside

end Serialization

end CudaMpqs
