import CudaMpqs.Cluster.Serialization
import CudaMpqs.Common.BatchRows

/-! # Encoding relation batches

`serializeRelationBatch` sends the first rows of a batch, `serializeIncrementalBatch`
two such messages behind their lengths. Every number of the format has 32 bits. -/

namespace CudaMpqs.Serialization

open ByteStream RelationIo HostRelationBatch

/-! ## The encoder -/

/-- The bytes up to the returned length, which for a batch without rows ends behind the
two counts. -/
def serializeRelationBatch (batch : HostRelationBatch) (count : Nat) : List UInt8 :=
  let numFactors :=
    if 0 < count ∧ count < batch.factorOffsets.length then batch.factorOffsets.getD count 0
    else 0
  littleEndian 4 count ++ (littleEndian 4 numFactors ++ if 0 < count then
      uint512Codec.encodeAll (batch.sqrtQ.take count) ++ (u8.encodeAll (batch.signs.take count) ++
        (u32.encodeAll (batch.val2Exps.take count) ++
        (u128.encodeAll (batch.largePrimes.take count) ++
        (u32.encodeAll (if count ≤ batch.charBits.length then batch.charBits.take count
          else List.replicate count 0) ++
        ((Codec.number 8).encodeAll (batch.factorOffsets.take (count + 1)) ++ if 0 < numFactors then
            (Codec.number 4).encodeAll (batch.factorIndices.take numFactors) ++
              u8.encodeAll (batch.factorCounts.take numFactors)
          else [])))))
    else [])

def serializeIncrementalBatch (fullBatch : HostRelationBatch) (fullCount : Nat)
    (partialBatch : HostRelationBatch) (partialCount : Nat) : List UInt8 :=
  let fullBuf := serializeRelationBatch fullBatch fullCount
  let partialBuf := serializeRelationBatch partialBatch partialCount
  littleEndian 4 fullBuf.length ++ (fullBuf ++ (littleEndian 4 partialBuf.length ++ partialBuf))

/-! ## A batch that is sent whole -/

def arraysOf (batch : HostRelationBatch) : List UInt8 :=
  uint512Codec.encodeAll batch.sqrtQ ++ (u8.encodeAll batch.signs ++
    (u32.encodeAll batch.val2Exps ++ (u128.encodeAll batch.largePrimes ++
      (u32.encodeAll batch.charBits ++ ((Codec.number 8).encodeAll batch.factorOffsets ++
        ((Codec.number 4).encodeAll batch.factorIndices ++ u8.encodeAll batch.factorCounts))))))

def wire (batch : HostRelationBatch) : List UInt8 :=
  littleEndian 4 batch.numRelations ++ (littleEndian 4 batch.numFactors ++
    if 0 < batch.numRelations then arraysOf batch else [])

variable {batch : HostRelationBatch}

theorem charBits_sent (sendable : batch.Sendable) {count : Nat}
    (inside : count ≤ batch.numRelations) :
    (List.range count).map (fun idx => batch.charBits.getD idx 0) =
      if count ≤ batch.charBits.length then batch.charBits.take count
      else List.replicate count 0 := by
  apply List.ext_getElem?
  intro idx
  rcases sendable.charBits with missing | all
  · rcases Nat.lt_or_ge idx count with below | above
    · simp [missing, below, show ¬ count ≤ 0 by omega]
    · by_cases none : count = 0 <;> simp [missing, above, none]
  · rw [if_pos (inside.trans all)]
    rcases Nat.lt_or_ge idx count with below | above
    · simp [below, List.getD_eq_getElem?_getD, show idx < batch.charBits.length by omega]
    · simp [above]

theorem offsets_sent (sendable : batch.Sendable) {count : Nat} (positive : 0 < count)
    (inside : count ≤ batch.numRelations) :
    [0] ++ (List.range' 1 count).map (fun idx => batch.factorsBefore idx + 0) =
      batch.factorOffsets.take (count + 1) := by
  have long := sendable.lt_length_offsets positive inside
  apply List.ext_getElem?
  intro idx
  cases idx with
  | zero =>
    have first := sendable.first
    rw [List.getD_eq_getElem _ _ (by omega : 0 < batch.factorOffsets.length)] at first
    simp [List.getElem?_eq_getElem (by omega : 0 < batch.factorOffsets.length), first]
  | succ idx =>
    rcases Nat.lt_or_ge idx count with below | above
    · simp [factorsBefore, below, List.getD_eq_getElem?_getD, Nat.add_comm 1 idx,
        show idx + 1 < batch.factorOffsets.length by omega]
    · simp [above]

theorem serializeRelationBatch_eq_wire (sendable : batch.Sendable) {count : Nat}
    (inside : count ≤ batch.numRelations) :
    serializeRelationBatch batch count = wire (batch.firstRows count) := by
  rw [firstRows, sendable.pushAll_rows _ inside]
  rcases Nat.eq_zero_or_pos count with rfl | positive
  · have first := sendable.first
    rw [List.getD_eq_getElem?_getD] at first
    simp [serializeRelationBatch, wire, appended, empty, factorsBefore, first]
  · have long := sendable.lt_length_offsets positive inside
    have total : batch.factorOffsets.getD count 0 = batch.factorsBefore count := rfl
    simp only [serializeRelationBatch, wire, arraysOf, appended, empty, positive, long, and_self,
      if_true, List.nil_append, Nat.zero_add, charBits_sent sendable inside,
      offsets_sent sendable positive inside, total]
    rcases Nat.eq_zero_or_pos (batch.factorsBefore count) with none | some
    · simp [none, Codec.encodeAll]
    · simp only [some, if_true]

/-! ## Decoding it -/

namespace SafeReader

theorem readItems_encodeAll {α : Type} (codec : Codec α) {items : List α}
    (fits : ∀ item ∈ items, codec.Fits item) {count : Nat} (length : items.length = count)
    (vec : List α) (rest : List UInt8) :
    (ofData (codec.encodeAll items ++ rest)).readItems codec vec count =
      (items ++ vec.drop count, ofData rest) := by
  have size : (codec.encodeAll items).length = count * codec.width := by
    rw [codec.length_encodeAll, length]
  rw [readItems_ofData rfl (by rw [List.length_append]; omega), List.take_left' size,
    List.drop_left' size, ← length, codec.decodeAll_encodeAll fits]

end SafeReader

structure Allocatable (memory nRels nFactors : Nat) : Prop where
  relations : nRels * 64 ≤ memory
  offsets : (nRels + 1) * 8 ≤ memory
  factors : nFactors * 4 ≤ memory

private theorem grow_isSome {α : Type} {codec : Codec α} {memory width n : Nat}
    (isWidth : codec.width = width) (room : n * width ≤ memory) (vec : List α) :
    ∃ grown, grow codec memory vec n = some grown := by
  unfold grow resize
  rw [isWidth, if_neg (not_lt.mpr room)]
  split <;> exact ⟨_, rfl⟩

theorem resizeBatch_isSome {memory nRels nFactors : Nat}
    (room : Allocatable memory nRels nFactors) (out : HostRelationBatch) :
    ∃ resized, resizeBatch memory out nRels nFactors = some resized := by
  have relations := room.relations
  have factors := room.factors
  rcases grow_isSome (rfl : uint512Codec.width = 64) relations out.sqrtQ with ⟨_, sqrtQ⟩
  rcases grow_isSome (rfl : u8.width = 1) (by omega : nRels * 1 ≤ memory) out.signs with
    ⟨_, signs⟩
  rcases grow_isSome (rfl : u32.width = 4) (by omega : nRels * 4 ≤ memory) out.val2Exps with
    ⟨_, val2Exps⟩
  rcases grow_isSome (rfl : u128.width = 16) (by omega : nRels * 16 ≤ memory)
    out.largePrimes with ⟨_, largePrimes⟩
  rcases grow_isSome (rfl : u32.width = 4) (by omega : nRels * 4 ≤ memory) out.charBits with
    ⟨_, charBits⟩
  rcases grow_isSome (rfl : (Codec.number 8).width = 8) room.offsets out.factorOffsets with
    ⟨_, factorOffsets⟩
  rcases grow_isSome (rfl : (Codec.number 4).width = 4) factors out.factorIndices with
    ⟨_, factorIndices⟩
  rcases grow_isSome (rfl : u8.width = 1) (by omega : nFactors * 1 ≤ memory)
    out.factorCounts with ⟨_, factorCounts⟩
  simp [resizeBatch, sqrtQ, signs, val2Exps, largePrimes, charBits, factorOffsets,
    factorIndices, factorCounts]

structure Narrow (batch : HostRelationBatch) : Prop where
  relations : batch.numRelations + 1 < 2 ^ 32
  factors : batch.numFactors < 2 ^ 32
  indices : ∀ index ∈ batch.factorIndices, index < 2 ^ 32

theorem readArrays_arraysOf (csr : batch.Csr) (narrow : Narrow batch) (out : HostRelationBatch) :
    ∃ whole, readArrays (.ofData (arraysOf batch)) batch.numRelations batch.numFactors out =
        (true, whole) ∧
      batch.Begins { whole with numRelations := batch.numRelations } := by
  have relations := narrow.relations
  have offsets : ∀ offset ∈ batch.factorOffsets, (Codec.number 8).Fits offset := by
    intro offset member
    have bound := csr.offsetsLe offset member
    have factors := narrow.factors
    exact (show offset < 2 ^ 64 by omega)
  unfold readArrays arraysOf
  simp only [Nat.mod_eq_of_lt relations,
    SafeReader.readItems_encodeAll uint512Codec (fun _ _ => trivial) csr.sqrtQ,
    SafeReader.readItems_encodeAll u8 (fun _ _ => trivial) csr.signs,
    SafeReader.readItems_encodeAll u32 (fun _ _ => trivial) csr.val2Exps,
    SafeReader.readItems_encodeAll u128 (fun _ _ => trivial) csr.largePrimes,
    SafeReader.readItems_encodeAll u32 (fun _ _ => trivial) csr.charBits,
    SafeReader.readItems_encodeAll (Codec.number 8) offsets csr.factorOffsets]
  rcases Nat.eq_zero_or_pos batch.numFactors with none | some
  · have noIndices := List.eq_nil_of_length_eq_zero (csr.factorIndices.trans none)
    have noCounts := List.eq_nil_of_length_eq_zero (csr.factorCounts.trans none)
    simp only [none, lt_irrefl, if_false]
    refine ⟨_, rfl, ?_⟩
    constructor <;> simp [noIndices, noCounts]
  · have indices := SafeReader.readItems_encodeAll (Codec.number 4) narrow.indices
      csr.factorIndices
    have counts := SafeReader.readItems_encodeAll u8 (fun _ _ => trivial) csr.factorCounts
      out.factorCounts []
    rw [List.append_nil] at counts
    simp only [some, if_true, indices, counts]
    refine ⟨_, rfl, ?_⟩
    constructor <;> simp

theorem decodeRelationBatch_wire (csr : batch.Csr) (narrow : Narrow batch) {memory : Nat}
    (room : Allocatable memory batch.numRelations batch.numFactors) (out : HostRelationBatch) :
    ∃ whole, decodeRelationBatch memory (wire batch) out = some (true, whole) ∧
      whole.relations = batch.relations ∧ whole.numRelations = batch.numRelations := by
  have relations := narrow.relations
  have factors := narrow.factors
  have wireRelations : relCount (wire batch) = batch.numRelations := by
    rw [relCount, wire, List.take_left' (length_littleEndian 4 _), value_littleEndian (by omega)]
  have wireFactors : facCount (wire batch) = batch.numFactors := by
    rw [facCount, wire, List.drop_left' (length_littleEndian 4 _),
      List.take_left' (length_littleEndian 4 _), value_littleEndian (by omega)]
  have long : 8 ≤ (wire batch).length := by
    simp only [wire, List.length_append, length_littleEndian]
    omega
  rcases resizeBatch_isSome room out with ⟨resized, isResized⟩
  rw [decodeRelationBatch_long long, wireRelations, wireFactors, isResized]
  rcases Nat.eq_zero_or_pos batch.numRelations with none | some
  · simp [none, HostRelationBatch.relations]
  · have body : (wire batch).drop 8 = arraysOf batch := by
      rw [wire, if_pos some, ← List.append_assoc, List.drop_left' (by simp)]
    rcases readArrays_arraysOf csr narrow resized with ⟨whole, read, begins⟩
    simp only [body, some, if_true, Option.bind_eq_bind, Option.bind_some, read]
    exact ⟨_, rfl, begins.relations csr.toWellFormed, rfl⟩

/-! ## The incremental batch -/

structure Encodable (memory : Nat) (batch : HostRelationBatch) (count : Nat) : Prop where
  sendable : batch.Sendable
  inside : count ≤ batch.numRelations
  short : (serializeRelationBatch batch count).length < 2 ^ 32
  room : Allocatable memory count (batch.factorsBefore count)

theorem length_wire (csr : batch.Csr) : (wire batch).length = 8 + if 0 < batch.numRelations then
      batch.numRelations * 97 + 8 + batch.numFactors * 5 else 0 := by
  have widths : uint512Codec.width = 64 ∧ u8.width = 1 ∧ u32.width = 4 ∧ u128.width = 16 ∧
      (Codec.number 8).width = 8 ∧ (Codec.number 4).width = 4 := ⟨rfl, rfl, rfl, rfl, rfl, rfl⟩
  rw [wire]
  split
  · simp only [arraysOf, List.length_append, length_littleEndian, Codec.length_encodeAll,
      csr.sqrtQ, csr.signs, csr.val2Exps, csr.largePrimes, csr.charBits, csr.factorOffsets,
      csr.factorIndices, csr.factorCounts, widths]
    omega
  · simp

variable {memory count : Nat}

theorem numRelations_firstRows (sendable : batch.Sendable) (inside : count ≤ batch.numRelations) :
    (batch.firstRows count).numRelations = count ∧
      (batch.firstRows count).numFactors = batch.factorsBefore count := by
  rw [firstRows, sendable.pushAll_rows _ inside]
  simp [appended, empty]

theorem Encodable.narrow (encodable : Encodable memory batch count) :
    Narrow (batch.firstRows count) := by
  have short := encodable.short
  rcases numRelations_firstRows encodable.sendable encodable.inside with ⟨relations, factors⟩
  rw [serializeRelationBatch_eq_wire encodable.sendable encodable.inside,
    length_wire (batch.firstRows_csr count), relations, factors] at short
  have none : count = 0 → batch.factorsBefore count = 0 := by
    rintro rfl
    exact encodable.sendable.first
  constructor
  · rw [relations]
    split at short <;> omega
  · rw [factors]
    split at short <;> omega
  · intro index member
    rw [firstRows, encodable.sendable.pushAll_rows _ encodable.inside] at member
    exact encodable.sendable.indices index (List.mem_of_mem_take (by simpa [appended, empty]
      using member))

theorem Encodable.decode (encodable : Encodable memory batch count) (out : HostRelationBatch) :
    ∃ decoded, decodeRelationBatch memory (serializeRelationBatch batch count) out =
        some (true, decoded) ∧
      decoded.relations = batch.relations.take count ∧ decoded.numRelations = count := by
  rcases numRelations_firstRows encodable.sendable encodable.inside with ⟨relations, factors⟩
  have room : Allocatable memory (batch.firstRows count).numRelations
      (batch.firstRows count).numFactors := by
    rw [relations, factors]
    exact encodable.room
  rcases decodeRelationBatch_wire (batch.firstRows_csr count) encodable.narrow room out with
    ⟨decoded, isDecoded, rows, size⟩
  refine ⟨decoded, ?_, ?_, ?_⟩
  · rw [serializeRelationBatch_eq_wire encodable.sendable encodable.inside, isDecoded]
  · rw [rows, relations_firstRows]
  · rw [size, relations]

private theorem framed_prefixed {bytes : List UInt8} (short : bytes.length < 2 ^ 32)
    (rest : List UInt8) :
    Framed (littleEndian 4 bytes.length ++ (bytes ++ rest)) ∧
      fullData (littleEndian 4 bytes.length ++ (bytes ++ rest)) = bytes ∧
      afterFull (littleEndian 4 bytes.length ++ (bytes ++ rest)) = rest := by
  have announced : value ((littleEndian 4 bytes.length ++ (bytes ++ rest)).take 4) =
      bytes.length := by
    rw [List.take_left' (length_littleEndian 4 _), value_littleEndian (by omega)]
  refine ⟨?_, ?_, ?_⟩
  · rw [Framed, announced]
    simp only [List.length_append, length_littleEndian]
    omega
  · rw [fullData, announced, List.drop_left' (length_littleEndian 4 _), List.take_left]
  · rw [afterFull, announced, ← List.append_assoc, List.drop_left' (by simp)]

theorem deserializeIncrementalBatch_serialize {fullBatch partialBatch : HostRelationBatch}
    {fullCount partialCount : Nat} (full : Encodable memory fullBatch fullCount)
    (part : Encodable memory partialBatch partialCount)
    (fullOut partialOut : HostRelationBatch) :
    ∃ decodedFull decodedPartial, deserializeIncrementalBatch memory
          (serializeIncrementalBatch fullBatch fullCount partialBatch partialCount)
          fullOut partialOut = some (true, decodedFull, decodedPartial) ∧
        decodedFull.relations = fullBatch.relations.take fullCount ∧
        decodedPartial.relations = partialBatch.relations.take partialCount := by
  rcases full.decode fullOut with ⟨decodedFull, isFull, fullRows, fullSize⟩
  rcases part.decode partialOut with ⟨decodedPartial, isPartial, partialRows, partialSize⟩
  have first := framed_prefixed full.short (littleEndian 4
    (serializeRelationBatch partialBatch partialCount).length ++
      serializeRelationBatch partialBatch partialCount)
  have second := framed_prefixed part.short []
  rw [List.append_nil] at second
  refine ⟨decodedFull, decodedPartial, ?_, fullRows, partialRows⟩
  have partialFramed : PartialFramed
      (serializeIncrementalBatch fullBatch fullCount partialBatch partialCount) := by
    rw [PartialFramed, serializeIncrementalBatch, first.2.2]
    exact second.1
  have partialMessage : partialData
      (serializeIncrementalBatch fullBatch fullCount partialBatch partialCount) =
        serializeRelationBatch partialBatch partialCount := by
    rw [partialData, serializeIncrementalBatch, first.2.2, second.2.1]
  have long : 8 ≤
      (serializeIncrementalBatch fullBatch fullCount partialBatch partialCount).length := by
    simp only [serializeIncrementalBatch, List.length_append, length_littleEndian]
    omega
  have fullMessage : fullData
      (serializeIncrementalBatch fullBatch fullCount partialBatch partialCount) =
        serializeRelationBatch fullBatch fullCount := first.2.1
  rw [deserializeIncrementalBatch_framed ⟨long, first.1⟩, fullMessage, partialMessage]
  simp [deserializeRelationBatch, isFull, isPartial, partialFramed]

/-! ## A message whose length does not fit -/

def wideBatch (n : Nat) : HostRelationBatch where
  sqrtQ := List.replicate n (UInt512.ofUInt32 7)
  signs := List.replicate n 1
  val2Exps := List.replicate n 0
  largePrimes := List.replicate n 1
  charBits := []
  factorOffsets := List.replicate (n + 1) 0
  factorIndices := []
  factorCounts := []
  numRelations := n
  numFactors := 0

theorem wideBatch_sendable (n : Nat) : (wideBatch n).Sendable where
  sqrtQ := by simp [wideBatch]
  signs := by simp [wideBatch]
  val2Exps := by simp [wideBatch]
  largePrimes := by simp [wideBatch]
  offsets := by
    intro idx inside
    have below : idx < n := inside
    refine ⟨0, 0, ?_, ?_, le_rfl, Nat.zero_le _, Nat.zero_le _⟩ <;>
      simp [wideBatch, List.getElem?_replicate] <;> omega
  size := by simp [wideBatch]
  first := by simp [wideBatch]
  charBits := Or.inl rfl
  indices := by simp [wideBatch]

theorem length_serialize_wideBatch {n : Nat} (positive : 0 < n) :
    (serializeRelationBatch (wideBatch n) n).length = 16 + 97 * n := by
  have inside : n ≤ (wideBatch n).numRelations := le_rfl
  have none : (wideBatch n).factorsBefore n = 0 := by simp [factorsBefore, wideBatch]
  rcases numRelations_firstRows (wideBatch_sendable n) inside with ⟨relations, factors⟩
  rw [serializeRelationBatch_eq_wire (wideBatch_sendable n) inside,
    length_wire ((wideBatch n).firstRows_csr n), relations, factors, none, if_pos positive]
  omega

/-- The roots do not fit into what is left of the message, so none of them is read. -/
theorem decodeRelationBatch_cut {memory : Nat} {data : List UInt8} (enough : 8 ≤ data.length)
    (cut : data.length < 8 + 64 * relCount data) {ok : Bool} {out : HostRelationBatch}
    (decoded : decodeRelationBatch memory data cleared = some (ok, out)) :
    out.sqrtQ = List.replicate (relCount data) (UInt512.ofUInt32 0) := by
  have some : 0 < relCount data := by omega
  have unread (vec : List UInt512) :
      ((SafeReader.ofData (data.drop 8)).readItems uint512Codec vec (relCount data)).1 = vec := by
    have width : uint512Codec.width = 64 := rfl
    rw [SafeReader.readItems, SafeReader.readBytes, if_pos (by
      rw [SafeReader.ofData, List.length_drop, width]
      omega)]
  rw [decodeRelationBatch_long enough, resizeBatch_cleared] at decoded
  split at decoded
  · simp only [Option.bind_eq_bind, Option.bind_some] at decoded
    unfold readArrays at decoded
    dsimp only at decoded
    split at decoded <;> split at decoded <;> cases decoded <;> exact unread _
  · cases decoded

theorem deserializeIncrementalBatch_cut {data : List UInt8} (framed : FullFramed data)
    (enough : 8 ≤ (fullData data).length)
    (cut : (fullData data).length < 8 + 64 * relCount (fullData data)) {ok : Bool}
    {decodedFull decodedPartial : HostRelationBatch}
    (decoded : deserializeIncrementalBatch memory data cleared cleared =
      some (ok, decodedFull, decodedPartial)) :
    decodedFull.sqrtQ = List.replicate (relCount (fullData data)) (UInt512.ofUInt32 0) := by
  rw [deserializeIncrementalBatch_framed framed, deserializeRelationBatch] at decoded
  rcases Option.bind_eq_some_iff.mp decoded with ⟨⟨received, out⟩, isOut, next⟩
  rcases Option.bind_eq_some_iff.mp isOut with ⟨⟨accepted, whole⟩, isWhole, outcome⟩
  have zeros := decodeRelationBatch_cut enough cut isWhole
  simp only [Option.pure_def, Option.some.injEq, Prod.mk.injEq] at outcome
  have isFull : out = decodedFull := by
    by_cases partialFramed : PartialFramed data
    · simp only [partialFramed, if_true] at next
      rcases Option.bind_eq_some_iff.mp next with ⟨_, _, last⟩
      simp only [Option.pure_def, Option.some.injEq, Prod.mk.injEq] at last
      exact last.2.1
    · simp only [partialFramed, if_false, Option.pure_def, Option.some.injEq, Prod.mk.injEq] at next
      exact next.2.1
  rwa [← isFull, ← outcome.2]

private theorem framed_wrapped {bytes : List UInt8} (rest : List UInt8) :
    Framed (littleEndian 4 bytes.length ++ (bytes ++ rest)) ∧
      fullData (littleEndian 4 bytes.length ++ (bytes ++ rest)) =
        bytes.take (bytes.length % 2 ^ 32) := by
  have announced : value ((littleEndian 4 bytes.length ++ (bytes ++ rest)).take 4) =
      bytes.length % 2 ^ 32 := by
    rw [List.take_left' (length_littleEndian 4 _), value_littleEndian_mod]
    rfl
  have shorter := Nat.mod_le bytes.length (2 ^ 32)
  constructor
  · rw [Framed, announced]
    simp only [List.length_append, length_littleEndian]
    omega
  · rw [fullData, announced, List.drop_left' (length_littleEndian 4 _),
      List.take_append_of_le_length shorter]

/-- The length that the receiver sees is too small for the roots. -/
theorem wideBatch_lost {n length : Nat} (isLength : length = 16 + 97 * n) (positive : 0 < n)
    (narrow : n < 2 ^ 32) (enough : 8 ≤ length % 2 ^ 32) (cut : length % 2 ^ 32 < 8 + 64 * n)
    (memory : Nat) :
    ¬ ∃ ok decodedFull decodedPartial, deserializeIncrementalBatch memory
          (serializeIncrementalBatch (wideBatch n) n cleared 0) cleared cleared =
        some (ok, decodedFull, decodedPartial) ∧
      decodedFull.relations = (wideBatch n).relations.take n := by
  rintro ⟨ok, decodedFull, decodedPartial, decoded, same⟩
  have size : (serializeRelationBatch (wideBatch n) n).length = length := by
    rw [length_serialize_wideBatch positive, isLength]
  have count (received : Nat) (atLeast : 8 ≤ received) :
      relCount ((serializeRelationBatch (wideBatch n) n).take received) = n := by
    rw [relCount, List.take_take, Nat.min_eq_left (by omega), serializeRelationBatch,
      List.take_left' (length_littleEndian 4 _), value_littleEndian (by omega)]
  rcases @framed_wrapped (serializeRelationBatch (wideBatch n) n)
    (littleEndian 4 (serializeRelationBatch cleared 0).length ++
      serializeRelationBatch cleared 0) with ⟨framed, message⟩
  have received : (fullData (serializeIncrementalBatch (wideBatch n) n cleared 0)).length =
      length % 2 ^ 32 ∧
      relCount (fullData (serializeIncrementalBatch (wideBatch n) n cleared 0)) = n := by
    rw [serializeIncrementalBatch, message, size]
    refine ⟨?_, count _ enough⟩
    rw [List.length_take, size]
    exact Nat.min_eq_left (Nat.mod_le _ _)
  have long : 8 ≤ (serializeIncrementalBatch (wideBatch n) n cleared 0).length := by
    simp only [serializeIncrementalBatch, List.length_append, length_littleEndian]
    omega
  have zeros := deserializeIncrementalBatch_cut ⟨long, framed⟩
    (by rw [received.1]; exact enough) (by rw [received.1, received.2]; exact cut) decoded
  rw [received.2] at zeros
  have first : (decodedFull.relations[0]?).map Relation.sqrtQ =
      (((wideBatch n).relations.take n)[0]?).map Relation.sqrtQ := by rw [same]
  have many : decodedFull.numRelations = n := by
    simpa [relations, wideBatch] using congrArg List.length same
  simp [relations, relation, many, zeros, wideBatch, positive] at first
  revert first
  decide +kernel

/-- The claim fails for a batch of `2 ^ 26` rows, which is well formed. -/
theorem not_decodes_wideBatch : (wideBatch (2 ^ 26)).Sendable ∧ ¬ ∃ ok decodedFull decodedPartial,
        deserializeIncrementalBatch (2 ^ 40)
            (serializeIncrementalBatch (wideBatch (2 ^ 26)) (2 ^ 26) cleared 0) cleared cleared =
          some (ok, decodedFull, decodedPartial) ∧
        decodedFull.relations = (wideBatch (2 ^ 26)).relations.take (2 ^ 26) :=
  ⟨wideBatch_sendable _,
    @wideBatch_lost (2 ^ 26) (16 + 97 * 2 ^ 26) rfl (by decide) (by decide) (by decide)
      (by decide) (2 ^ 40)⟩

end CudaMpqs.Serialization
