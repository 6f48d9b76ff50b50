import CudaMpqs.Foundation.Codec
import CudaMpqs.Common.HostRelationBatch

/-! # Relation files

`serialize_v2` and `deserialize_v2` of `relation_io.cpp`. The reader fills the
objects that it is given; `junk` is what its uninitialised locals hold, and an array
that does not fit `memory` throws, which is `none`. -/

namespace CudaMpqs.RelationIo

open ByteStream

/-! ## Arrays -/

section Vec

variable {α : Type}

def writeVec (codec : Codec α) (vec : List α) : List UInt8 :=
  littleEndian 8 vec.length ++ codec.encodeAll vec

def resize (codec : Codec α) (memory : Nat) (vec : List α) (n : Nat) : Option (List α) :=
  if memory < n * codec.width then none
  else some (vec.take n ++ List.replicate (n - vec.length) codec.zero)

/-- The bytes of an array that was resized, where there are any. -/
def readArray (codec : Codec α) (f : Stream) (vec : List α) : List α × Stream :=
  if 0 < vec.length then f.readItems codec vec else (vec, f)

def readVec (codec : Codec α) (memory junk : Nat) (f : Stream) (vec : List α) :
    Option (List α × Stream) := do
  let (n, f) := f.readNumber 8 junk
  let vec ← resize codec memory vec n
  return readArray codec f vec

structure Storable (codec : Codec α) (memory : Nat) (vec : List α) : Prop where
  fits : ∀ item ∈ vec, codec.Fits item
  count : vec.length < 256 ^ 8
  room : vec.length * codec.width ≤ memory

theorem resize_length {codec : Codec α} {memory n : Nat} (room : n * codec.width ≤ memory)
    (vec : List α) : ∃ resized, resize codec memory vec n = some resized ∧ resized.length = n := by
  refine ⟨_, if_neg (not_lt.mpr room), ?_⟩
  rw [List.length_append, List.length_take, List.length_replicate]
  omega

theorem readArray_encodeAll {codec : Codec α} {items resized : List α}
    (fits : ∀ item ∈ items, codec.Fits item) (length : resized.length = items.length)
    (rest : List UInt8) :
    readArray codec (Stream.ofFile (codec.encodeAll items ++ rest)) resized =
      (items, Stream.ofFile rest) := by
  unfold readArray
  by_cases some : 0 < resized.length
  · rw [if_pos some, Stream.readItems_encodeAll codec fits length]
  · have none : resized = [] := List.length_eq_zero_iff.mp (Nat.eq_zero_of_not_pos some)
    rw [none] at length
    rw [if_neg some, none, List.length_eq_zero_iff.mp length.symm]
    rfl

theorem readVec_writeVec {codec : Codec α} {memory : Nat} {items : List α}
    (storable : Storable codec memory items) (junk : Nat) (vec : List α)
    (rest : List UInt8) :
    readVec codec memory junk (Stream.ofFile (writeVec codec items ++ rest)) vec =
      some (items, Stream.ofFile rest) := by
  obtain ⟨resized, isResized, length⟩ := resize_length storable.room vec
  rw [readVec, writeVec, List.append_assoc, Stream.readNumber_littleEndian storable.count]
  simp only [isResized, Option.bind_eq_bind, Option.bind_some]
  rw [readArray_encodeAll storable.fits length]
  rfl

end Vec

/-! ## Batches -/

def uint512Codec : Codec UInt512 where
  width := 64
  zero := UInt512.ofUInt32 0
  encode := fun number => (Codec.bits 4).encodeAll number.limbs
  decode := fun bytes => ⟨(Codec.bits 4).decodeAll 16 bytes, Codec.length_decodeAll _ _ _⟩
  Fits := fun _ => True
  length_encode := by
    intro number
    rw [Codec.length_encodeAll, number.size]
    rfl
  decode_encode := by
    rintro ⟨limbs, size⟩ _
    have decoded := (Codec.bits 4).decodeAll_encodeAll (fun limb (_ : limb ∈ limbs) => trivial)
    rw [size] at decoded
    simp only [decoded]
  encode_decode := fun _ length => (Codec.bits 4).encodeAll_decodeAll length

def u8 : Codec (BitVec 8) := Codec.bits 1
def u32 : Codec (BitVec 32) := Codec.bits 4
def u64 : Codec (BitVec 64) := Codec.bits 8
def u128 : Codec (BitVec 128) := Codec.bits 16

def writeBatch (b : HostRelationBatch) : List UInt8 :=
  writeVec uint512Codec b.sqrtQ ++ (writeVec u8 b.signs ++ (writeVec u32 b.val2Exps ++
    (writeVec u128 b.largePrimes ++ (writeVec (Codec.number 8) b.factorOffsets ++
      (writeVec (Codec.number 4) b.factorIndices ++ writeVec u8 b.factorCounts)))))

def readBatch (memory : Nat) (junk : Nat → Nat) (f : Stream) (b : HostRelationBatch) :
    Option (HostRelationBatch × Stream) := do
  let (sqrtQ, f) ← readVec uint512Codec memory (junk 0) f b.sqrtQ
  let (signs, f) ← readVec u8 memory (junk 1) f b.signs
  let (val2Exps, f) ← readVec u32 memory (junk 2) f b.val2Exps
  let (largePrimes, f) ← readVec u128 memory (junk 3) f b.largePrimes
  let (factorOffsets, f) ← readVec (Codec.number 8) memory (junk 4) f b.factorOffsets
  let (factorIndices, f) ← readVec (Codec.number 4) memory (junk 5) f b.factorIndices
  let (factorCounts, f) ← readVec u8 memory (junk 6) f b.factorCounts
  return ({ b with
    sqrtQ, signs, val2Exps, largePrimes, factorOffsets, factorIndices, factorCounts }, f)

structure StorableBatch (memory : Nat) (b : HostRelationBatch) : Prop where
  sqrtQ : Storable uint512Codec memory b.sqrtQ
  signs : Storable u8 memory b.signs
  val2Exps : Storable u32 memory b.val2Exps
  largePrimes : Storable u128 memory b.largePrimes
  charBits : Storable u32 memory b.charBits
  factorOffsets : Storable (Codec.number 8) memory b.factorOffsets
  factorIndices : Storable (Codec.number 4) memory b.factorIndices
  factorCounts : Storable u8 memory b.factorCounts
  numRelations : b.numRelations < 256 ^ 8
  numFactors : b.numFactors < 256 ^ 8

variable {memory : Nat}

theorem readBatch_writeBatch {b : HostRelationBatch} (storable : StorableBatch memory b)
    (junk : Nat → Nat) (out : HostRelationBatch) (rest : List UInt8) :
    readBatch memory junk (Stream.ofFile (writeBatch b ++ rest)) out =
      some ({ b with
        charBits := out.charBits
        numRelations := out.numRelations
        numFactors := out.numFactors }, Stream.ofFile rest) := by
  simp only [readBatch, writeBatch, List.append_assoc, readVec_writeVec storable.sqrtQ,
    readVec_writeVec storable.signs, readVec_writeVec storable.val2Exps,
    readVec_writeVec storable.largePrimes, readVec_writeVec storable.factorOffsets,
    readVec_writeVec storable.factorIndices, readVec_writeVec storable.factorCounts,
    Option.bind_eq_bind, Option.bind_some]
  rfl

def cleared : HostRelationBatch := ⟨[], [], [], [], [], [], [], [], 0, 0⟩

/-! ## The two-batch format -/

structure V2Metadata where
  n : UInt512
  factorBase : List (BitVec 32)
  lpBound : BitVec 64
  sieveBound : BitVec 32
  auxPrimes : List (BitVec 64)
  tS : List (BitVec 64)
  r : BitVec 32
  hasCharBits : Bool
deriving DecidableEq

structure V2Contents where
  fullSmooths : HostRelationBatch
  partials : HostRelationBatch
  metadata : V2Metadata
deriving DecidableEq

def V2Contents.fresh : V2Contents :=
  ⟨cleared, cleared, ⟨UInt512.ofUInt32 0, [], 0, 0, [], [], 0, false⟩⟩

def V2_MAGIC : List UInt8 := [0x4D, 0x50, 0x51, 0x53, 0x5F, 0x56, 0x32, 0x00]

def FLAG_HAS_PARTIALS : Nat := 0x1
def FLAG_HAS_METADATA : Nat := 0x2
def FLAG_HAS_CHAR_BITS : Nat := 0x4

/-! ### Writing -/

def V2Contents.hasChar (contents : V2Contents) : Bool := 0 < contents.metadata.r.toNat

def V2Contents.hasPartials (contents : V2Contents) : Bool :=
  0 < contents.partials.numRelations

def V2Contents.flags (contents : V2Contents) : Nat :=
  FLAG_HAS_METADATA ||| (if contents.hasPartials then FLAG_HAS_PARTIALS else 0) |||
    (if contents.hasChar then FLAG_HAS_CHAR_BITS else 0)

def writeMetadata (hasChar : Bool) (metadata : V2Metadata) : List UInt8 :=
  let fbSize := metadata.factorBase.length % 2 ^ 32
  uint512Codec.encode metadata.n ++ (littleEndian 4 fbSize ++
    (u32.encodeAll (metadata.factorBase.take fbSize) ++ (u64.encode metadata.lpBound ++
      (u32.encode metadata.sieveBound ++ if hasChar then
          u32.encode metadata.r ++ (u64.encodeAll (metadata.auxPrimes.take metadata.r.toNat) ++
            u64.encodeAll (metadata.tS.take metadata.r.toNat))
        else []))))

def writeRelations (hasChar : Bool) (b : HostRelationBatch) : List UInt8 :=
  littleEndian 8 b.numRelations ++ (littleEndian 8 b.numFactors ++ (writeBatch b ++
    if hasChar then writeVec u32 b.charBits else []))

def serializeV2 (contents : V2Contents) : List UInt8 :=
  V2_MAGIC ++ (littleEndian 4 2 ++ (littleEndian 4 contents.flags ++
    (writeMetadata contents.hasChar contents.metadata ++
      (writeRelations contents.hasChar contents.fullSmooths ++
        if contents.hasPartials then writeRelations contents.hasChar contents.partials
        else []))))

/-! ### Reading -/

def readCharMetadata (memory : Nat) (f : Stream) (metadata : V2Metadata) :
    Option (V2Metadata × Stream) := do
  let (r, f) := f.readItem u32 metadata.r
  let auxPrimes ← resize u64 memory metadata.auxPrimes r.toNat
  let tS ← resize u64 memory metadata.tS r.toNat
  let (auxPrimes, f) := readArray u64 f auxPrimes
  let (tS, f) := readArray u64 f tS
  return ({ metadata with r, auxPrimes, tS }, f)

def readMetadata (memory : Nat) (junk : Nat → Nat) (hasChar : Bool) (f : Stream)
    (metadata : V2Metadata) : Option (V2Metadata × Stream) := do
  let (n, f) := f.readItem uint512Codec metadata.n
  let (fbSize, f) := f.readNumber 4 (junk 3)
  let factorBase ← resize u32 memory metadata.factorBase fbSize
  let (factorBase, f) := readArray u32 f factorBase
  let (lpBound, f) := f.readItem u64 metadata.lpBound
  let (sieveBound, f) := f.readItem u32 metadata.sieveBound
  let metadata := { metadata with n, factorBase, lpBound, sieveBound }
  if hasChar then readCharMetadata memory f metadata else return (metadata, f)

def readRelations (memory : Nat) (junk : Nat → Nat) (hasChar : Bool) (f : Stream)
    (b : HostRelationBatch) : Option (HostRelationBatch × Stream) := do
  let (nr, f) := f.readNumber 8 (junk 0)
  let (nf, f) := f.readNumber 8 (junk 1)
  let (b, f) ← readBatch memory (fun i => junk (i + 2)) f
    { b with numRelations := nr, numFactors := nf }
  if hasChar then
    let (charBits, f) ← readVec u32 memory (junk 9) f b.charBits
    return ({ b with charBits }, f)
  else return (b, f)

def readSections (memory : Nat) (junk : Nat → Nat) (flags : Nat) (f : Stream)
    (out : V2Contents) : Option (Bool × V2Contents) := do
  let hasChar := flags &&& FLAG_HAS_CHAR_BITS != 0
  let metadata := { out.metadata with hasCharBits := hasChar }
  let (metadata, f) ←
    if flags &&& FLAG_HAS_METADATA != 0 then readMetadata memory junk hasChar f metadata
    else pure (metadata, f)
  let (fullSmooths, f) ←
    readRelations memory (fun i => junk (i + 4)) hasChar f out.fullSmooths
  let (partials, f) ←
    if flags &&& FLAG_HAS_PARTIALS != 0 then
      readRelations memory (fun i => junk (i + 14)) hasChar f out.partials
    else pure (cleared, f)
  return (f.good, ⟨fullSmooths, partials, metadata⟩)

/-- The result and what it leaves in the objects; `none` when an allocation throws. -/
def deserializeV2 (memory : Nat) (junk : Nat → Nat) (file : List UInt8)
    (out : V2Contents) : Option (Bool × V2Contents) :=
  let (magic, f) := (Stream.ofFile file).read (littleEndian 8 (junk 0))
  if magic ≠ V2_MAGIC then some (false, out)
  else
    let (version, f) := f.readNumber 4 (junk 1)
    if version ≠ 2 then some (false, out)
    else
      let (flags, f) := f.readNumber 4 (junk 2)
      readSections memory junk flags f out

/-! ## What a written file restores -/

def restoreBatch (hasChar : Bool) (b out : HostRelationBatch) : HostRelationBatch :=
  { b with charBits := if hasChar then b.charBits else out.charBits }

def restoreMetadata (hasChar : Bool) (metadata out : V2Metadata) : V2Metadata :=
  { metadata with
    hasCharBits := hasChar
    r := if hasChar then metadata.r else out.r
    auxPrimes := if hasChar then metadata.auxPrimes else out.auxPrimes
    tS := if hasChar then metadata.tS else out.tS }

def V2Contents.restoreOver (contents out : V2Contents) : V2Contents where
  fullSmooths := restoreBatch contents.hasChar contents.fullSmooths out.fullSmooths
  partials :=
    if contents.hasPartials then
      restoreBatch contents.hasChar contents.partials out.partials
    else cleared
  metadata := restoreMetadata contents.hasChar contents.metadata out.metadata

structure V2Contents.Storable (memory : Nat) (contents : V2Contents) : Prop where
  fullSmooths : StorableBatch memory contents.fullSmooths
  partials : StorableBatch memory contents.partials
  factorBase : RelationIo.Storable u32 memory contents.metadata.factorBase
  fbSize : contents.metadata.factorBase.length < 256 ^ 4
  auxPrimes : RelationIo.Storable u64 memory contents.metadata.auxPrimes
  tS : RelationIo.Storable u64 memory contents.metadata.tS
  auxCount : contents.hasChar → contents.metadata.auxPrimes.length = contents.metadata.r.toNat
  tCount : contents.hasChar → contents.metadata.tS.length = contents.metadata.r.toNat

theorem readItem_bits {width : Nat} (item initial : BitVec (8 * width)) (rest : List UInt8) :
    (Stream.ofFile ((Codec.bits width).encode item ++ rest)).readItem (Codec.bits width)
      initial = (item, Stream.ofFile rest) :=
  Stream.readItem_encode (Codec.bits width) trivial initial rest

private theorem readCharMetadata_encode {r : BitVec 32} {auxPrimes tS : List (BitVec 64)}
    (auxStorable : Storable u64 memory auxPrimes) (tStorable : Storable u64 memory tS)
    (auxCount : auxPrimes.length = r.toNat) (tCount : tS.length = r.toNat) (metadata : V2Metadata)
    (rest : List UInt8) :
    readCharMetadata memory (Stream.ofFile (u32.encode r ++
        (u64.encodeAll auxPrimes ++ (u64.encodeAll tS ++ rest)))) metadata =
      some ({ metadata with r, auxPrimes, tS }, Stream.ofFile rest) := by
  have auxRoom := auxStorable.room
  have tRoom := tStorable.room
  rw [auxCount] at auxRoom
  rw [tCount] at tRoom
  obtain ⟨auxResized, auxIs, auxLength⟩ := resize_length auxRoom metadata.auxPrimes
  obtain ⟨tResized, tIs, tLength⟩ := resize_length tRoom metadata.tS
  rw [readCharMetadata, u32, readItem_bits]
  simp only [auxIs, tIs, Option.bind_eq_bind, Option.bind_some]
  rw [readArray_encodeAll auxStorable.fits (auxLength.trans auxCount.symm)]
  simp only
  rw [readArray_encodeAll tStorable.fits (tLength.trans tCount.symm)]
  rfl

variable {contents : V2Contents}

theorem readMetadata_writeMetadata (storable : contents.Storable memory) (junk : Nat → Nat)
    (out : V2Metadata) (rest : List UInt8) :
    readMetadata memory junk contents.hasChar
        (Stream.ofFile (writeMetadata contents.hasChar contents.metadata ++ rest))
        { out with hasCharBits := contents.hasChar } =
      some (restoreMetadata contents.hasChar contents.metadata out, Stream.ofFile rest) := by
  have fbSize : contents.metadata.factorBase.length % 2 ^ 32 =
      contents.metadata.factorBase.length := Nat.mod_eq_of_lt storable.fbSize
  obtain ⟨resized, isResized, length⟩ := resize_length storable.factorBase.room out.factorBase
  unfold readMetadata writeMetadata
  simp only [fbSize, List.take_length, List.append_assoc]
  rw [Stream.readItem_encode uint512Codec trivial]
  simp only [Stream.readNumber_littleEndian storable.fbSize, isResized,
    Option.bind_eq_bind, Option.bind_some,
    readArray_encodeAll storable.factorBase.fits length]
  rw [u64, readItem_bits]
  simp only
  rw [u32, readItem_bits]
  cases hasChar : contents.hasChar with
  | false => rfl
  | true =>
    have auxAll : contents.metadata.auxPrimes.take contents.metadata.r.toNat =
        contents.metadata.auxPrimes := by
      rw [← storable.auxCount hasChar, List.take_length]
    have tAll : contents.metadata.tS.take contents.metadata.r.toNat =
        contents.metadata.tS := by
      rw [← storable.tCount hasChar, List.take_length]
    simp only [if_true, auxAll, tAll, List.append_assoc]
    exact readCharMetadata_encode storable.auxPrimes storable.tS
      (storable.auxCount hasChar) (storable.tCount hasChar) _ rest

theorem readRelations_writeRelations {b : HostRelationBatch} (storable : StorableBatch memory b)
    (junk : Nat → Nat) (hasChar : Bool) (out : HostRelationBatch) (rest : List UInt8) :
    readRelations memory junk hasChar (Stream.ofFile (writeRelations hasChar b ++ rest)) out =
      some (restoreBatch hasChar b out, Stream.ofFile rest) := by
  unfold readRelations writeRelations
  simp only [List.append_assoc, Stream.readNumber_littleEndian storable.numRelations,
    Stream.readNumber_littleEndian storable.numFactors,
    readBatch_writeBatch storable, Option.bind_eq_bind, Option.bind_some]
  cases hasChar with
  | false => rfl
  | true =>
    simp only [if_true, readVec_writeVec storable.charBits, Option.bind_some]
    rfl

private theorem flags_spec (contents : V2Contents) : contents.flags < 256 ^ 4 ∧
      (contents.flags &&& FLAG_HAS_CHAR_BITS != 0) = contents.hasChar ∧
      (contents.flags &&& FLAG_HAS_METADATA != 0) = true ∧
      (contents.flags &&& FLAG_HAS_PARTIALS != 0) = contents.hasPartials := by
  unfold V2Contents.flags
  cases contents.hasChar <;> cases contents.hasPartials <;> decide

theorem deserializeV2_restoreOver (storable : contents.Storable memory) (junk : Nat → Nat)
    (out : V2Contents) (rest : List UInt8) :
    deserializeV2 memory junk (serializeV2 contents ++ rest) out =
      some (true, contents.restoreOver out) := by
  obtain ⟨flagsFit, charFlag, metadataFlag, partialsFlag⟩ := flags_spec contents
  unfold deserializeV2 serializeV2
  rw [List.append_assoc, Stream.read_append (by rw [length_littleEndian]; rfl)]
  simp only [ne_eq, not_true_eq_false, if_false, List.append_assoc,
    @Stream.readNumber_littleEndian 4 2 (by decide),
    Stream.readNumber_littleEndian flagsFit, readSections, charFlag, metadataFlag,
    partialsFlag, if_true, readMetadata_writeMetadata storable, Option.bind_eq_bind,
    Option.bind_some, readRelations_writeRelations storable.fullSmooths]
  cases hasPartials : contents.hasPartials with
  | true =>
    simp only [if_true, readRelations_writeRelations storable.partials, Option.bind_some,
      V2Contents.restoreOver, hasPartials]
    rfl
  | false =>
    simp only [Bool.false_eq_true, if_false, V2Contents.restoreOver, hasPartials]
    rfl

/-! ## Round trip -/

/-- The contents as a fresh object receives them: the character fields come with
`r > 0` only, and a batch without partial relations is cleared. -/
def V2Contents.restored (contents : V2Contents) : V2Contents where
  fullSmooths :=
    { contents.fullSmooths with
      charBits := if contents.hasChar then contents.fullSmooths.charBits else [] }
  partials :=
    if contents.hasPartials then
      { contents.partials with
        charBits := if contents.hasChar then contents.partials.charBits else [] }
    else cleared
  metadata :=
    { contents.metadata with
      hasCharBits := contents.hasChar
      auxPrimes := if contents.hasChar then contents.metadata.auxPrimes else []
      tS := if contents.hasChar then contents.metadata.tS else [] }

theorem restoreMetadata_fresh (contents : V2Contents) :
    restoreMetadata contents.hasChar contents.metadata V2Contents.fresh.metadata =
      contents.restored.metadata := by
  have r : (if contents.hasChar then contents.metadata.r else 0) = contents.metadata.r := by
    cases hasChar : contents.hasChar with
    | true => rfl
    | false =>
      have none : contents.metadata.r.toNat = 0 :=
        Nat.eq_zero_of_not_pos (of_decide_eq_false hasChar)
      exact (BitVec.eq_of_toNat_eq none).symm
  change ({ contents.metadata with
    hasCharBits := contents.hasChar
    r := if contents.hasChar then contents.metadata.r else 0
    auxPrimes := if contents.hasChar then contents.metadata.auxPrimes else []
    tS := if contents.hasChar then contents.metadata.tS else [] } : V2Metadata) = _
  rw [r]
  rfl

theorem restoreOver_fresh (contents : V2Contents) :
    contents.restoreOver .fresh = contents.restored := by
  rw [V2Contents.restoreOver]
  change V2Contents.mk _ _ (restoreMetadata contents.hasChar contents.metadata
    V2Contents.fresh.metadata) = _
  rw [restoreMetadata_fresh]
  rfl

/-- Reading a written file into fresh objects restores its contents. -/
theorem deserializeV2_serializeV2 (memory : Nat) (junk : Nat → Nat)
    (contents : V2Contents) (storable : contents.Storable memory) (rest : List UInt8) :
    deserializeV2 memory junk (serializeV2 contents ++ rest) .fresh =
      some (true, contents.restored) := by
  rw [deserializeV2_restoreOver storable, restoreOver_fresh]

def normContents : V2Contents where
  fullSmooths := HostRelationBatch.empty.push
    ⟨UInt512.ofUInt32 5, 0xFF, 3, 1, 0, [(2, 1), (0, 2)]⟩
  partials := .empty
  metadata := ⟨UInt512.ofUInt32 91, [2, 3, 5], 0, 1000, [17], [4], 0, true⟩

theorem deserializeV2_normContents :
    ∃ read, deserializeV2 (2 ^ 40) (fun _ => 0) (serializeV2 normContents) .fresh =
        some (true, read) ∧
      read.fullSmooths.charBits ≠ normContents.fullSmooths.charBits ∧
      read.partials ≠ normContents.partials ∧
      read.metadata.hasCharBits ≠ normContents.metadata.hasCharBits ∧
      read.metadata.auxPrimes ≠ normContents.metadata.auxPrimes ∧
      read.metadata.tS ≠ normContents.metadata.tS := by
  refine ⟨normContents.restored, ?_, ?_, ?_, ?_, ?_, ?_⟩
  · decide +kernel
  · decide
  · decide
  · decide
  · decide
  · decide

def branchContents : V2Contents where
  fullSmooths := HostRelationBatch.empty.push
    ⟨UInt512.ofUInt32 5, 0xFF, 3, 1, 6, [(2, 1), (0, 2)]⟩
  partials := HostRelationBatch.empty.push
    ⟨UInt512.ofUInt32 7, 1, 2, 101, 1, [(1, 3)]⟩
  metadata := ⟨UInt512.ofUInt32 91, [2, 3, 5], 5000, 1000, [5003], [4], 1, true⟩

theorem storable_bits {width : Nat} {vec : List (BitVec (8 * width))} (count : vec.length < 256 ^ 8)
    (room : vec.length * width ≤ memory) : Storable (Codec.bits width) memory vec :=
  ⟨fun _ _ => trivial, count, room⟩

private theorem storable_number {width : Nat} {vec : List Nat}
    (fits : ∀ item ∈ vec, item < 256 ^ width)
    (count : vec.length < 256 ^ 8) (room : vec.length * width ≤ memory) :
    Storable (Codec.number width) memory vec :=
  ⟨fits, count, room⟩

theorem storable_branchContents : branchContents.Storable (2 ^ 40) where
  fullSmooths :=
    { sqrtQ := ⟨fun _ _ => trivial, by decide, by decide⟩
      signs := storable_bits (by decide) (by decide)
      val2Exps := storable_bits (by decide) (by decide)
      largePrimes := storable_bits (by decide) (by decide)
      charBits := storable_bits (by decide) (by decide)
      factorOffsets := storable_number (by decide) (by decide) (by decide)
      factorIndices := storable_number (by decide) (by decide) (by decide)
      factorCounts := storable_bits (by decide) (by decide)
      numRelations := by decide
      numFactors := by decide }
  partials :=
    { sqrtQ := ⟨fun _ _ => trivial, by decide, by decide⟩
      signs := storable_bits (by decide) (by decide)
      val2Exps := storable_bits (by decide) (by decide)
      largePrimes := storable_bits (by decide) (by decide)
      charBits := storable_bits (by decide) (by decide)
      factorOffsets := storable_number (by decide) (by decide) (by decide)
      factorIndices := storable_number (by decide) (by decide) (by decide)
      factorCounts := storable_bits (by decide) (by decide)
      numRelations := by decide
      numFactors := by decide }
  factorBase := storable_bits (by decide) (by decide)
  fbSize := by decide
  auxPrimes := storable_bits (by decide) (by decide)
  tS := storable_bits (by decide) (by decide)
  auxCount := by decide
  tCount := by decide

theorem deserializeV2_branchContents :
    deserializeV2 (2 ^ 40) (fun _ => 0) (serializeV2 branchContents ++ [0x4D, 0x50]) .fresh =
      some (true, branchContents.restored) :=
  deserializeV2_serializeV2 (2 ^ 40) (fun _ => 0) branchContents storable_branchContents _

end CudaMpqs.RelationIo
