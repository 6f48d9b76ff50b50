import CudaMpqs.Foundation.Layout
import CudaMpqs.Common.RelationIo

/-! # The layout of a relation file

Where `deserialize_v2` finds the sections of any file behind the header, when their array
counts throw, and what the objects hold afterwards. -/

namespace CudaMpqs.RelationIo

open ByteStream Stream

variable {memory place : Nat} {bytes : List UInt8} {f : Stream}

/-! ## Arrays -/

section Vec

variable {α : Type}

def vecPiece (codec : Codec α) (junk : Nat) : Piece := .arrays 8 codec.width 1 junk

@[simp] theorem length_readArray (codec : Codec α) (f : Stream) (vec : List α) :
    (readArray codec f vec).1.length = vec.length := by
  unfold readArray
  split
  · exact length_readItems codec f vec
  · rfl

theorem at_readArray (here : At bytes place f) (codec : Codec α) (vec : List α) :
    At bytes (place + vec.length * codec.width) (readArray codec f vec).2 := by
  unfold readArray
  split
  next => exact here.readItems codec vec
  next none =>
    rw [Nat.eq_zero_of_not_pos none, Nat.zero_mul]
    exact here

private theorem readArray_good {codec : Codec α} {vec : List α}
    (good : (readArray codec f vec).2.good = true) :
    f.rest = codec.encodeAll (readArray codec f vec).1 ++ (readArray codec f vec).2.rest := by
  unfold readArray at good ⊢
  split at good
  next some =>
    rw [if_pos some]
    exact (readItems_good good).2
  next none =>
    rw [if_neg none, List.length_eq_zero_iff.mp (Nat.eq_zero_of_not_pos none)]
    rfl

theorem readArray_follows {β : Type} {codec : Codec α} (here : At bytes place f)
    {pieces : List Piece} {holds : β → Prop} {encodes : β → List UInt8 → Prop}
    {outcome : Option (β × Stream)} {vec : List α} {size : Nat}
    (sized : size = vec.length * codec.width)
    (continues : Follows memory bytes pieces (place + size) holds (fun result back =>
        encodes result (codec.encodeAll (readArray codec f vec).1 ++ back)) outcome) :
    Follows memory bytes (.fields size :: pieces) place holds encodes outcome := by
  subst sized
  refine Follows.fields (fun read => read = codec.encodeAll (readArray codec f vec).1)
    (at_readArray here codec vec) (fun good => ⟨_, ?_, rfl⟩)
    (continues.imp (fun _ held => held) fun _ _ _ encoded _ isRead => isRead ▸ encoded)
  rw [← here.rest]
  exact readArray_good good

theorem resize_eq_none {codec : Codec α} {n : Nat} (large : memory < n * codec.width)
    (vec : List α) : resize codec memory vec n = none :=
  if_pos large

theorem readVec_follows (here : At bytes place f) (codec : Codec α) (junk : Nat) (vec : List α) :
    Follows memory bytes [vecPiece codec junk] place
      (fun items => items.length = numberAt bytes place 8 junk)
      (fun items front => front = writeVec codec items)
      (readVec codec memory junk f vec) := by
  have number := here.readNumber_numberAt 8 junk
  have counted := here.readNumber 8 junk
  unfold readVec
  rw [← Prod.eta (f.readNumber 8 junk)]
  simp only [number]
  rcases Nat.lt_or_ge memory (numberAt bytes place 8 junk * codec.width) with large | room
  · rw [resize_eq_none large]
    exact Follows.refused large
  · obtain ⟨resized, isResized, length⟩ := resize_length room vec
    rw [isResized]
    change Follows _ _ _ _ _ _ (some ((readArray codec (f.readNumber 8 junk).2 resized).1,
      (readArray codec (f.readNumber 8 junk).2 resized).2))
    refine Follows.arrays room (Follows.number here 8 junk
      (readArray_follows counted (by rw [length, Nat.one_mul]) ?_))
    refine Follows.done ?_ ?_ ?_
    · rw [Nat.one_mul, ← length]
      exact at_readArray counted codec resized
    · rw [length_readArray, length]
    · rw [writeVec, length_readArray, length, List.append_nil]

end Vec

/-! ## Sections -/

def batchPieces (junk : Nat → Nat) : List Piece :=
  [vecPiece uint512Codec (junk 0), vecPiece u8 (junk 1), vecPiece u32 (junk 2),
    vecPiece u128 (junk 3), vecPiece (Codec.number 8) (junk 4),
    vecPiece (Codec.number 4) (junk 5), vecPiece u8 (junk 6)]

theorem readBatch_follows (here : At bytes place f) (junk : Nat → Nat) (b : HostRelationBatch) :
    Follows memory bytes (batchPieces junk) place
      (fun read => read.charBits = b.charBits ∧ read.numRelations = b.numRelations ∧
        read.numFactors = b.numFactors)
      (fun read front => front = writeBatch read) (readBatch memory junk f b) := by
  unfold readBatch
  refine Follows.bind (readVec_follows here _ _ _) fun sqrtQ f here _ => ?_
  refine Follows.bind (readVec_follows here _ _ _) fun signs f here _ => ?_
  refine Follows.bind (readVec_follows here _ _ _) fun val2Exps f here _ => ?_
  refine Follows.bind (readVec_follows here _ _ _) fun largePrimes f here _ => ?_
  refine Follows.bind (readVec_follows here _ _ _) fun factorOffsets f here _ => ?_
  refine Follows.bind (readVec_follows here _ _ _) fun factorIndices f here _ => ?_
  refine Follows.bind (readVec_follows here _ _ _) fun factorCounts f here _ => ?_
  refine Follows.done here ⟨rfl, rfl, rfl⟩ ?_
  rintro _ rfl _ rfl _ rfl _ rfl _ rfl _ rfl _ rfl
  simp only [writeBatch, List.append_nil]

def countedPieces (junk : Nat → Nat) : List Piece :=
  .fields 8 :: .fields 8 :: batchPieces fun i => junk (i + 2)

def relationPieces (junk : Nat → Nat) (hasChar : Bool) : List Piece :=
  countedPieces junk ++ if hasChar then [vecPiece u32 (junk 9)] else []

def charBitsAt (bytes : List UInt8) (junk : Nat → Nat) (place : Nat) : Nat :=
  numberAt bytes (endOf bytes (countedPieces junk) place) 8 (junk 9)

theorem readRelations_follows (here : At bytes place f) (junk : Nat → Nat) (hasChar : Bool)
    (b : HostRelationBatch) :
    Follows memory bytes (relationPieces junk hasChar) place
      (fun read => if hasChar then read.charBits.length = charBitsAt bytes junk place
        else read.charBits = b.charBits)
      (fun read front => front = writeRelations hasChar read)
      (readRelations memory junk hasChar f b) := by
  unfold readRelations
  rw [← Prod.eta (f.readNumber 8 (junk 0)), here.readNumber_numberAt]
  have relations := here.readNumber 8 (junk 0)
  simp only
  rw [← Prod.eta ((f.readNumber 8 (junk 0)).2.readNumber 8 (junk 1)), relations.readNumber_numberAt]
  have factors := relations.readNumber 8 (junk 1)
  refine Follows.number here 8 (junk 0) (Follows.number relations 8 (junk 1) ?_)
  refine Follows.bind (readBatch_follows factors _ _) fun read f here held => ?_
  obtain ⟨charBits, numRelations, numFactors⟩ := held
  cases hasChar with
  | false =>
    refine Follows.done here charBits ?_
    rintro _ rfl
    simp only [writeRelations, numRelations, numFactors, List.append_nil,
      Bool.false_eq_true, if_false]
  | true =>
    refine Follows.bind (readVec_follows here _ _ _) fun bits f here counted => ?_
    refine Follows.done here counted ?_
    rintro _ rfl _ rfl
    simp only [writeRelations, writeBatch, numRelations, numFactors, List.append_nil, if_true]

/-! ## Metadata -/

theorem readItem_bits_toNat (here : At bytes place f) {width : Nat} (initial : BitVec (8 * width)) :
    (f.readItem (Codec.bits width) initial).1.toNat = numberAt bytes place width initial.toNat := by
  have small := numberAt_lt bytes place width initial.toNat
  have number := here.readNumber_numberAt width initial.toNat
  change value (f.read (littleEndian width initial.toNat)).1 % 2 ^ (8 * width) = _
  change value (f.read (littleEndian width initial.toNat)).1 = _ at number
  rw [number, Nat.pow_mul, Nat.mod_eq_of_lt small]

theorem readCharMetadata_follows (here : At bytes place f) (metadata : V2Metadata) :
    Follows memory bytes [.arrays 4 8 2 metadata.r.toNat] place
      (fun read => ∃ r auxPrimes tS, read = { metadata with r, auxPrimes, tS } ∧
        r.toNat = numberAt bytes place 4 metadata.r.toNat ∧
        auxPrimes.length = r.toNat ∧ tS.length = r.toNat)
      (fun read front => front = u32.encode read.r ++
        (u64.encodeAll (read.auxPrimes.take read.r.toNat) ++
          u64.encodeAll (read.tS.take read.r.toNat)))
      (readCharMetadata memory f metadata) := by
  have number : (f.readItem u32 metadata.r).1.toNat =
      numberAt bytes place 4 metadata.r.toNat := @readItem_bits_toNat _ _ _ here 4 metadata.r
  have counted := here.readItem u32 metadata.r
  unfold readCharMetadata
  rw [← Prod.eta (f.readItem u32 metadata.r)]
  simp only
  rcases Nat.lt_or_ge memory ((f.readItem u32 metadata.r).1.toNat * 8) with large | room
  · rw [resize_eq_none large]
    exact Follows.refused (number ▸ large)
  · obtain ⟨aux, auxIs, auxLength⟩ := @resize_length _ u64 _ _ room metadata.auxPrimes
    obtain ⟨t, tIs, tLength⟩ := @resize_length _ u64 _ _ room metadata.tS
    have auxSize : numberAt bytes place 4 metadata.r.toNat * 8 = aux.length * u64.width := by
      rw [auxLength, number]
      rfl
    have tSize : numberAt bytes place 4 metadata.r.toNat * 8 = t.length * u64.width := by
      rw [tLength, number]
      rfl
    have auxRead := at_readArray counted u64 aux
    have tRead := at_readArray auxRead u64 t
    rw [← auxSize] at auxRead tRead
    rw [← tSize] at tRead
    rw [auxIs, tIs]
    refine Follows.arrays (number ▸ room) ?_
    refine @Follows.item _ _ _ _ _ u32 _ here _ _ _ _ metadata.r ?_
    rw [Nat.two_mul]
    refine Follows.join (readArray_follows counted auxSize (readArray_follows auxRead tSize ?_))
    refine Follows.done tRead ⟨_, _, _, rfl, number, ?_, ?_⟩ ?_
    · rw [length_readArray, auxLength]
    · rw [length_readArray, tLength]
    · rw [List.append_nil, List.take_of_length_le, List.take_of_length_le]
      · rw [length_readArray, tLength]
      · rw [length_readArray, auxLength]

def fixedPieces (junk : Nat → Nat) : List Piece :=
  [.fields 64, .arrays 4 4 1 (junk 3), .fields 8, .fields 4]

def metadataPieces (junk : Nat → Nat) (hasChar : Bool) : List Piece :=
  fixedPieces junk ++ if hasChar then [.arrays 4 8 2 0] else []

def auxCountAt (bytes : List UInt8) (junk : Nat → Nat) (place : Nat) : Nat :=
  numberAt bytes (endOf bytes (fixedPieces junk) place) 4 0

theorem readMetadata_follows (here : At bytes place f) (junk : Nat → Nat) (hasChar : Bool)
    {metadata : V2Metadata} (fresh : metadata.r = 0) :
    Follows memory bytes (metadataPieces junk hasChar) place
      (fun read => read.hasCharBits = metadata.hasCharBits ∧ if hasChar then
          read.r.toNat = auxCountAt bytes junk place ∧ read.auxPrimes.length = read.r.toNat ∧
            read.tS.length = read.r.toNat
        else read.r = 0 ∧ read.auxPrimes = metadata.auxPrimes ∧ read.tS = metadata.tS)
      (fun read front => front = writeMetadata hasChar read)
      (readMetadata memory junk hasChar f metadata) := by
  have afterN := here.readItem uint512Codec metadata.n
  have count := afterN.readNumber_numberAt 4 (junk 3)
  have counted := afterN.readNumber 4 (junk 3)
  unfold readMetadata
  simp only [count]
  refine @Follows.item _ _ _ _ _ uint512Codec _ here _ _ _ _ metadata.n ?_
  rcases Nat.lt_or_ge memory (numberAt bytes (place + uint512Codec.width) 4 (junk 3) * 4)
    with large | room
  · rw [resize_eq_none large]
    exact Follows.refused large
  · obtain ⟨resized, isResized, length⟩ := @resize_length _ u32 _ _ room metadata.factorBase
    have size : 1 * (numberAt bytes (place + uint512Codec.width) 4 (junk 3) * 4) =
        resized.length * u32.width := by
      rw [length, Nat.one_mul]
      rfl
    have baseRead := at_readArray counted u32 resized
    rw [← size] at baseRead
    have lpRead := baseRead.readItem u64 metadata.lpBound
    have sieveRead := lpRead.readItem u32 metadata.sieveBound
    have whole := length_readArray u32
      ((f.readItem uint512Codec metadata.n).2.readNumber 4 (junk 3)).2 resized
    rw [isResized]
    refine Follows.arrays room (Follows.number afterN 4 (junk 3)
      (readArray_follows counted size ?_))
    refine @Follows.item _ _ _ _ _ u64 _ baseRead _ _ _ _ metadata.lpBound ?_
    refine @Follows.item _ _ _ _ _ u32 _ lpRead _ _ _ _ metadata.sieveBound ?_
    simp only [Option.bind_eq_bind, Option.bind_some]
    clear lpRead baseRead counted size
    generalize f.readItem uint512Codec metadata.n = first at *
    obtain ⟨n, afterFirst⟩ := first
    generalize readArray u32 _ resized = base at *
    obtain ⟨factorBase, afterBase⟩ := base
    generalize afterBase.readItem u64 metadata.lpBound = lp at *
    obtain ⟨lpBound, afterLp⟩ := lp
    generalize afterLp.readItem u32 metadata.sieveBound = sieve at *
    obtain ⟨sieveBound, afterSieve⟩ := sieve
    have counts : factorBase.length = numberAt bytes (place + uint512Codec.width) 4 (junk 3) :=
      whole.trans length
    have small : factorBase.length % 2 ^ 32 = factorBase.length :=
      Nat.mod_eq_of_lt (counts ▸ numberAt_lt bytes _ 4 (junk 3))
    have all : factorBase.take (factorBase.length % 2 ^ 32) = factorBase := by
      rw [small, List.take_length]
    have zero : metadata.r.toNat = 0 := by
      rw [fresh]
      rfl
    cases hasChar with
    | false =>
      refine Follows.done sieveRead ⟨rfl, fresh, rfl, rfl⟩ ?_
      simp only [writeMetadata, all, Bool.false_eq_true, if_false]
      rw [small, counts]
    | true =>
      have char := @readCharMetadata_follows memory _ _ _ sieveRead
        { metadata with n, factorBase, lpBound, sieveBound }
      simp only [zero] at char
      refine char.imp ?_ ?_
      · rintro read ⟨r, auxPrimes, tS, rfl, number, auxLength, tLength⟩
        refine ⟨rfl, ?_⟩
        rw [if_pos rfl]
        exact ⟨number, auxLength, tLength⟩
      · rintro read front ⟨r, auxPrimes, tS, rfl, _⟩ rfl
        simp only [writeMetadata, all, if_true]
        rw [small, counts]

/-! ## The sections -/

def metadataSection (junk : Nat → Nat) (flags : Nat) : List Piece :=
  if flags &&& FLAG_HAS_METADATA != 0 then
    metadataPieces junk (flags &&& FLAG_HAS_CHAR_BITS != 0)
  else []

def smoothSection (junk : Nat → Nat) (flags : Nat) : List Piece :=
  relationPieces (fun i => junk (i + 4)) (flags &&& FLAG_HAS_CHAR_BITS != 0)

def partialSection (junk : Nat → Nat) (flags : Nat) : List Piece :=
  if flags &&& FLAG_HAS_PARTIALS != 0 then
    relationPieces (fun i => junk (i + 14)) (flags &&& FLAG_HAS_CHAR_BITS != 0)
  else []

def sectionPieces (junk : Nat → Nat) (flags : Nat) : List Piece :=
  metadataSection junk flags ++ (smoothSection junk flags ++ partialSection junk flags)

def writeSections (flags : Nat) (contents : V2Contents) : List UInt8 :=
  let hasChar := flags &&& FLAG_HAS_CHAR_BITS != 0
  (if flags &&& FLAG_HAS_METADATA != 0 then writeMetadata hasChar contents.metadata else []) ++
    (writeRelations hasChar contents.fullSmooths ++
      if flags &&& FLAG_HAS_PARTIALS != 0 then writeRelations hasChar contents.partials
      else [])

def auxCount (bytes : List UInt8) (junk : Nat → Nat) (flags place : Nat) : Nat :=
  if flags &&& FLAG_HAS_METADATA != 0 && flags &&& FLAG_HAS_CHAR_BITS != 0 then
    auxCountAt bytes junk place
  else 0

def smoothBits (bytes : List UInt8) (junk : Nat → Nat) (flags place : Nat) : Nat :=
  if flags &&& FLAG_HAS_CHAR_BITS != 0 then
    charBitsAt bytes (fun i => junk (i + 4)) (endOf bytes (metadataSection junk flags) place)
  else 0

def partialBits (bytes : List UInt8) (junk : Nat → Nat) (flags place : Nat) : Nat :=
  if flags &&& FLAG_HAS_PARTIALS != 0 && flags &&& FLAG_HAS_CHAR_BITS != 0 then
    charBitsAt bytes (fun i => junk (i + 14))
      (endOf bytes (metadataSection junk flags ++ smoothSection junk flags) place)
  else 0

structure Filled (bytes : List UInt8) (junk : Nat → Nat) (flags place : Nat)
    (contents : V2Contents) : Prop where
  hasCharBits : contents.metadata.hasCharBits = (flags &&& FLAG_HAS_CHAR_BITS != 0)
  r : contents.metadata.r.toNat = auxCount bytes junk flags place
  auxPrimes : contents.metadata.auxPrimes.length = auxCount bytes junk flags place
  tS : contents.metadata.tS.length = auxCount bytes junk flags place
  smoothBits : contents.fullSmooths.charBits.length = smoothBits bytes junk flags place
  partialBits : contents.partials.charBits.length = partialBits bytes junk flags place
  noMetadata : (flags &&& FLAG_HAS_METADATA != 0) = false → contents.metadata =
    { V2Contents.fresh.metadata with hasCharBits := contents.metadata.hasCharBits }
  noPartials : (flags &&& FLAG_HAS_PARTIALS != 0) = false → contents.partials = cleared

section Reading

variable (memory : Nat) (junk : Nat → Nat) (flags : Nat) (f : Stream)

def readMetadataSection : Option (V2Metadata × Stream) :=
  let hasChar := flags &&& FLAG_HAS_CHAR_BITS != 0
  let metadata := { V2Contents.fresh.metadata with hasCharBits := hasChar }
  if flags &&& FLAG_HAS_METADATA != 0 then readMetadata memory junk hasChar f metadata
  else some (metadata, f)

def readPartialSection : Option (HostRelationBatch × Stream) :=
  if flags &&& FLAG_HAS_PARTIALS != 0 then
    readRelations memory (fun i => junk (i + 14)) (flags &&& FLAG_HAS_CHAR_BITS != 0) f cleared
  else some (cleared, f)

def readContents : Option (V2Contents × Stream) := do
  let (metadata, f) ← readMetadataSection memory junk flags f
  let (fullSmooths, f) ← readRelations memory (fun i => junk (i + 4))
    (flags &&& FLAG_HAS_CHAR_BITS != 0) f cleared
  let (partials, f) ← readPartialSection memory junk flags f
  return (⟨fullSmooths, partials, metadata⟩, f)

theorem readSections_fresh : readSections memory junk flags f .fresh =
      (readContents memory junk flags f).map fun read => (read.2.good, read.1) := by
  unfold readSections readContents readMetadataSection readPartialSection
  simp only [Option.bind_eq_bind, Option.map_bind, Function.comp_def]
  cases flags &&& FLAG_HAS_METADATA != 0 <;> cases flags &&& FLAG_HAS_PARTIALS != 0 <;> rfl

end Reading

theorem readMetadataSection_follows (here : At bytes place f) (junk : Nat → Nat) (flags : Nat) :
    Follows memory bytes (metadataSection junk flags) place
      (fun read => read.hasCharBits = (flags &&& FLAG_HAS_CHAR_BITS != 0) ∧
        read.r.toNat = auxCount bytes junk flags place ∧
        read.auxPrimes.length = auxCount bytes junk flags place ∧
        read.tS.length = auxCount bytes junk flags place ∧
        ((flags &&& FLAG_HAS_METADATA != 0) = false → read =
          { V2Contents.fresh.metadata with hasCharBits := read.hasCharBits }))
      (fun read front => front = if flags &&& FLAG_HAS_METADATA != 0 then
        writeMetadata (flags &&& FLAG_HAS_CHAR_BITS != 0) read else [])
      (readMetadataSection memory junk flags f) := by
  unfold metadataSection auxCount readMetadataSection
  generalize (flags &&& FLAG_HAS_CHAR_BITS != 0) = hasChar
  cases flags &&& FLAG_HAS_METADATA != 0 with
  | false => exact Follows.done here ⟨rfl, rfl, rfl, rfl, fun _ => rfl⟩ rfl
  | true =>
    have reads := @readMetadata_follows memory _ _ _ here junk hasChar
      { V2Contents.fresh.metadata with hasCharBits := hasChar } rfl
    refine reads.imp ?_ fun _ _ _ isFront => isFront
    rintro read ⟨bits, counts⟩
    cases hasChar with
    | false =>
      obtain ⟨r, auxPrimes, tS⟩ := counts
      refine ⟨bits, ?_, ?_, ?_, nofun⟩
      · rw [r]
        rfl
      · rw [auxPrimes]
        rfl
      · rw [tS]
        rfl
    | true =>
      obtain ⟨r, auxPrimes, tS⟩ := counts
      exact ⟨bits, r, auxPrimes.trans r, tS.trans r, nofun⟩

private theorem readPartialSection_follows (here : At bytes place f) (junk : Nat → Nat)
    (flags : Nat) :
    Follows memory bytes (partialSection junk flags) place (fun read => read.charBits.length =
          (if flags &&& FLAG_HAS_PARTIALS != 0 && flags &&& FLAG_HAS_CHAR_BITS != 0 then
            charBitsAt bytes (fun i => junk (i + 14)) place
          else 0) ∧
        ((flags &&& FLAG_HAS_PARTIALS != 0) = false → read = cleared))
      (fun read front => front = if flags &&& FLAG_HAS_PARTIALS != 0 then
        writeRelations (flags &&& FLAG_HAS_CHAR_BITS != 0) read else [])
      (readPartialSection memory junk flags f) := by
  unfold partialSection readPartialSection
  generalize (flags &&& FLAG_HAS_CHAR_BITS != 0) = hasChar
  cases flags &&& FLAG_HAS_PARTIALS != 0 with
  | false => exact Follows.done here ⟨rfl, fun _ => rfl⟩ rfl
  | true =>
    have reads := @readRelations_follows memory _ _ _ here (fun i => junk (i + 14)) hasChar
      cleared
    refine reads.imp ?_ fun _ _ _ isFront => isFront
    intro read held
    cases hasChar with
    | false =>
      refine ⟨?_, nofun⟩
      rw [held]
      rfl
    | true =>
      refine ⟨?_, nofun⟩
      simpa only [Bool.and_self, if_true] using held

theorem readContents_follows (here : At bytes place f) (junk : Nat → Nat) (flags : Nat) :
    Follows memory bytes (sectionPieces junk flags) place (Filled bytes junk flags place)
      (fun contents front => front = writeSections flags contents)
      (readContents memory junk flags f) := by
  unfold readContents
  refine Follows.bind (readMetadataSection_follows here junk flags)
    fun metadata f here ⟨bits, r, auxPrimes, tS, noMetadata⟩ => ?_
  refine Follows.bind (readRelations_follows here _ _ _) fun smooths f here smoothHeld => ?_
  have last := @readPartialSection_follows memory _ _ _ here junk flags
  rw [← List.append_nil (partialSection junk flags)]
  refine Follows.bind last fun partials f here ⟨partialHeld, noPartials⟩ => ?_
  have smoothBits : smooths.charBits.length = smoothBits bytes junk flags place := by
    unfold RelationIo.smoothBits
    split
    next hasChar => rwa [if_pos hasChar] at smoothHeld
    next none =>
      rw [if_neg none] at smoothHeld
      rw [smoothHeld]
      rfl
  refine Follows.done here ⟨bits, r, auxPrimes, tS, smoothBits, ?_, noMetadata, noPartials⟩ ?_
  · rw [partialHeld, partialBits, endOf_append]
  · rintro _ rfl _ rfl _ rfl
    simp only [writeSections, List.append_nil]

/-! ## The file -/

def HasHeader (file : List UInt8) : Prop :=
  file.take 8 = V2_MAGIC ∧ value ((file.drop 8).take 4) = 2

def flagsOf (file : List UInt8) : Nat := value ((file.drop 12).take 4)

theorem deserializeV2_header {file : List UInt8} (long : 16 ≤ file.length) (junk : Nat → Nat)
    (out : V2Contents) :
    (¬ HasHeader file → deserializeV2 memory junk file out = some (false, out)) ∧
      (HasHeader file → ∃ f, At file 16 f ∧
        deserializeV2 memory junk file out = readSections memory junk (flagsOf file) f out) := by
  have start := At.ofFile file
  have magic := start.read (littleEndian 8 (junk 0))
  have version := magic.readNumber 4 (junk 1)
  have flags := version.readNumber 4 (junk 2)
  have magicIs : (Stream.ofFile file).read (littleEndian 8 (junk 0)) =
      (file.take 8, ((Stream.ofFile file).read (littleEndian 8 (junk 0))).2) := by
    refine Prod.ext ?_ rfl
    have read := @At.read_eq _ _ _ start (littleEndian 8 (junk 0))
      (by rw [length_littleEndian]; omega)
    rwa [length_littleEndian, List.drop_zero] at read
  rw [length_littleEndian] at magic version flags
  have versionIs := magic.readNumber_eq (junk 1) (Nat.le_trans (by decide : 0 + 8 + 4 ≤ 16) long)
  have flagsAre := version.readNumber_eq (junk 2)
    (Nat.le_trans (by decide : 0 + 8 + 4 + 4 ≤ 16) long)
  unfold deserializeV2
  rw [magicIs]
  simp only [versionIs, flagsAre, ne_eq]
  by_cases isMagic : file.take 8 = V2_MAGIC
  · rw [if_neg (not_not.mpr isMagic)]
    by_cases isVersion : value ((file.drop 8).take 4) = 2
    · rw [if_neg (not_not.mpr isVersion)]
      exact ⟨fun none => absurd ⟨isMagic, isVersion⟩ none, fun _ => ⟨_, flags, rfl⟩⟩
    · rw [if_pos isVersion]
      exact ⟨fun _ => rfl, fun header => absurd header.2 isVersion⟩
  · rw [if_pos isMagic]
    exact ⟨fun _ => rfl, fun header => absurd header.1 isMagic⟩

def sectionsEnd (junk : Nat → Nat) (file : List UInt8) : Nat :=
  endOf file (sectionPieces junk (flagsOf file)) 16

/-- The file stores these contents, under flags that may leave out what fresh objects
hold anyway. -/
structure StoresContents (contents : V2Contents) (file : List UInt8) : Prop where
  header : HasHeader file
  sections : writeSections (flagsOf file) contents <+: file.drop 16
  hasCharBits : contents.metadata.hasCharBits = (flagsOf file &&& FLAG_HAS_CHAR_BITS != 0)
  noMetadata : (flagsOf file &&& FLAG_HAS_METADATA != 0) = false → contents.metadata =
    { V2Contents.fresh.metadata with hasCharBits := contents.metadata.hasCharBits }
  noPartials : (flagsOf file &&& FLAG_HAS_PARTIALS != 0) = false → contents.partials = cleared

/-- What a read of any file into fresh objects comes to. -/
theorem deserializeV2_fresh {file : List UInt8} (long : 16 ≤ file.length) (junk : Nat → Nat) :
    match deserializeV2 memory junk file .fresh with
    | none => HasHeader file ∧ ¬ CountsFit memory file (sectionPieces junk (flagsOf file)) 16
    | some (ok, contents) =>
      (HasHeader file → CountsFit memory file (sectionPieces junk (flagsOf file)) 16) ∧
      (ok = true ↔ HasHeader file ∧ sectionsEnd junk file ≤ file.length) ∧
      (HasHeader file → Filled file junk (flagsOf file) 16 contents) ∧
      (¬ HasHeader file → contents = .fresh) ∧
      (ok = true → StoresContents contents file) := by
  obtain ⟨refused, continued⟩ := @deserializeV2_header memory _ long junk .fresh
  by_cases header : HasHeader file
  · obtain ⟨f, here, isRead⟩ := continued header
    have reads := @readContents_follows memory _ _ _ here junk (flagsOf file)
    rw [isRead, readSections_fresh]
    cases result : readContents memory junk (flagsOf file) f with
    | none =>
      rw [result] at reads
      exact ⟨header, reads⟩
    | some pair =>
      obtain ⟨contents, after⟩ := pair
      rw [result] at reads
      obtain ⟨fit, there, filled, encoded⟩ := reads
      refine ⟨fun _ => fit, ?_, fun _ => filled, fun none => absurd header none, fun good => ?_⟩
      · exact there.good.trans (and_iff_right header).symm
      · obtain ⟨front, split, isFront⟩ := encoded good
        subst isFront
        exact ⟨header, ⟨after.rest, split.symm⟩, filled.hasCharBits, filled.noMetadata,
          filled.noPartials⟩
  · rw [refused header]
    exact ⟨fun found => absurd found header, iff_of_false Bool.false_ne_true
      fun found => header found.1, fun found => absurd found header, fun _ => rfl, nofun⟩

/-! ## Stored contents -/

theorem writeMetadata_restored (contents : V2Contents) :
    writeMetadata contents.hasChar contents.restored.metadata =
      writeMetadata contents.hasChar contents.metadata := by
  unfold V2Contents.restored writeMetadata
  cases contents.hasChar <;> rfl

theorem readRelations_kept {b : HostRelationBatch} (storable : StorableBatch memory b)
    {hasChar : Bool} (none : hasChar = false → b.charBits = []) (junk : Nat → Nat)
    (rest : List UInt8) :
    readRelations memory junk hasChar (Stream.ofFile (writeRelations hasChar b ++ rest))
      cleared = some (b, Stream.ofFile rest) := by
  rw [readRelations_writeRelations storable]
  cases hasChar with
  | true => rfl
  | false =>
    have same : restoreBatch false b cleared = b := by
      change { b with charBits := [] } = b
      rw [← none rfl]
    rw [same]

theorem storable_empty {α : Type} (codec : Codec α) : Storable codec memory [] :=
  ⟨nofun, Nat.pos_of_ne_zero (by decide), by
    rw [List.length_nil, Nat.zero_mul]
    exact Nat.zero_le memory⟩

theorem storable_guarded {b : HostRelationBatch} (storable : StorableBatch memory b)
    (hasChar : Bool) :
    StorableBatch memory { b with charBits := if hasChar then b.charBits else [] } := by
  refine { storable with charBits := ?_ }
  cases hasChar with
  | true => exact storable.charBits
  | false => exact storable_empty u32

private theorem storable_cleared : StorableBatch memory cleared :=
  ⟨storable_empty _, storable_empty _, storable_empty _, storable_empty _, storable_empty _,
    storable_empty _, storable_empty _, storable_empty _, by decide, by decide⟩

theorem storable_restoredPartials {contents : V2Contents} (storable : contents.Storable memory) :
    StorableBatch memory contents.restored.partials := by
  unfold V2Contents.restored
  cases contents.hasPartials with
  | true => exact storable_guarded storable.partials contents.hasChar
  | false => exact storable_cleared

theorem restored_noChar {contents : V2Contents} (noChar : contents.hasChar = false) :
    contents.restored.fullSmooths.charBits = [] ∧ contents.restored.partials.charBits = [] := by
  unfold V2Contents.restored
  rw [noChar]
  cases contents.hasPartials <;> exact ⟨rfl, rfl⟩

theorem readMetadataSection_restored {contents : V2Contents}
    (storable : contents.Storable memory) (junk : Nat → Nat) {flags : Nat}
    (charFlag : contents.hasChar = (flags &&& FLAG_HAS_CHAR_BITS != 0))
    (noMetadata : (flags &&& FLAG_HAS_METADATA != 0) = false → contents.restored.metadata =
      { V2Contents.fresh.metadata with
        hasCharBits := contents.restored.metadata.hasCharBits })
    (rest : List UInt8) :
    readMetadataSection memory junk flags
        (Stream.ofFile ((if flags &&& FLAG_HAS_METADATA != 0 then
          writeMetadata (flags &&& FLAG_HAS_CHAR_BITS != 0) contents.restored.metadata
        else []) ++ rest)) =
      some (contents.restored.metadata, Stream.ofFile rest) := by
  unfold readMetadataSection
  rw [← charFlag]
  cases hasMetadata : flags &&& FLAG_HAS_METADATA != 0 with
  | true =>
    have reads := readMetadata_writeMetadata storable junk V2Contents.fresh.metadata rest
    rw [restoreMetadata_fresh, ← writeMetadata_restored] at reads
    exact reads
  | false =>
    rw [noMetadata hasMetadata]
    rfl

private theorem readPartialSection_restored {contents : V2Contents}
    (storable : contents.Storable memory) (junk : Nat → Nat) {flags : Nat}
    (charFlag : contents.hasChar = (flags &&& FLAG_HAS_CHAR_BITS != 0))
    (noPartials : (flags &&& FLAG_HAS_PARTIALS != 0) = false →
      contents.restored.partials = cleared) (rest : List UInt8) :
    readPartialSection memory junk flags (Stream.ofFile ((if flags &&& FLAG_HAS_PARTIALS != 0 then
          writeRelations (flags &&& FLAG_HAS_CHAR_BITS != 0) contents.restored.partials
        else []) ++ rest)) =
      some (contents.restored.partials, Stream.ofFile rest) := by
  unfold readPartialSection
  rw [← charFlag]
  cases hasPartials : flags &&& FLAG_HAS_PARTIALS != 0 with
  | true =>
    simp only [if_true]
    exact readRelations_kept (storable_restoredPartials storable)
      (fun none => (restored_noChar none).2) _ rest
  | false =>
    rw [noPartials hasPartials]
    simp only [Bool.false_eq_true, if_false, List.nil_append]

/-- Fresh objects receive contents from every file that stores them. -/
theorem deserializeV2_storesContents {contents : V2Contents}
    (storable : contents.Storable memory) {file : List UInt8} (long : 16 ≤ file.length)
    (stores : StoresContents contents.restored file) (junk : Nat → Nat) :
    deserializeV2 memory junk file .fresh = some (true, contents.restored) := by
  obtain ⟨f, here, isRead⟩ :=
    (@deserializeV2_header memory _ long junk .fresh).2 stores.header
  obtain ⟨rest, split⟩ := stores.sections
  have stream : f = Stream.ofFile (file.drop 16) := by
    obtain ⟨remaining, good⟩ := f
    have isGood := here.good.mpr long
    have isRest := here.rest
    simp only at isGood isRest
    rw [isGood, isRest]
    rfl
  have charFlag : contents.hasChar = (flagsOf file &&& FLAG_HAS_CHAR_BITS != 0) :=
    stores.hasCharBits
  have smooths : ∀ rest, readRelations memory (fun i => junk (i + 4)) contents.hasChar
      (Stream.ofFile (writeRelations contents.hasChar contents.restored.fullSmooths ++ rest))
      cleared = some (contents.restored.fullSmooths, Stream.ofFile rest) :=
    readRelations_kept (storable_guarded storable.fullSmooths contents.hasChar)
      (fun none => (restored_noChar none).1) _
  rw [charFlag] at smooths
  rw [isRead, readSections_fresh, stream, ← split, readContents, writeSections]
  simp only [List.append_assoc, Option.bind_eq_bind,
    readMetadataSection_restored storable junk charFlag stores.noMetadata, Option.bind_some,
    smooths, readPartialSection_restored storable junk charFlag stores.noPartials]
  rfl

end CudaMpqs.RelationIo
