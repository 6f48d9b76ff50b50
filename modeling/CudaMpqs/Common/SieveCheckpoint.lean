import CudaMpqs.Common.RelationIo

/-! # Sieve checkpoints

The file of `sieve_checkpoint.cpp`: a relation file, a progress trailer, a cluster
block and a footer, and the loader that falls back to the previous generation. -/

namespace CudaMpqs.SieveCheckpoint

open ByteStream RelationIo

structure CheckpointTrailer where
  globalAIndex : BitVec 64
  targetRelations : BitVec 64
  loadedSmoothsRaw : BitVec 64
  loadedSmoothsDedup : BitVec 64
  loadedPartials : BitVec 64
  lp1Bound : BitVec 64
  sieveBound : BitVec 32
  n : UInt512
  clusterSectionPresent : BitVec 8
  elapsedSieveSec : BitVec 64
deriving DecidableEq

structure CheckpointClusterBlock where
  completedPrefixCursor : BitVec 64
  initialHighWater : List (BitVec 64)
deriving DecidableEq

structure CheckpointLoadResult where
  ok : Bool
  trailer : CheckpointTrailer
  cluster : CheckpointClusterBlock
  contents : V2Contents
deriving DecidableEq

def CheckpointLoadResult.fresh : CheckpointLoadResult :=
  ⟨false, ⟨0, 0, 0, 0, 0, 0, 0, UInt512.ofUInt32 0, 0, 0⟩, ⟨0, []⟩, .fresh⟩

def CKPT_TRAILER_MAGIC : List UInt8 := [0x4D, 0x50, 0x51, 0x53, 0x5F, 0x43, 0x4B, 0x50, 0x54]

def CKPT_FOOTER_MAGIC : List UInt8 := [0x4D, 0x50, 0x51, 0x53, 0x5F, 0x43, 0x4B, 0x46, 0x54]

def CKPT_SCHEMA_VERSION : Nat := 1

def CKPT_FOOTER_SIZE : Nat := 9 + 8 + 8 + 4

/-! ## Writing -/

def serializeTrailer (t : CheckpointTrailer) : List UInt8 :=
  CKPT_TRAILER_MAGIC ++ (littleEndian 4 CKPT_SCHEMA_VERSION ++ (u64.encode t.globalAIndex ++
    (u64.encode t.targetRelations ++ (u64.encode t.loadedSmoothsRaw ++
      (u64.encode t.loadedSmoothsDedup ++ (u64.encode t.loadedPartials ++
        (u64.encode t.lp1Bound ++ (u32.encode t.sieveBound ++ (uint512Codec.encode t.n ++
          (u8.encode t.clusterSectionPresent ++ u64.encode t.elapsedSieveSec))))))))))

def serializeClusterBlock (cb : CheckpointClusterBlock) : List UInt8 :=
  u64.encode cb.completedPrefixCursor ++ (littleEndian 4 (cb.initialHighWater.length % 2 ^ 32) ++
    u64.encodeAll cb.initialHighWater)

structure Checkpoint where
  trailer : CheckpointTrailer
  cluster : CheckpointClusterBlock
  contents : V2Contents
deriving DecidableEq

def Checkpoint.hasCluster (checkpoint : Checkpoint) : Bool :=
  checkpoint.trailer.clusterSectionPresent != 0

def Checkpoint.region (checkpoint : Checkpoint) : List UInt8 :=
  serializeTrailer checkpoint.trailer ++
    if checkpoint.hasCluster then serializeClusterBlock checkpoint.cluster else []

def footer (trailerOffset trailerLen : Nat) : List UInt8 :=
  CKPT_FOOTER_MAGIC ++ (littleEndian 8 trailerOffset ++ (littleEndian 8 trailerLen ++
    littleEndian 4 CKPT_SCHEMA_VERSION))

def Checkpoint.tail (checkpoint : Checkpoint) (trailerOffset : Nat) : List UInt8 :=
  checkpoint.region ++ footer trailerOffset checkpoint.region.length

def Checkpoint.bytes (checkpoint : Checkpoint) : List UInt8 :=
  serializeV2 checkpoint.contents ++ checkpoint.tail (serializeV2 checkpoint.contents).length

/-! ## Reading -/

section Fields

variable {σ α : Type}

def field (codec : Codec α) (held : σ → α) (store : σ → α → σ) (record : σ) (f : Stream) :
    σ × Stream :=
  let (item, f) := f.readItem codec (held record)
  (store record item, f)

/-- Fields read one after the other, up to the first that fails. -/
def getAll : List (σ → Stream → σ × Stream) → σ → Stream → Bool × σ × Stream
  | [], record, f => (true, record, f)
  | get :: gets, record, f =>
    let (record, f) := get record f
    if f.good then getAll gets record f else (false, record, f)

def getEach (codec : Codec α) : List α → Stream → Bool × List α × Stream
  | [], f => (true, [], f)
  | item :: items, f =>
    let (item, f) := f.readItem codec item
    if f.good then
      let (ok, items, f) := getEach codec items f
      (ok, item :: items, f)
    else (false, item :: items, f)

end Fields

def trailerFields : List (CheckpointTrailer → Stream → CheckpointTrailer × Stream) :=
  [field u64 (·.globalAIndex) fun t globalAIndex => { t with globalAIndex },
    field u64 (·.targetRelations) fun t targetRelations => { t with targetRelations },
    field u64 (·.loadedSmoothsRaw) fun t loadedSmoothsRaw => { t with loadedSmoothsRaw },
    field u64 (·.loadedSmoothsDedup) fun t loadedSmoothsDedup => { t with loadedSmoothsDedup },
    field u64 (·.loadedPartials) fun t loadedPartials => { t with loadedPartials },
    field u64 (·.lp1Bound) fun t lp1Bound => { t with lp1Bound },
    field u32 (·.sieveBound) fun t sieveBound => { t with sieveBound },
    field uint512Codec (·.n) fun t n => { t with n },
    field u8 (·.clusterSectionPresent) fun t clusterSectionPresent =>
      { t with clusterSectionPresent },
    field u64 (·.elapsedSieveSec) fun t elapsedSieveSec => { t with elapsedSieveSec }]

def readTrailer (junk : Nat) (f : Stream) (t : CheckpointTrailer) :
    Bool × CheckpointTrailer × Stream :=
  let (magic, f) := f.read (littleEndian 9 junk)
  if !f.good || magic != CKPT_TRAILER_MAGIC then (false, t, f)
  else
    let (schema, f) := f.readNumber 4 0
    if !f.good || schema != CKPT_SCHEMA_VERSION then (false, t, f)
    else getAll trailerFields t f

def readClusterBlock (memory : Nat) (f : Stream) (cb : CheckpointClusterBlock)
    (regionBytesLeft : Nat) : Option (Bool × CheckpointClusterBlock × Stream) :=
  let (cursor, f) := f.readItem u64 cb.completedPrefixCursor
  let cb := { cb with completedPrefixCursor := cursor }
  if !f.good then some (false, cb, f)
  else
    let (nodeCount, f) := f.readNumber 4 0
    if !f.good || regionBytesLeft < nodeCount * 8 + 12 then some (false, cb, f)
    else do
      let initialHighWater ← resize u64 memory cb.initialHighWater nodeCount
      let (ok, initialHighWater, f) := getEach u64 initialHighWater f
      return (ok, { cb with initialHighWater }, f)

/-- `seekg`; an offset that is negative as a `streamoff` fails. -/
def seek (file : List UInt8) (offset : Nat) : Stream :=
  if offset < 2 ^ 63 then Stream.ofFile (file.drop offset) else ⟨[], false⟩

def readPayload (memory : Nat) (junk : Nat → Nat) (file : List UInt8)
    (out : CheckpointLoadResult) : Option (Bool × CheckpointLoadResult) := do
  let (ok, contents) ← deserializeV2 memory junk file out.contents
  return (ok, { out with contents, ok })

def readRegion (memory : Nat) (junk : Nat → Nat) (file : List UInt8)
    (trailerOffset trailerLen : Nat) (out : CheckpointLoadResult) :
    Option (Bool × CheckpointLoadResult) :=
  let (ok, trailer, f) := readTrailer (junk 0) (seek file trailerOffset) out.trailer
  let out := { out with trailer }
  if !ok then some (false, out)
  else if trailer.clusterSectionPresent != 0 then do
    let consumed := file.length - f.rest.length - trailerOffset
    let (ok, cluster, f) ← readClusterBlock memory f out.cluster (trailerLen - consumed)
    let out := { out with cluster }
    if !ok || file.length - f.rest.length != (trailerOffset + trailerLen) % 2 ^ 64 then
      some (false, out)
    else readPayload memory (fun i => junk (i + 1)) file out
  else readPayload memory (fun i => junk (i + 1)) file out

/-- The result and what it leaves in `out`; `none` when an allocation throws. -/
def readCheckpoint (memory : Nat) (junk : Nat → Nat) (file : List UInt8)
    (out : CheckpointLoadResult) : Option (Bool × CheckpointLoadResult) :=
  let out := { out with ok := false }
  if file.length < CKPT_FOOTER_SIZE then some (false, out)
  else
    let f := Stream.ofFile (file.drop (file.length - CKPT_FOOTER_SIZE))
    let (fmagic, f) := f.read (List.replicate 9 0)
    let (trailerOffset, f) := f.readNumber 8 0
    let (trailerLen, f) := f.readNumber 8 0
    let (fver, f) := f.readNumber 4 0
    if !f.good then some (false, out)
    else if fmagic ≠ CKPT_FOOTER_MAGIC then some (false, out)
    else if fver ≠ CKPT_SCHEMA_VERSION then some (false, out)
    else if (trailerOffset + trailerLen + CKPT_FOOTER_SIZE) % 2 ^ 64 ≠ file.length then
      some (false, out)
    else readRegion memory junk file trailerOffset trailerLen out

def loadLatestCheckpoint (memory : Nat) (junk : Nat → Nat) (live prev : Option (List UInt8))
    (out : CheckpointLoadResult) : Option (Bool × CheckpointLoadResult) := do
  let (ok, out) ← match live with
    | some file => readCheckpoint memory junk file out
    | none => pure (false, out)
  if ok then return (true, out)
  else
    match prev with
    | some file => readCheckpoint memory junk file out
    | none => return (false, out)

/-! ## Reading an intact file -/

structure Checkpoint.Storable (memory : Nat) (checkpoint : Checkpoint) : Prop where
  contents : checkpoint.contents.Storable memory
  nodes : checkpoint.cluster.initialHighWater.length < 256 ^ 4
  room : checkpoint.cluster.initialHighWater.length * 8 ≤ memory
  size : checkpoint.bytes.length < 2 ^ 63

def Checkpoint.restoreOver (checkpoint : Checkpoint) (out : CheckpointLoadResult) :
    CheckpointLoadResult where
  ok := true
  trailer := checkpoint.trailer
  cluster := if checkpoint.hasCluster then checkpoint.cluster else out.cluster
  contents := checkpoint.contents.restoreOver out.contents

@[simp] theorem length_footer (trailerOffset trailerLen : Nat) :
    (footer trailerOffset trailerLen).length = CKPT_FOOTER_SIZE := by
  simp [footer, CKPT_FOOTER_SIZE, CKPT_FOOTER_MAGIC]

theorem length_serializeTrailer (t : CheckpointTrailer) : (serializeTrailer t).length = 138 := by
  simp [serializeTrailer, CKPT_TRAILER_MAGIC, u64, u32, u8, Codec.bits, uint512Codec, t.n.size]

theorem length_serializeClusterBlock (cb : CheckpointClusterBlock) :
    (serializeClusterBlock cb).length = cb.initialHighWater.length * 8 + 12 := by
  have entries : (u64.encodeAll cb.initialHighWater).length = cb.initialHighWater.length * 8 :=
    u64.length_encodeAll _
  rw [serializeClusterBlock, List.length_append, List.length_append, u64.length_encode,
    length_littleEndian, entries]
  change 8 + (4 + _) = _
  omega

theorem field_encode {σ α : Type} {codec : Codec α} {item : α} (fits : codec.Fits item)
    (held : σ → α) (store : σ → α → σ) (record : σ) (rest : List UInt8) :
    field codec held store record (Stream.ofFile (codec.encode item ++ rest)) =
      (store record item, Stream.ofFile rest) := by
  rw [field, Stream.readItem_encode codec fits]

private theorem getAll_cons {σ : Type} {get : σ → Stream → σ × Stream}
    {gets : List (σ → Stream → σ × Stream)} {record after : σ} {f : Stream}
    {rest : List UInt8} (reads : get record f = (after, Stream.ofFile rest)) :
    getAll (get :: gets) record f = getAll gets after (Stream.ofFile rest) := by
  rw [getAll, reads]
  rfl

theorem readTrailer_serializeTrailer (junk : Nat) (t out : CheckpointTrailer) (rest : List UInt8) :
    readTrailer junk (Stream.ofFile (serializeTrailer t ++ rest)) out =
      (true, t, Stream.ofFile rest) := by
  unfold readTrailer serializeTrailer
  rw [List.append_assoc, Stream.read_append (by rw [length_littleEndian]; rfl)]
  simp only [List.append_assoc, @Stream.readNumber_littleEndian 4 CKPT_SCHEMA_VERSION
    (by decide), Stream.good_ofFile, bne_self_eq_false, Bool.not_true, Bool.or_self,
    Bool.false_eq_true, if_false]
  have word (item : BitVec 64) : u64.Fits item := trivial
  have half (item : BitVec 32) : u32.Fits item := trivial
  unfold trailerFields
  rw [getAll_cons (field_encode (word _) _ _ _ _), getAll_cons (field_encode (word _) _ _ _ _),
    getAll_cons (field_encode (word _) _ _ _ _), getAll_cons (field_encode (word _) _ _ _ _),
    getAll_cons (field_encode (word _) _ _ _ _), getAll_cons (field_encode (word _) _ _ _ _),
    getAll_cons (field_encode (half _) _ _ _ _),
    getAll_cons (@field_encode _ _ uint512Codec _ trivial _ _ _ _),
    getAll_cons (@field_encode _ _ u8 _ trivial _ _ _ _),
    getAll_cons (field_encode (word _) _ _ _ _)]
  rfl

private theorem getEach_encodeAll {α : Type} {codec : Codec α} {items initial : List α}
    (fits : ∀ item ∈ items, codec.Fits item) (length : initial.length = items.length)
    (rest : List UInt8) :
    getEach codec initial (Stream.ofFile (codec.encodeAll items ++ rest)) =
      (true, items, Stream.ofFile rest) := by
  induction items generalizing initial with
  | nil =>
    rw [List.eq_nil_of_length_eq_zero length]
    rfl
  | cons item items induction =>
    cases initial with
    | nil => cases length
    | cons first initial =>
      rw [getEach, Codec.encodeAll_cons, List.append_assoc,
        Stream.readItem_encode codec (fits item List.mem_cons_self)]
      simp only [Stream.good_ofFile, if_true]
      rw [induction (fun other member => fits other (List.mem_cons_of_mem _ member))
        (Nat.succ.inj length)]

theorem readClusterBlock_serialize {memory : Nat} {cb : CheckpointClusterBlock}
    (nodes : cb.initialHighWater.length < 256 ^ 4)
    (room : cb.initialHighWater.length * 8 ≤ memory) {regionBytesLeft : Nat}
    (left : regionBytesLeft = cb.initialHighWater.length * 8 + 12)
    (out : CheckpointClusterBlock) (rest : List UInt8) :
    readClusterBlock memory (Stream.ofFile (serializeClusterBlock cb ++ rest)) out
        regionBytesLeft = some (true, cb, Stream.ofFile rest) := by
  have count : cb.initialHighWater.length % 2 ^ 32 = cb.initialHighWater.length :=
    Nat.mod_eq_of_lt nodes
  have word (item : BitVec 64) : u64.Fits item := trivial
  obtain ⟨resized, isResized, length⟩ := @resize_length _ u64 _ _ room out.initialHighWater
  unfold readClusterBlock serializeClusterBlock
  rw [List.append_assoc, Stream.readItem_encode u64 (word _)]
  simp only [List.append_assoc, count, Stream.readNumber_littleEndian nodes,
    Stream.good_ofFile, Bool.not_true, Bool.false_eq_true, if_false, Bool.false_or, left,
    lt_irrefl, decide_false, isResized, Option.bind_eq_bind, Option.bind_some,
    getEach_encodeAll (fun item _ => word item) length]
  rfl

section Intact

variable {memory : Nat} {checkpoint : Checkpoint}

theorem seek_ofFile {front rest : List UInt8} (small : (front ++ rest).length < 2 ^ 63) :
    seek (front ++ rest) front.length = Stream.ofFile rest := by
  rw [List.length_append] at small
  rw [seek, if_pos (by omega), List.drop_left]

section

variable (storable : checkpoint.Storable memory) (junk : Nat → Nat) (out : CheckpointLoadResult)

include storable junk out

private theorem readPayload_bytes : readPayload memory junk checkpoint.bytes out =
      some (true, { out with
        contents := checkpoint.contents.restoreOver out.contents
        ok := true }) := by
  rw [readPayload, Checkpoint.bytes, deserializeV2_restoreOver storable.contents]
  rfl

theorem readRegion_bytes :
    readRegion memory junk checkpoint.bytes (serializeV2 checkpoint.contents).length
        checkpoint.region.length out =
      some (true, checkpoint.restoreOver out) := by
  have size := storable.size
  generalize payloadIs : serializeV2 checkpoint.contents = payload
  have file : checkpoint.bytes = payload ++ (serializeTrailer checkpoint.trailer ++
      ((if checkpoint.hasCluster then serializeClusterBlock checkpoint.cluster else []) ++
        footer payload.length checkpoint.region.length)) := by
    rw [Checkpoint.bytes, payloadIs, Checkpoint.tail, Checkpoint.region, List.append_assoc]
  have start : seek checkpoint.bytes payload.length =
      Stream.ofFile (serializeTrailer checkpoint.trailer ++
        ((if checkpoint.hasCluster then serializeClusterBlock checkpoint.cluster else []) ++
          footer payload.length checkpoint.region.length)) := by
    rw [file]
    exact seek_ofFile (file ▸ size)
  unfold readRegion
  rw [start, readTrailer_serializeTrailer]
  simp only [Bool.not_true, Bool.false_eq_true, if_false, readPayload_bytes storable]
  cases hasCluster : checkpoint.hasCluster with
  | false =>
    have absent : (checkpoint.trailer.clusterSectionPresent != 0) = false := hasCluster
    simp only [absent, Bool.false_eq_true, if_false]
    rw [Checkpoint.restoreOver, hasCluster]
    rfl
  | true =>
    have present : (checkpoint.trailer.clusterSectionPresent != 0) = true := hasCluster
    have region : checkpoint.region.length =
        138 + (checkpoint.cluster.initialHighWater.length * 8 + 12) := by
      rw [Checkpoint.region, hasCluster, if_pos rfl, List.length_append,
        length_serializeTrailer, length_serializeClusterBlock]
    have length : checkpoint.bytes.length =
        payload.length + checkpoint.region.length + CKPT_FOOTER_SIZE := by
      rw [Checkpoint.bytes, payloadIs, Checkpoint.tail, List.length_append,
        List.length_append, length_footer]
      omega
    have left : checkpoint.region.length -
        (checkpoint.bytes.length - ((serializeClusterBlock checkpoint.cluster ++
          footer payload.length checkpoint.region.length).length) - payload.length) =
        checkpoint.cluster.initialHighWater.length * 8 + 12 := by
      rw [List.length_append, length_serializeClusterBlock, length_footer, length, region]
      omega
    have stop : checkpoint.bytes.length - CKPT_FOOTER_SIZE =
        (payload.length + checkpoint.region.length) % 2 ^ 64 := by
      rw [length, Nat.add_sub_cancel, Nat.mod_eq_of_lt]
      omega
    simp only [present, if_true, Stream.rest_ofFile]
    rw [readClusterBlock_serialize storable.nodes storable.room left]
    simp only [Option.bind_eq_bind, Option.bind_some, Stream.rest_ofFile, length_footer,
      stop, Bool.not_true, Bool.false_or, bne_self_eq_false, Bool.false_eq_true, if_false]
    rw [Checkpoint.restoreOver, hasCluster]
    rfl

theorem readCheckpoint_bytes : readCheckpoint memory junk checkpoint.bytes out =
      some (true, checkpoint.restoreOver out) := by
  have size := storable.size
  generalize payloadIs : serializeV2 checkpoint.contents = payload
  have file : checkpoint.bytes = (payload ++ checkpoint.region) ++
      footer payload.length checkpoint.region.length := by
    rw [Checkpoint.bytes, payloadIs, Checkpoint.tail, List.append_assoc]
  have length : checkpoint.bytes.length =
      payload.length + checkpoint.region.length + CKPT_FOOTER_SIZE := by
    rw [file, List.length_append, List.length_append, length_footer]
  have footerAt : checkpoint.bytes.drop (checkpoint.bytes.length - CKPT_FOOTER_SIZE) =
      footer payload.length checkpoint.region.length ++ [] := by
    rw [length, Nat.add_sub_cancel, file, List.append_nil]
    exact List.drop_left' List.length_append
  have offsetFits : payload.length < 256 ^ 8 := by omega
  have lenFits : checkpoint.region.length < 256 ^ 8 := by omega
  have total : (payload.length + checkpoint.region.length + CKPT_FOOTER_SIZE) % 2 ^ 64 =
      checkpoint.bytes.length := by
    rw [length, Nat.mod_eq_of_lt]
    omega
  have long : ¬ checkpoint.bytes.length < CKPT_FOOTER_SIZE := by omega
  have region := readRegion_bytes storable junk { out with ok := false }
  rw [payloadIs] at region
  unfold readCheckpoint
  simp only [if_neg long, footerAt, footer, List.append_assoc]
  rw [Stream.read_append (by rfl)]
  simp only [Stream.readNumber_littleEndian offsetFits, Stream.readNumber_littleEndian lenFits,
    @Stream.readNumber_littleEndian 4 CKPT_SCHEMA_VERSION (by decide), Stream.good_ofFile,
    Bool.not_true, Bool.false_eq_true, if_false, ne_eq, not_true_eq_false, total]
  exact region

end

end Intact

/-! ## Two checkpoints -/

def soloCheckpoint : Checkpoint :=
  ⟨⟨512, 2000, 1, 1, 1, 5000, 1000, UInt512.ofUInt32 91, 0, 60⟩, ⟨0, []⟩, branchContents⟩

theorem storable_soloCheckpoint : soloCheckpoint.Storable (2 ^ 40) where
  contents := storable_branchContents
  nodes := by decide
  room := by decide
  size := by decide +kernel

def clusterCheckpoint : Checkpoint :=
  { soloCheckpoint with
    trailer := { soloCheckpoint.trailer with clusterSectionPresent := 1 }
    cluster := ⟨4096, [512, 1024]⟩ }

theorem storable_clusterCheckpoint : clusterCheckpoint.Storable (2 ^ 40) where
  contents := storable_branchContents
  nodes := by decide
  room := by decide
  size := by decide +kernel

end CudaMpqs.SieveCheckpoint
