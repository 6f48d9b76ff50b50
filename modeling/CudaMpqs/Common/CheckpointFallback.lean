import CudaMpqs.Common.RelationLayout
import CudaMpqs.Common.SieveCheckpoint

/-! # Falling back

What a read of any live file leaves in a fresh object, told from the bytes of the file, and
when the previous generation comes out of it as it would from a fresh read. -/

namespace CudaMpqs.SieveCheckpoint

open ByteStream ByteStream.Stream RelationIo

variable {memory : Nat} {file : List UInt8}

/-! ## The trailer region -/

def trailerOffset (file : List UInt8) : Nat := value ((file.drop (file.length - 20)).take 8)

def trailerLen (file : List UInt8) : Nat := value ((file.drop (file.length - 12)).take 8)

structure HasFooter (file : List UInt8) : Prop where
  size : CKPT_FOOTER_SIZE ≤ file.length
  footerMagic : (file.drop (file.length - CKPT_FOOTER_SIZE)).take 9 = CKPT_FOOTER_MAGIC
  footerSchema : value ((file.drop (file.length - 4)).take 4) = CKPT_SCHEMA_VERSION
  fills : (trailerOffset file + trailerLen file + CKPT_FOOTER_SIZE) % 2 ^ 64 = file.length

structure HasTrailer (file : List UInt8) : Prop extends HasFooter file where
  seekable : trailerOffset file < 2 ^ 63
  whole : trailerOffset file + 138 ≤ file.length
  magic : (file.drop (trailerOffset file)).take 9 = CKPT_TRAILER_MAGIC
  schema : value ((file.drop (trailerOffset file + 9)).take 4) = CKPT_SCHEMA_VERSION

def clusterFlag (file : List UInt8) : Nat :=
  value ((file.drop (trailerOffset file + 129)).take 1)

def storedCursor (file : List UInt8) : Nat := numberAt file (trailerOffset file + 138) 8 0

def nodeCount (file : List UInt8) : Nat :=
  value ((file.drop (trailerOffset file + 146)).take 4)

def blockEnd (file : List UInt8) : Nat := trailerOffset file + 150 + 8 * nodeCount file

structure HasCluster (file : List UInt8) : Prop extends HasTrailer file where
  flag : clusterFlag file ≠ 0

structure HasNodes (file : List UInt8) : Prop extends HasCluster file where
  room : blockEnd file + CKPT_FOOTER_SIZE ≤ file.length

structure ReachesSections (file : List UInt8) : Prop extends HasTrailer file where
  block : clusterFlag file ≠ 0 → blockEnd file + CKPT_FOOTER_SIZE = file.length
  header : HasHeader file

theorem trailerLen_lt (file : List UInt8) : trailerLen file < 2 ^ 64 := by
  have bound := value_lt ((file.drop (file.length - 12)).take 8)
  have width : ((file.drop (file.length - 12)).take 8).length ≤ 8 := List.length_take_le 8 _
  exact Nat.lt_of_lt_of_le bound (Nat.pow_le_pow_right (by decide) width)

/-- A trailer that lies in the file leaves no wrap in the sum of the footer. -/
theorem HasTrailer.sum (trailer : HasTrailer file) :
    trailerOffset file + trailerLen file + CKPT_FOOTER_SIZE = file.length := by
  have fills := trailer.fills
  have whole := trailer.whole
  have seekable := trailer.seekable
  have bound := trailerLen_lt file
  change (trailerOffset file + trailerLen file + 29) % 2 ^ 64 = file.length at fills
  change trailerOffset file + trailerLen file + 29 = file.length
  omega

/-! ## Reading the trailer -/

section Gets

variable {σ α : Type} {place : Nat} {f : Stream}

def Gets (file : List UInt8) (place width : Nat) (encodes : σ → List UInt8 → Prop)
    (outcome : Bool × σ × Stream) : Prop :=
  (outcome.1 = true ↔ place + width ≤ file.length) ∧
    (outcome.1 = true → Stream.At file (place + width) outcome.2.2 ∧
      ∃ front, file.drop place = front ++ outcome.2.2.rest ∧ encodes outcome.2.1 front)

theorem Gets.done (here : Stream.At file place f) (inside : place ≤ file.length)
    {record : σ} {encodes : σ → List UInt8 → Prop} (encoded : encodes record []) :
    Gets file place 0 encodes (getAll [] record f) :=
  ⟨iff_of_true rfl inside, fun _ => ⟨here, [], here.rest.symm, encoded⟩⟩

theorem Gets.field (here : Stream.At file place f) (codec : Codec α) (held : σ → α)
    (store : σ → α → σ) {gets : List (σ → Stream → σ × Stream)} {record : σ} {width : Nat}
    {encodes : σ → List UInt8 → Prop}
    (continues : place + codec.width ≤ file.length → Gets file (place + codec.width) width
        (fun result back => encodes result
          (codec.encode (f.readItem codec (held record)).1 ++ back))
        (getAll gets (store record (f.readItem codec (held record)).1)
          (f.readItem codec (held record)).2)) :
    Gets file place (codec.width + width) encodes
      (getAll (field codec held store :: gets) record f) := by
  have after := here.readItem codec (held record)
  change Gets _ _ _ _ (if (f.readItem codec (held record)).2.good then _ else _)
  cases good : (f.readItem codec (held record)).2.good with
  | false =>
    have short : ¬ place + codec.width ≤ file.length := fun inside =>
      Bool.false_ne_true (good.symm.trans (after.good.mpr inside))
    exact ⟨iff_of_false Bool.false_ne_true (by omega), nofun⟩
  | true =>
    obtain ⟨complete, reads⟩ := continues (after.good.mp good)
    rw [if_pos rfl]
    rw [Nat.add_assoc] at complete reads
    refine ⟨complete, fun accepted => ?_⟩
    obtain ⟨there, back, back_eq, encoded⟩ := reads accepted
    obtain ⟨_, split⟩ := Stream.readItem_good good
    rw [here.rest, after.rest, back_eq, ← List.append_assoc] at split
    exact ⟨there, _, split, encoded⟩

end Gets

theorem trailerFields_gets {place : Nat} {f : Stream} (here : At file place f)
    (t : CheckpointTrailer) :
    Gets file place 125
      (fun t front => CKPT_TRAILER_MAGIC ++ (littleEndian 4 CKPT_SCHEMA_VERSION ++ front) =
        serializeTrailer t)
      (getAll trailerFields t f) := by
  unfold trailerFields
  change Gets file place (u64.width + (u64.width + (u64.width + (u64.width + (u64.width +
    (u64.width + (u32.width + (uint512Codec.width + (u8.width + (u64.width + 0)))))))))) _ _
  refine Gets.field here u64 _ _ fun _ => ?_
  have here := here.readItem u64 t.globalAIndex
  refine Gets.field here u64 _ _ fun _ => ?_
  have here := here.readItem u64 t.targetRelations
  refine Gets.field here u64 _ _ fun _ => ?_
  have here := here.readItem u64 t.loadedSmoothsRaw
  refine Gets.field here u64 _ _ fun _ => ?_
  have here := here.readItem u64 t.loadedSmoothsDedup
  refine Gets.field here u64 _ _ fun _ => ?_
  have here := here.readItem u64 t.loadedPartials
  refine Gets.field here u64 _ _ fun _ => ?_
  have here := here.readItem u64 t.lp1Bound
  refine Gets.field here u32 _ _ fun _ => ?_
  have here := here.readItem u32 t.sieveBound
  refine Gets.field here uint512Codec _ _ fun _ => ?_
  have here := here.readItem uint512Codec t.n
  refine Gets.field here u8 _ _ fun _ => ?_
  have here := here.readItem u8 t.clusterSectionPresent
  refine Gets.field here u64 _ _ fun inside => ?_
  have here := here.readItem u64 t.elapsedSieveSec
  refine Gets.done here inside ?_
  simp only [serializeTrailer, List.append_nil]

theorem readTrailer_gets {place : Nat} {f : Stream} (here : At file place f) (junk : Nat)
    (t : CheckpointTrailer) :
    ((readTrailer junk f t).1 = true ↔ place + 138 ≤ file.length ∧
        (file.drop place).take 9 = CKPT_TRAILER_MAGIC ∧
        value ((file.drop (place + 9)).take 4) = CKPT_SCHEMA_VERSION) ∧
      ((readTrailer junk f t).1 = true → At file (place + 138) (readTrailer junk f t).2.2 ∧
        file.drop place =
          serializeTrailer (readTrailer junk f t).2.1 ++ (readTrailer junk f t).2.2.rest) := by
  have afterMagic := here.read (littleEndian 9 junk)
  have magicIs := @At.read_eq _ _ _ here (littleEndian 9 junk)
  have magicGood := @read_good f (littleEndian 9 junk)
  rw [length_littleEndian] at afterMagic magicIs
  unfold readTrailer
  generalize f.read (littleEndian 9 junk) = magicRead at *
  obtain ⟨magic, f⟩ := magicRead
  have afterSchema := afterMagic.readNumber 4 0
  have schemaIs := @At.readNumber_eq _ _ _ afterMagic 4 0
  have schemaGood := @readNumber_good f 4 0
  simp only at *
  generalize f.readNumber 4 0 = schemaRead at *
  obtain ⟨schema, f'⟩ := schemaRead
  obtain ⟨complete, reads⟩ := trailerFields_gets afterSchema t
  simp only [Bool.or_eq_true, Bool.not_eq_true', bne_iff_ne] at *
  split
  next refused =>
    refine ⟨iff_of_false Bool.false_ne_true fun ⟨whole, isMagic, _⟩ => ?_, nofun⟩
    rcases refused with short | other
    · exact Bool.false_ne_true (short.symm.trans (afterMagic.good.mpr (by omega)))
    · exact other ((magicIs (by omega)).trans isMagic)
  next accepted =>
    obtain ⟨good, isMagic⟩ := not_or.mp accepted
    rw [Bool.not_eq_false] at good
    rw [not_not] at isMagic
    have magicEnd := afterMagic.good.mp good
    split
    next refused =>
      refine ⟨iff_of_false Bool.false_ne_true fun ⟨whole, _, isSchema⟩ => ?_, nofun⟩
      rcases refused with short | other
      · exact Bool.false_ne_true (short.symm.trans (afterSchema.good.mpr (by omega)))
      · exact other ((schemaIs (by omega)).trans isSchema)
    next accepted =>
      obtain ⟨goodSchema, isSchema⟩ := not_or.mp accepted
      rw [Bool.not_eq_false] at goodSchema
      rw [not_not] at isSchema
      have schemaEnd := afterSchema.good.mp goodSchema
      refine ⟨complete.trans ⟨fun whole => ⟨whole, ?_, ?_⟩, And.left⟩, fun ok => ?_⟩
      · rw [← magicIs magicEnd, isMagic]
      · rw [← schemaIs schemaEnd, isSchema]
      · obtain ⟨there, front, split, encoded⟩ := reads ok
        refine ⟨there, ?_⟩
        rw [← encoded, List.append_assoc, List.append_assoc, ← split, ← afterSchema.rest,
          ← isSchema, ← (schemaGood goodSchema).2, ← isMagic, ← here.rest]
        exact (magicGood good).2.2

/-! ## Reading the cluster block -/

private theorem getEach_gets {α : Type} (codec : Codec α) (items : List α) {place : Nat}
    {f : Stream}
    (here : At file place f) (enough : place + items.length * codec.width ≤ file.length) :
    ∃ read f', getEach codec items f = (true, read, f') ∧ read.length = items.length ∧
      At file (place + items.length * codec.width) f' ∧
      file.drop place = codec.encodeAll read ++ f'.rest := by
  induction items generalizing place f with
  | nil =>
    refine ⟨[], f, rfl, rfl, ?_, here.rest.symm⟩
    rwa [List.length_nil, Nat.zero_mul, Nat.add_zero]
  | cons item items induction =>
    rw [List.length_cons, Nat.succ_mul] at enough ⊢
    have after := here.readItem codec item
    have good := after.good.mpr (by omega)
    obtain ⟨_, split⟩ := readItem_good good
    obtain ⟨read, f', reads, length, there, back⟩ := induction after (by omega)
    refine ⟨(f.readItem codec item).1 :: read, f', ?_, ?_, ?_, ?_⟩
    · rw [getEach]
      simp only [good, if_true, reads]
    · rw [List.length_cons, length]
    · rwa [Nat.add_comm (items.length * codec.width), ← Nat.add_assoc]
    · rw [← here.rest, split, after.rest, back, Codec.encodeAll_cons, List.append_assoc]

/-- A block that is read into a fresh one, from a region that lies in the file. -/
theorem readClusterBlock_gets {place : Nat} {f : Stream} (here : At file place f)
    {regionBytesLeft nodes : Nat} (region : place + regionBytesLeft ≤ file.length)
    (nodesAre : nodes = value ((file.drop (place + 8)).take 4)) :
    match readClusterBlock memory f ⟨0, []⟩ regionBytesLeft with
    | none => nodes * 8 + 12 ≤ regionBytesLeft ∧ memory < nodes * 8
    | some (ok, cb, f') =>
      cb.completedPrefixCursor.toNat = numberAt file place 8 0 ∧
      (nodes * 8 + 12 ≤ regionBytesLeft → nodes * 8 ≤ memory) ∧
      (ok = true ↔ nodes * 8 + 12 ≤ regionBytesLeft) ∧
      (ok = false → cb.initialHighWater = []) ∧
      (ok = true → cb.initialHighWater.length = nodes ∧ At file (place + 12 + nodes * 8) f' ∧
        file.drop place = serializeClusterBlock cb ++ f'.rest) := by
  have cursor : (f.readItem u64 0).1.toNat = numberAt file place 8 0 :=
    @readItem_bits_toNat _ _ _ here 8 0
  have afterCursor : At file (place + 8) (f.readItem u64 0).2 := here.readItem u64 0
  have cursorGood := @readItem_good _ u64 f 0
  unfold readClusterBlock
  simp only
  generalize f.readItem u64 0 = cursorRead at *
  obtain ⟨cursorItem, f⟩ := cursorRead
  have afterCount := afterCursor.readNumber 4 0
  have countIs := @At.readNumber_eq _ _ _ afterCursor 4 0
  have countGood := @readNumber_good f 4 0
  simp only at *
  generalize f.readNumber 4 0 = countRead at *
  obtain ⟨nodeCount, f'⟩ := countRead
  simp only [Bool.or_eq_true, Bool.not_eq_true', decide_eq_true_eq] at *
  by_cases torn : f.good = false
  · have short : ¬ nodes * 8 + 12 ≤ regionBytesLeft := fun enough =>
      Bool.false_ne_true (torn.symm.trans (afterCursor.good.mpr (by omega)))
    rw [if_pos torn]
    exact ⟨cursor, fun enough => absurd enough short, iff_of_false Bool.false_ne_true short,
      fun _ => rfl, nofun⟩
  rw [if_neg torn]
  by_cases refused : f'.good = false ∨ regionBytesLeft < nodeCount * 8 + 12
  · have short : ¬ nodes * 8 + 12 ≤ regionBytesLeft := by
      intro enough
      rcases refused with torn' | large
      · exact Bool.false_ne_true (torn'.symm.trans (afterCount.good.mpr (by omega)))
      · rw [countIs (by omega), ← nodesAre] at large
        omega
    rw [if_pos refused]
    exact ⟨cursor, fun enough => absurd enough short, iff_of_false Bool.false_ne_true short,
      fun _ => rfl, nofun⟩
  · obtain ⟨good', room⟩ := not_or.mp refused
    rw [Bool.not_eq_false] at torn good'
    have inside := afterCount.good.mp good'
    have same : nodeCount = nodes := (countIs inside).trans nodesAre.symm
    subst same
    rw [if_neg refused]
    rcases Nat.lt_or_ge memory (nodeCount * 8) with large | fits
    · rw [resize_eq_none large]
      exact ⟨by omega, large⟩
    · obtain ⟨resized, isResized, length⟩ := @resize_length _ u64 _ _ fits []
      obtain ⟨read, last, reads, readLength, there, back⟩ := getEach_gets u64 resized
        afterCount (by rw [length]; change place + 8 + 4 + nodeCount * 8 ≤ _; omega)
      rw [isResized]
      simp only [Option.bind_eq_bind, Option.bind_some, reads]
      refine ⟨cursor, fun _ => fits, iff_of_true rfl (by omega), nofun, fun _ => ⟨?_, ?_, ?_⟩⟩
      · rw [readLength, length]
      · rw [length] at there
        exact there
      · have count : littleEndian 4 (read.length % 2 ^ 32) = littleEndian 4 nodeCount := by
          have small : nodeCount < 2 ^ 32 := by
            have bound := value_lt ((file.drop (place + 8)).take 4)
            rw [← nodesAre, List.length_take, List.length_drop, Nat.min_eq_left (by omega)]
              at bound
            exact bound
          rw [readLength, length, Nat.mod_eq_of_lt small]
        rw [serializeClusterBlock, count, List.append_assoc, List.append_assoc, ← back,
          ← afterCount.rest, ← (countGood good').2, ← here.rest]
        exact (cursorGood torn).2

/-! ## Reading the file -/

theorem at_drop {place : Nat} (inside : place ≤ file.length) :
    At file place (Stream.ofFile (file.drop place)) :=
  ⟨rfl, iff_of_true rfl inside⟩

theorem readCheckpoint_footer (junk : Nat → Nat) (out : CheckpointLoadResult) :
    (¬ HasFooter file → readCheckpoint memory junk file out =
        some (false, { out with ok := false })) ∧
      (HasFooter file → readCheckpoint memory junk file out =
        readRegion memory junk file (trailerOffset file) (trailerLen file)
          { out with ok := false }) := by
  unfold readCheckpoint
  rcases Nat.lt_or_ge file.length CKPT_FOOTER_SIZE with short | long
  · rw [if_pos short]
    exact ⟨fun _ => rfl, fun footer => absurd footer.size (Nat.not_le.mpr short)⟩
  rw [if_neg (Nat.not_lt.mpr long)]
  change 29 ≤ file.length at long
  have start := @at_drop file (file.length - CKPT_FOOTER_SIZE) (Nat.sub_le _ _)
  have magicIs := @At.read_eq _ _ _ start (List.replicate 9 0)
    (by rw [List.length_replicate]; change file.length - 29 + 9 ≤ _; omega)
  have magic := start.read (List.replicate 9 0)
  rw [List.length_replicate] at magicIs magic
  have offsetPlace : file.length - CKPT_FOOTER_SIZE + 9 = file.length - 20 := by
    change file.length - 29 + 9 = _
    omega
  rw [offsetPlace] at magic
  have offsetIs : _ = trailerOffset file := @At.readNumber_eq _ _ _ magic 8 0 (by omega)
  have offset := magic.readNumber 8 0
  rw [show file.length - 20 + 8 = file.length - 12 by omega] at offset
  have lenIs : _ = trailerLen file := @At.readNumber_eq _ _ _ offset 8 0 (by omega)
  have len := offset.readNumber 8 0
  rw [show file.length - 12 + 8 = file.length - 4 by omega] at len
  have schemaIs := @At.readNumber_eq _ _ _ len 4 0 (by omega)
  have schema := len.readNumber 4 0
  have good := schema.good.mpr (by omega)
  simp only [magicIs, offsetIs, lenIs, schemaIs, good, Bool.not_true, Bool.false_eq_true, if_false]
  by_cases footer : HasFooter file
  · refine ⟨fun none => absurd footer none, fun _ => ?_⟩
    rw [if_neg (not_not.mpr footer.footerMagic), if_neg (not_not.mpr footer.footerSchema),
      if_neg (not_not.mpr footer.fills)]
  · refine ⟨fun _ => ?_, fun found => absurd found footer⟩
    split
    next => rfl
    next isMagic =>
      split
      next => rfl
      next isSchema =>
        split
        next => rfl
        next fills =>
          exact absurd ⟨long, not_not.mp isMagic, not_not.mp isSchema, not_not.mp fills⟩ footer

def readBlock (memory : Nat) (junk : Nat → Nat) (file : List UInt8)
    (out : CheckpointLoadResult) (f : Stream) : Option (Bool × CheckpointLoadResult) :=
  if out.trailer.clusterSectionPresent != 0 then do
    let consumed := file.length - f.rest.length - trailerOffset file
    let (ok, cluster, f) ← readClusterBlock memory f out.cluster (trailerLen file - consumed)
    let out := { out with cluster }
    if !ok || file.length - f.rest.length != (trailerOffset file + trailerLen file) % 2 ^ 64 then
      some (false, out)
    else readPayload memory (fun i => junk (i + 1)) file out
  else readPayload memory (fun i => junk (i + 1)) file out

private theorem readTrailer_nothing {f : Stream} (nothing : f.rest = []) (junk : Nat)
    (t : CheckpointTrailer) : (readTrailer junk f t).1 = false := by
  have torn : (f.read (littleEndian 9 junk)).2.good = false := by
    unfold Stream.read
    rw [nothing, length_littleEndian]
    split
    next => rfl
    next failed => exact Bool.eq_false_of_not_eq_true failed
  unfold readTrailer
  generalize f.read (littleEndian 9 junk) = read at *
  obtain ⟨magic, f⟩ := read
  simp only at torn ⊢
  rw [torn]
  rfl

private theorem seek_trailer (footer : HasFooter file) (junk : Nat) (t : CheckpointTrailer) :
    let read := readTrailer junk (seek file (trailerOffset file)) t
    (read.1 = true ↔ HasTrailer file) ∧
      (read.1 = true → At file (trailerOffset file + 138) read.2.2 ∧
        file.drop (trailerOffset file) = serializeTrailer read.2.1 ++ read.2.2.rest) := by
  intro read
  by_cases inside : trailerOffset file < 2 ^ 63 ∧ trailerOffset file ≤ file.length
  · have start := at_drop inside.2
    obtain ⟨accepts, reads⟩ := readTrailer_gets start junk t
    have sought : seek file (trailerOffset file) =
        Stream.ofFile (file.drop (trailerOffset file)) := if_pos inside.1
    rw [← sought] at accepts reads
    refine ⟨accepts.trans ⟨fun ⟨whole, magic, schema⟩ => ?_, fun trailer => ?_⟩, reads⟩
    · exact ⟨footer, inside.1, whole, magic, schema⟩
    · exact ⟨trailer.whole, trailer.magic, trailer.schema⟩
  · have nothing : (seek file (trailerOffset file)).rest = [] := by
      unfold seek
      split
      next seekable =>
        exact List.drop_eq_nil_of_le (Nat.le_of_not_le fun reached =>
          inside ⟨seekable, reached⟩)
      next => rfl
    have refused : read.1 = false := readTrailer_nothing nothing junk t
    rw [refused]
    exact ⟨iff_of_false Bool.false_ne_true fun trailer => inside
      ⟨trailer.seekable, Nat.le_trans (Nat.le_add_right _ 138) trailer.whole⟩, nofun⟩

theorem readRegion_trailer (footer : HasFooter file) (junk : Nat → Nat)
    (out : CheckpointLoadResult) :
    (¬ HasTrailer file → ∃ trailer, readRegion memory junk file (trailerOffset file)
        (trailerLen file) out = some (false, { out with trailer })) ∧
      (HasTrailer file → ∃ trailer f, At file (trailerOffset file + 138) f ∧
        file.drop (trailerOffset file) = serializeTrailer trailer ++ f.rest ∧
        readRegion memory junk file (trailerOffset file) (trailerLen file) out =
          readBlock memory junk file { out with trailer } f) := by
  obtain ⟨accepts, reads⟩ := seek_trailer footer (junk 0) out.trailer
  unfold readRegion
  generalize readTrailer (junk 0) (seek file (trailerOffset file)) out.trailer = read at *
  obtain ⟨ok, trailer, f⟩ := read
  simp only at accepts reads ⊢
  cases ok with
  | false =>
    exact ⟨fun _ => ⟨trailer, rfl⟩, fun found => absurd (accepts.mpr found) Bool.false_ne_true⟩
  | true =>
    obtain ⟨here, split⟩ := reads rfl
    exact ⟨fun none => absurd (accepts.mp rfl) none, fun _ => ⟨trailer, f, here, split, rfl⟩⟩

/-! ## What a fresh object holds -/

structure CountsFitMemory (memory : Nat) (junk : Nat → Nat) (file : List UInt8) : Prop where
  nodes : HasNodes file → nodeCount file * 8 ≤ memory
  sections : ReachesSections file →
    CountsFit memory file (sectionPieces (fun i => junk (i + 1)) (flagsOf file)) 16

structure Parses (junk : Nat → Nat) (file : List UInt8) : Prop extends
    ReachesSections file where
  complete : sectionsEnd (fun i => junk (i + 1)) file ≤ file.length

structure LeavesBlock (file : List UInt8) (cluster : CheckpointClusterBlock) : Prop where
  cursor : HasCluster file → cluster.completedPrefixCursor.toNat = storedCursor file
  nodes : HasNodes file → cluster.initialHighWater.length = nodeCount file
  noCluster : ¬ HasCluster file → cluster = CheckpointLoadResult.fresh.cluster
  noNodes : ¬ HasNodes file → cluster.initialHighWater = []

structure Leaves (junk : Nat → Nat) (file : List UInt8) (out : CheckpointLoadResult) :
    Prop extends LeavesBlock file out.cluster where
  filled : ReachesSections file → Filled file (fun i => junk (i + 1)) (flagsOf file) 16 out.contents
  unfilled : ¬ ReachesSections file → out.contents = .fresh

def writtenRegion (trailer : CheckpointTrailer) (cluster : CheckpointClusterBlock) : List UInt8 :=
  serializeTrailer trailer ++
    if trailer.clusterSectionPresent != 0 then serializeClusterBlock cluster else []

structure StoresRegion (trailer : CheckpointTrailer) (cluster : CheckpointClusterBlock)
    (file : List UInt8) : Prop where
  region : writtenRegion trailer cluster <+: file.drop (trailerOffset file)
  ends : (trailer.clusterSectionPresent != 0) = true →
    trailerOffset file + (writtenRegion trailer cluster).length + CKPT_FOOTER_SIZE = file.length
  noCluster : (trailer.clusterSectionPresent != 0) = false →
    cluster = CheckpointLoadResult.fresh.cluster

structure StoresResult (out : CheckpointLoadResult) (file : List UInt8) : Prop extends
    StoresRegion out.trailer out.cluster file where
  footer : HasFooter file
  seekable : trailerOffset file < 2 ^ 63
  contents : StoresContents out.contents file
  ok : out.ok = true

def ReadsFresh (memory : Nat) (junk : Nat → Nat) (file : List UInt8) :
    Option (Bool × CheckpointLoadResult) → Prop
  | none => ¬ CountsFitMemory memory junk file
  | some (accepted, out) => CountsFitMemory memory junk file ∧
      (accepted = true ↔ Parses junk file) ∧ Leaves junk file out ∧
        (accepted = true → StoresResult out file)

section Stages

variable {junk : Nat → Nat} {out : CheckpointLoadResult}

theorem readsFresh_refused (unreached : ¬ ReachesSections file)
    (nodesFit : HasNodes file → nodeCount file * 8 ≤ memory)
    (block : LeavesBlock file out.cluster) (fresh : out.contents = .fresh) :
    ReadsFresh memory junk file (some (false, out)) :=
  ⟨⟨nodesFit, fun found => absurd found unreached⟩,
    iff_of_false Bool.false_ne_true fun parses => unreached parses.toReachesSections,
    ⟨block, fun found => absurd found unreached, fun _ => fresh⟩, nofun⟩

/-- The payload is the last stage: what was read before it is handed on. -/
theorem readPayload_readsFresh (trailer : HasTrailer file)
    (blockEnds : clusterFlag file ≠ 0 → blockEnd file + CKPT_FOOTER_SIZE = file.length)
    (nodesFit : HasNodes file → nodeCount file * 8 ≤ memory)
    (block : LeavesBlock file out.cluster) (fresh : out.contents = .fresh)
    (region : StoresRegion out.trailer out.cluster file) :
    ReadsFresh memory junk file (readPayload memory (fun i => junk (i + 1)) file out) := by
  have long : 16 ≤ file.length := Nat.le_trans (by decide) trailer.size
  have reached : ReachesSections file ↔ HasHeader file :=
    ⟨ReachesSections.header, fun header => ⟨trailer, blockEnds, header⟩⟩
  have payload := @deserializeV2_fresh memory file long (fun i => junk (i + 1))
  unfold readPayload
  rw [fresh]
  cases result : deserializeV2 memory (fun i => junk (i + 1)) file .fresh with
  | none =>
    rw [result] at payload
    exact fun fit => payload.2 (fit.sections (reached.mpr payload.1))
  | some pair =>
    obtain ⟨ok, contents⟩ := pair
    rw [result] at payload
    obtain ⟨counts, complete, filled, unfilled, stores⟩ := payload
    refine ⟨⟨nodesFit, fun found => counts (reached.mp found)⟩, ?_,
      ⟨block, fun found => filled (reached.mp found),
        fun none => unfilled fun header => none (reached.mpr header)⟩, fun accepted => ?_⟩
    · exact complete.trans ⟨fun ⟨header, whole⟩ => ⟨reached.mpr header, whole⟩,
        fun parses => ⟨parses.header, parses.complete⟩⟩
    · exact ⟨region, trailer.toHasFooter, trailer.seekable, stores accepted, accepted⟩

private theorem clusterFlag_eq {trailer : CheckpointTrailer} {rest : List UInt8}
    (split : file.drop (trailerOffset file) = serializeTrailer trailer ++ rest) :
    clusterFlag file = trailer.clusterSectionPresent.toNat := by
  have flagAt : ∃ front back, serializeTrailer trailer =
      front ++ (u8.encode trailer.clusterSectionPresent ++ back) ∧ front.length = 129 := by
    refine ⟨CKPT_TRAILER_MAGIC ++ (littleEndian 4 CKPT_SCHEMA_VERSION ++
      (u64.encode trailer.globalAIndex ++ (u64.encode trailer.targetRelations ++
        (u64.encode trailer.loadedSmoothsRaw ++ (u64.encode trailer.loadedSmoothsDedup ++
          (u64.encode trailer.loadedPartials ++ (u64.encode trailer.lp1Bound ++
            (u32.encode trailer.sieveBound ++ uint512Codec.encode trailer.n)))))))),
      u64.encode trailer.elapsedSieveSec, ?_, ?_⟩
    · simp only [serializeTrailer, List.append_assoc]
    · simp [CKPT_TRAILER_MAGIC, u64, u32, Codec.bits, uint512Codec, trailer.n.size]
  obtain ⟨front, back, written, length⟩ := flagAt
  have width : (u8.encode trailer.clusterSectionPresent).length = 1 := u8.length_encode _
  rw [clusterFlag, ← List.drop_drop, split, written, List.append_assoc,
    List.drop_left' length, List.append_assoc, List.take_left' width]
  exact value_littleEndian trailer.clusterSectionPresent.isLt

private theorem readBlock_absent (trailer : HasTrailer file) {f : Stream}
    (split : file.drop (trailerOffset file) = serializeTrailer out.trailer ++ f.rest)
    (freshCluster : out.cluster = CheckpointLoadResult.fresh.cluster)
    (fresh : out.contents = .fresh) (present : (out.trailer.clusterSectionPresent != 0) = false) :
    ReadsFresh memory junk file (readBlock memory junk file out f) := by
  have none : clusterFlag file = 0 := by
    rw [clusterFlag_eq split, bne_eq_false_iff_eq.mp present]
    rfl
  simp only [readBlock, present, Bool.false_eq_true, if_false]
  refine readPayload_readsFresh trailer (fun some => absurd none some)
    (fun nodes => absurd none nodes.flag) ⟨?_, ?_, ?_, ?_⟩ fresh ⟨?_, ?_, ?_⟩
  · exact fun cluster => absurd none cluster.flag
  · exact fun nodes => absurd none nodes.flag
  · exact fun _ => freshCluster
  · intro _
    rw [freshCluster]
    rfl
  · rw [writtenRegion, present, split]
    simp only [Bool.false_eq_true, if_false, List.append_nil]
    exact List.prefix_append _ _
  · rw [present]
    exact nofun
  · exact fun _ => freshCluster

private theorem readBlock_present (trailer : HasTrailer file) {f : Stream}
    (here : At file (trailerOffset file + 138) f)
    (split : file.drop (trailerOffset file) = serializeTrailer out.trailer ++ f.rest)
    (freshCluster : out.cluster = CheckpointLoadResult.fresh.cluster)
    (fresh : out.contents = .fresh) (present : (out.trailer.clusterSectionPresent != 0) = true) :
    ReadsFresh memory junk file (readBlock memory junk file out f) := by
  have some : clusterFlag file ≠ 0 := by
    rw [clusterFlag_eq split]
    exact fun zero => bne_iff_ne.mp present (BitVec.eq_of_toNat_eq zero)
  have cluster : HasCluster file := ⟨trailer, some⟩
  have sum := trailer.sum
  have whole := trailer.whole
  have footer : CKPT_FOOTER_SIZE = 29 := rfl
  have consumed : trailerLen file -
      (file.length - f.rest.length - trailerOffset file) = trailerLen file - 138 := by
    rw [here.rest, List.length_drop]
    omega
  have nodesIff : HasNodes file ↔ nodeCount file * 8 + 12 ≤ trailerLen file - 138 := by
    constructor
    · intro nodes
      have room := nodes.room
      unfold blockEnd at room
      omega
    · intro room
      refine ⟨cluster, ?_⟩
      unfold blockEnd
      omega
  have reads := @readClusterBlock_gets memory file _ _ here (trailerLen file - 138)
    (nodeCount file) (by omega) rfl
  have unreached : ¬ blockEnd file + CKPT_FOOTER_SIZE = file.length →
      ¬ ReachesSections file := fun off reaches => off (reaches.block some)
  simp only [readBlock, present, if_true, consumed, freshCluster]
  change ReadsFresh memory junk file (Option.bind (readClusterBlock memory f ⟨0, []⟩
    (trailerLen file - 138)) _)
  cases result : readClusterBlock memory f ⟨0, []⟩ (trailerLen file - 138) with
  | none =>
    rw [result] at reads
    exact fun fit => absurd (fit.nodes (nodesIff.mpr reads.1)) (Nat.not_le.mpr reads.2)
  | some read =>
    obtain ⟨ok, cb, f'⟩ := read
    rw [result] at reads
    obtain ⟨cursor, room, accepted, noNodes, stores⟩ := reads
    have block : LeavesBlock file cb := by
      refine ⟨fun _ => cursor, fun nodes => ?_, fun none => absurd cluster none,
        fun none => noNodes ?_⟩
      · exact (stores (accepted.mpr (nodesIff.mp nodes))).1
      · exact Bool.eq_false_of_not_eq_true fun ok =>
          none (nodesIff.mpr (accepted.mp ok))
    have nodesFit : HasNodes file → nodeCount file * 8 ≤ memory := fun nodes =>
      room (nodesIff.mp nodes)
    cases ok with
    | false =>
      refine readsFresh_refused (unreached fun ends => ?_) nodesFit block fresh
      exact absurd (accepted.mpr (nodesIff.mp ⟨cluster, ends.le⟩)) Bool.false_ne_true
    | true =>
      obtain ⟨count, there, written⟩ := stores rfl
      have nodes := nodesIff.mpr (accepted.mp rfl)
      have inside := nodes.room
      have stop : file.length - f'.rest.length = blockEnd file := by
        rw [there.rest, List.length_drop]
        unfold blockEnd at inside ⊢
        omega
      have goal : (trailerOffset file + trailerLen file) % 2 ^ 64 =
          file.length - 29 := by
        have fills := trailer.fills
        omega
      simp only [Option.bind_some, Bool.not_true, Bool.false_or, stop, goal]
      cases off : blockEnd file != file.length - 29 with
      | true =>
        refine readsFresh_refused (unreached fun ends => bne_iff_ne.mp off ?_)
          nodesFit block fresh
        omega
      | false =>
        have ends : blockEnd file + CKPT_FOOTER_SIZE = file.length := by
          have same := bne_eq_false_iff_eq.mp off
          omega
        have region : writtenRegion out.trailer cb =
            serializeTrailer out.trailer ++ serializeClusterBlock cb := by
          rw [writtenRegion, present, if_pos rfl]
        refine readPayload_readsFresh trailer (fun _ => ends) nodesFit block fresh
          ⟨?_, fun _ => ?_, ?_⟩
        · rw [region, split, here.rest, written, ← List.append_assoc]
          exact List.prefix_append _ _
        · change _ + (writtenRegion out.trailer cb).length + _ = _
          rw [region, List.length_append, length_serializeTrailer,
            length_serializeClusterBlock, count]
          unfold blockEnd at ends
          omega
        · exact fun absent => absurd (absent.symm.trans present) Bool.false_ne_true

theorem readBlock_readsFresh (trailer : HasTrailer file) {f : Stream}
    (here : At file (trailerOffset file + 138) f)
    (split : file.drop (trailerOffset file) = serializeTrailer out.trailer ++ f.rest)
    (freshCluster : out.cluster = CheckpointLoadResult.fresh.cluster)
    (fresh : out.contents = .fresh) :
    ReadsFresh memory junk file (readBlock memory junk file out f) := by
  cases present : out.trailer.clusterSectionPresent != 0 with
  | false => exact readBlock_absent trailer split freshCluster fresh present
  | true => exact readBlock_present trailer here split freshCluster fresh present

end Stages

/-- What a read of any file into a fresh object comes to. -/
theorem readCheckpoint_fresh (memory : Nat) (junk : Nat → Nat) (file : List UInt8) :
    ReadsFresh memory junk file (readCheckpoint memory junk file .fresh) := by
  obtain ⟨noFooter, footered⟩ := @readCheckpoint_footer memory file junk .fresh
  by_cases trailer : HasTrailer file
  · rw [footered trailer.toHasFooter]
    obtain ⟨t, f, here, split, isBlock⟩ := (@readRegion_trailer memory file
      trailer.toHasFooter junk { CheckpointLoadResult.fresh with ok := false }).2 trailer
    rw [isBlock]
    exact readBlock_readsFresh trailer here split rfl rfl
  · have refused {t : CheckpointTrailer} : ReadsFresh memory junk file
        (some (false, { CheckpointLoadResult.fresh with ok := false, trailer := t })) := by
      refine readsFresh_refused (fun found => trailer found.toHasTrailer)
        (fun found => absurd found.toHasTrailer trailer) ⟨?_, ?_, fun _ => rfl, fun _ => rfl⟩ rfl
      · exact fun found => absurd found.toHasTrailer trailer
      · exact fun found => absurd found.toHasTrailer trailer
    by_cases footer : HasFooter file
    · rw [footered footer]
      obtain ⟨t, isRefused⟩ := (@readRegion_trailer memory file footer junk
        { CheckpointLoadResult.fresh with ok := false }).1 trailer
      rw [isRefused]
      exact refused
    · rw [noFooter footer]
      exact refused

/-! ## The fallback -/

/-- The fields that the file of `checkpoint` does not store are still those of a fresh
object. -/
structure Checkpoint.Untouched (checkpoint : Checkpoint) (out : CheckpointLoadResult) :
    Prop where
  cluster : checkpoint.hasCluster = false → out.cluster = CheckpointLoadResult.fresh.cluster
  smoothBits : checkpoint.contents.hasChar = false → out.contents.fullSmooths.charBits = []
  partialBits : checkpoint.contents.hasChar = false → checkpoint.contents.hasPartials →
    out.contents.partials.charBits = []
  auxPrimes : checkpoint.contents.hasChar = false → out.contents.metadata.auxPrimes = []
  tS : checkpoint.contents.hasChar = false → out.contents.metadata.tS = []
  r : checkpoint.contents.hasChar = false → out.contents.metadata.r = 0

private theorem restoreOver_eq_fresh_iff (checkpoint : Checkpoint) (out : CheckpointLoadResult) :
    checkpoint.restoreOver out = checkpoint.restoreOver .fresh ↔ checkpoint.Untouched out := by
  have parts : checkpoint.Untouched out ↔
      (checkpoint.hasCluster = false → out.cluster = CheckpointLoadResult.fresh.cluster) ∧
      (checkpoint.contents.hasChar = false → out.contents.fullSmooths.charBits = [] ∧
        (checkpoint.contents.hasPartials → out.contents.partials.charBits = []) ∧
        out.contents.metadata.auxPrimes = [] ∧ out.contents.metadata.tS = [] ∧
        out.contents.metadata.r = 0) :=
    ⟨fun ⟨cluster, smoothBits, partialBits, auxPrimes, tS, r⟩ =>
        ⟨cluster, fun none =>
          ⟨smoothBits none, partialBits none, auxPrimes none, tS none, r none⟩⟩,
      fun ⟨cluster, bits⟩ =>
        ⟨cluster, fun none => (bits none).1, fun none => (bits none).2.1,
          fun none => (bits none).2.2.1, fun none => (bits none).2.2.2.1,
          fun none => (bits none).2.2.2.2⟩⟩
  rw [parts]
  unfold Checkpoint.restoreOver V2Contents.restoreOver
  rw [CheckpointLoadResult.mk.injEq, V2Contents.mk.injEq]
  simp only [true_and]
  apply and_congr
  · cases checkpoint.hasCluster <;> simp
  · cases checkpoint.contents.hasChar with
    | true => simp [restoreBatch, restoreMetadata]
    | false =>
      cases checkpoint.contents.hasPartials <;>
        simp [restoreBatch, restoreMetadata, CheckpointLoadResult.fresh, V2Contents.fresh,
          cleared]

theorem loadLatestCheckpoint_eq_iff (memory : Nat) (junk junk' : Nat → Nat)
    (checkpoint : Checkpoint) (storable : checkpoint.Storable memory) (live : List UInt8) :
    loadLatestCheckpoint memory junk (some live) (some checkpoint.bytes) .fresh =
        readCheckpoint memory junk' checkpoint.bytes .fresh ↔
      ∃ accepted out, readCheckpoint memory junk live .fresh = some (accepted, out) ∧
        if accepted then out = checkpoint.restoreOver .fresh else checkpoint.Untouched out := by
  rw [readCheckpoint_bytes storable]
  unfold loadLatestCheckpoint
  cases read : readCheckpoint memory junk live .fresh with
  | none => simp [read]
  | some result =>
    rcases result with ⟨accepted, out⟩
    cases accepted with
    | true => simp [read]
    | false => simp [read, readCheckpoint_bytes storable, restoreOver_eq_fresh_iff]

/-- The live file is refused without a throw, and no value of it is left in the fields that
the previous file does not store. -/
structure FallsBack (memory : Nat) (junk : Nat → Nat) (previous : Checkpoint)
    (live : List UInt8) : Prop where
  counts : CountsFitMemory memory junk live
  refused : ¬ Parses junk live
  cluster : previous.hasCluster = false → HasCluster live →
    storedCursor live = 0 ∧ (HasNodes live → nodeCount live = 0)
  characters : previous.contents.hasChar = false → ReachesSections live →
    auxCount live (fun i => junk (i + 1)) (flagsOf live) 16 = 0 ∧
      smoothBits live (fun i => junk (i + 1)) (flagsOf live) 16 = 0 ∧
      (previous.contents.hasPartials →
        partialBits live (fun i => junk (i + 1)) (flagsOf live) 16 = 0)

section Untouched

variable {junk : Nat → Nat} {previous : Checkpoint} {live : List UInt8}
  {out : CheckpointLoadResult}

theorem cluster_untouched_iff (block : LeavesBlock live out.cluster) :
    out.cluster = CheckpointLoadResult.fresh.cluster ↔
      (HasCluster live → storedCursor live = 0 ∧ (HasNodes live → nodeCount live = 0)) := by
  constructor
  · intro fresh cluster
    refine ⟨?_, fun nodes => ?_⟩
    · rw [← block.cursor cluster, fresh]
      rfl
    · rw [← block.nodes nodes, fresh]
      rfl
  · intro nothing
    by_cases cluster : HasCluster live
    · obtain ⟨cursor, nodes⟩ := nothing cluster
      have cursorIs : out.cluster.completedPrefixCursor = 0 :=
        BitVec.eq_of_toNat_eq ((block.cursor cluster).trans cursor)
      have waterIs : out.cluster.initialHighWater = [] := by
        by_cases found : HasNodes live
        · exact List.length_eq_zero_iff.mp ((block.nodes found).trans (nodes found))
        · exact block.noNodes found
      cases out with
      | mk _ _ cluster _ =>
        cases cluster with
        | mk cursor water => exact congrArg₂ _ cursorIs waterIs
    · exact block.noCluster cluster

private theorem characters_untouched_iff (leaves : Leaves junk live out) (hasPartials : Bool) :
    (out.contents.fullSmooths.charBits = [] ∧ (hasPartials → out.contents.partials.charBits = []) ∧
        out.contents.metadata.auxPrimes = [] ∧ out.contents.metadata.tS = [] ∧
        out.contents.metadata.r = 0) ↔
      (ReachesSections live → auxCount live (fun i => junk (i + 1)) (flagsOf live) 16 = 0 ∧
          smoothBits live (fun i => junk (i + 1)) (flagsOf live) 16 = 0 ∧
          (hasPartials → partialBits live (fun i => junk (i + 1)) (flagsOf live) 16 = 0)) := by
  by_cases reaches : ReachesSections live
  · have filled := leaves.filled reaches
    rw [← filled.smoothBits, ← filled.partialBits, List.length_eq_zero_iff, List.length_eq_zero_iff]
    constructor
    · rintro ⟨smooths, partials, auxPrimes, tS, r⟩ _
      refine ⟨?_, smooths, partials⟩
      rw [← filled.auxPrimes, auxPrimes]
      rfl
    · intro nothing
      obtain ⟨aux, smooths, partials⟩ := nothing reaches
      refine ⟨smooths, partials, ?_, ?_, BitVec.eq_of_toNat_eq (filled.r.trans aux)⟩
      · exact List.length_eq_zero_iff.mp (filled.auxPrimes.trans aux)
      · exact List.length_eq_zero_iff.mp (filled.tS.trans aux)
  · rw [leaves.unfilled reaches]
    exact ⟨fun _ found => absurd found reaches, fun _ => ⟨rfl, fun _ => rfl, rfl, rfl, rfl⟩⟩

theorem untouched_iff (leaves : Leaves junk live out) : previous.Untouched out ↔
      (previous.hasCluster = false → HasCluster live →
        storedCursor live = 0 ∧ (HasNodes live → nodeCount live = 0)) ∧
      (previous.contents.hasChar = false → ReachesSections live →
        auxCount live (fun i => junk (i + 1)) (flagsOf live) 16 = 0 ∧
          smoothBits live (fun i => junk (i + 1)) (flagsOf live) 16 = 0 ∧
          (previous.contents.hasPartials →
            partialBits live (fun i => junk (i + 1)) (flagsOf live) 16 = 0)) := by
  have cluster := cluster_untouched_iff leaves.toLeavesBlock
  have characters := characters_untouched_iff leaves previous.contents.hasPartials
  constructor
  · intro untouched
    exact ⟨fun none => cluster.mp (untouched.cluster none), fun none => characters.mp
      ⟨untouched.smoothBits none, untouched.partialBits none, untouched.auxPrimes none,
        untouched.tS none, untouched.r none⟩⟩
  · rintro ⟨noCluster, noChar⟩
    refine ⟨fun none => cluster.mpr (noCluster none), fun none => ?_, fun none => ?_,
      fun none => ?_, fun none => ?_, fun none => ?_⟩
    · exact (characters.mpr (noChar none)).1
    · exact (characters.mpr (noChar none)).2.1
    · exact (characters.mpr (noChar none)).2.2.1
    · exact (characters.mpr (noChar none)).2.2.2.1
    · exact (characters.mpr (noChar none)).2.2.2.2

end Untouched

/-- What a fresh read of the previous file returns, of which the live file says the same. -/
theorem readCheckpoint_storesResult {memory : Nat} {previous : Checkpoint}
    (storable : previous.Storable memory) {live : List UInt8}
    (stores : StoresResult (previous.restoreOver .fresh) live) (junk : Nat → Nat) :
    readCheckpoint memory junk live .fresh = some (true, previous.restoreOver .fresh) := by
  have long : 16 ≤ live.length := Nat.le_trans (by decide) stores.footer.size
  have contents : StoresContents previous.contents.restored live :=
    restoreOver_fresh previous.contents ▸ stores.contents
  have payload : ∀ junk, deserializeV2 memory junk live CheckpointLoadResult.fresh.contents =
      some (true, previous.contents.restoreOver CheckpointLoadResult.fresh.contents) := by
    intro junk
    rw [show previous.contents.restoreOver CheckpointLoadResult.fresh.contents =
      previous.contents.restored from restoreOver_fresh previous.contents]
    exact deserializeV2_storesContents storable.contents long contents junk
  have sought : seek live (trailerOffset live) =
      Stream.ofFile (live.drop (trailerOffset live)) := if_pos stores.seekable
  have ends := stores.ends
  obtain ⟨rest, split⟩ := stores.region
  have sum : (trailerOffset live + trailerLen live + 29) % 2 ^ 64 = live.length :=
    stores.footer.fills
  have remaining : live.length - trailerOffset live = _ := List.length_drop.symm
  rw [(readCheckpoint_footer junk .fresh).2 stores.footer]
  unfold readRegion
  rw [sought]
  rw [← split] at remaining ⊢
  unfold writtenRegion at ends remaining ⊢
  rw [List.append_assoc, readTrailer_serializeTrailer]
  simp only [Checkpoint.restoreOver, Bool.not_true, Bool.false_eq_true, if_false] at *
  cases hasCluster : previous.hasCluster with
  | false =>
    have absent : (previous.trailer.clusterSectionPresent != 0) = false := hasCluster
    simp only [absent, Bool.false_eq_true, if_false, readPayload, payload]
    rfl
  | true =>
    have present : (previous.trailer.clusterSectionPresent != 0) = true := hasCluster
    have bound := trailerLen_lt live
    have length := length_serializeClusterBlock previous.cluster
    simp only [present, hasCluster, if_true, forall_const, List.length_append,
      length_serializeTrailer, length] at ends remaining
    change _ + _ + 29 = _ at ends
    have left : trailerLen live - (live.length - (serializeClusterBlock previous.cluster ++
        rest).length - trailerOffset live) =
        previous.cluster.initialHighWater.length * 8 + 12 := by
      rw [List.length_append, length]
      omega
    have stop : live.length - rest.length =
        (trailerOffset live + trailerLen live) % 2 ^ 64 := by
      omega
    simp only [present, if_true, Stream.rest_ofFile, left,
      readClusterBlock_serialize storable.nodes storable.room rfl, Option.bind_eq_bind,
      Option.bind_some, stop, Bool.not_true, Bool.false_or, bne_self_eq_false,
      Bool.false_eq_true, if_false, readPayload, payload]
    rfl

/-- The fallback gives what a fresh read of the previous file gives, exactly when it starts
from a clean object, or when the live file says the same as the previous one. -/
theorem loadLatestCheckpoint_iff (memory : Nat) (junk junk' : Nat → Nat)
    (previous : Checkpoint) (storable : previous.Storable memory) (live : List UInt8) :
    loadLatestCheckpoint memory junk (some live) (some previous.bytes) .fresh =
        readCheckpoint memory junk' previous.bytes .fresh ↔
      FallsBack memory junk previous live ∨ StoresResult (previous.restoreOver .fresh) live := by
  rw [loadLatestCheckpoint_eq_iff memory junk junk' previous storable live]
  have reads := readCheckpoint_fresh memory junk live
  constructor
  · rintro ⟨accepted, out, isRead, left⟩
    rw [isRead] at reads
    obtain ⟨counts, accepts, leaves, stores⟩ := reads
    cases accepted with
    | true => exact .inr (left ▸ stores rfl)
    | false =>
      obtain ⟨cluster, characters⟩ := (untouched_iff leaves).mp left
      exact .inl ⟨counts, fun parses => absurd (accepts.mpr parses) Bool.false_ne_true,
        cluster, characters⟩
  · rintro (clean | stores)
    · cases isRead : readCheckpoint memory junk live .fresh with
      | none =>
        rw [isRead] at reads
        exact absurd clean.counts reads
      | some read =>
        obtain ⟨accepted, out⟩ := read
        rw [isRead] at reads
        obtain ⟨counts, accepts, leaves, stores⟩ := reads
        cases accepted with
        | true => exact absurd (accepts.mp rfl) clean.refused
        | false =>
          exact ⟨false, out, rfl, (untouched_iff leaves).mpr ⟨clean.cluster, clean.characters⟩⟩
    · exact ⟨true, _, readCheckpoint_storesResult storable stores junk, rfl⟩

/-- A solo checkpoint with a count of 200 square roots, more than the file has. -/
theorem loadLatestCheckpoint_soloCheckpoint :
    loadLatestCheckpoint (2 ^ 40) (fun _ => 0) (some (soloCheckpoint.bytes.set 144 200))
        (some soloCheckpoint.bytes) .fresh =
      readCheckpoint (2 ^ 40) (fun _ => 1) soloCheckpoint.bytes .fresh := by
  have noCluster : clusterFlag (soloCheckpoint.bytes.set 144 200) = 0 := by decide +kernel
  refine (loadLatestCheckpoint_iff (2 ^ 40) (fun _ => 0) (fun _ => 1) soloCheckpoint
    storable_soloCheckpoint _).mpr (.inl ⟨⟨?_, ?_⟩, ?_, ?_, ?_⟩)
  · exact fun nodes => absurd noCluster nodes.flag
  · exact fun _ => by decide +kernel
  · exact fun parses => absurd parses.complete (by decide +kernel)
  · exact fun _ cluster => absurd noCluster cluster.flag
  · exact fun noChar => absurd noChar (by decide)

/-- A live file with one byte changed leaves its cluster block behind, or stops the load
with its array count. -/
theorem loadLatestCheckpoint_mixes : (∃ out, loadLatestCheckpoint (2 ^ 63 - 1) (fun _ => 0)
        (some (clusterCheckpoint.bytes.set 0 0)) (some soloCheckpoint.bytes) .fresh =
          some (true, out) ∧ out.cluster = ⟨4096, [512, 1024]⟩) ∧
      (∃ out, readCheckpoint (2 ^ 63 - 1) (fun _ => 0) soloCheckpoint.bytes .fresh =
          some (true, out) ∧ out.cluster = ⟨0, []⟩) ∧
      loadLatestCheckpoint (2 ^ 63 - 1) (fun _ => 0)
        (some (soloCheckpoint.bytes.set 151 0x10)) (some soloCheckpoint.bytes) .fresh =
          none := by
  refine ⟨⟨⟨true, soloCheckpoint.trailer, ⟨4096, [512, 1024]⟩, branchContents⟩, ?_, rfl⟩,
    ⟨⟨true, soloCheckpoint.trailer, ⟨0, []⟩, branchContents⟩, ?_, rfl⟩, ?_⟩
  · decide +kernel
  · decide +kernel
  · decide +kernel

end CudaMpqs.SieveCheckpoint
