import CudaMpqs.Common.RelationIo

/-! # Relation batches on the wire

The bounds-checked reader of `serialization.cpp`, the relation batch and the incremental
batch made of two of them. An array that does not fit `memory` throws, which is `none`. -/

namespace CudaMpqs.Serialization

open ByteStream RelationIo

/-! ## The reader -/

structure SafeReader where
  rest : List UInt8
  ok : Bool

namespace SafeReader

variable {α : Type}

def ofData (data : List UInt8) : SafeReader := ⟨data, true⟩

def readBytes (r : SafeReader) (n : Nat) : Option (List UInt8) × SafeReader :=
  if r.rest.length < n then (none, { r with ok := false })
  else (some (r.rest.take n), { r with rest := r.rest.drop n })

def readNumber (r : SafeReader) (width initial : Nat) : Nat × SafeReader :=
  match r.readBytes width with
  | (some bytes, r) => (value bytes, r)
  | (none, r) => (initial, r)

def readItems (codec : Codec α) (r : SafeReader) (vec : List α) (count : Nat) :
    List α × SafeReader :=
  match r.readBytes (count * codec.width) with
  | (some bytes, r) => (codec.decodeAll count bytes ++ vec.drop count, r)
  | (none, r) => (vec, r)

end SafeReader

/-! ## Relation batches -/

def grow {α : Type} (codec : Codec α) (memory : Nat) (vec : List α) (n : Nat) : Option (List α) :=
  if vec.length < n then resize codec memory vec n else some vec

def resizeBatch (memory : Nat) (b : HostRelationBatch) (nRels nFactors : Nat) :
    Option HostRelationBatch := do
  let sqrtQ ← grow uint512Codec memory b.sqrtQ nRels
  let signs ← grow u8 memory b.signs nRels
  let val2Exps ← grow u32 memory b.val2Exps nRels
  let largePrimes ← grow u128 memory b.largePrimes nRels
  let charBits ← grow u32 memory b.charBits nRels
  let factorOffsets ← grow (Codec.number 8) memory b.factorOffsets (nRels + 1)
  let factorIndices ← grow (Codec.number 4) memory b.factorIndices nFactors
  let factorCounts ← grow u8 memory b.factorCounts nFactors
  return ⟨sqrtQ, signs, val2Exps, largePrimes, charBits, factorOffsets, factorIndices,
    factorCounts, nRels, nFactors⟩

def readArrays (r : SafeReader) (nRels nFacs : Nat) (out : HostRelationBatch) :
    Bool × HostRelationBatch :=
  let (sqrtQ, r) := r.readItems uint512Codec out.sqrtQ nRels
  let (signs, r) := r.readItems u8 out.signs nRels
  let (val2Exps, r) := r.readItems u32 out.val2Exps nRels
  let (largePrimes, r) := r.readItems u128 out.largePrimes nRels
  let (charBits, r) := r.readItems u32 out.charBits nRels
  let (factorOffsets, r) :=
    r.readItems (Codec.number 8) out.factorOffsets ((nRels + 1) % 2 ^ 32)
  let out := { out with sqrtQ, signs, val2Exps, largePrimes, charBits, factorOffsets }
  if 0 < nFacs then
    let (factorIndices, r) := r.readItems (Codec.number 4) out.factorIndices nFacs
    let (factorCounts, r) := r.readItems u8 out.factorCounts nFacs
    (r.ok, { out with factorIndices, factorCounts })
  else (r.ok, out)

/-- Whether the message is accepted, and what is left in `out` either way. -/
def decodeRelationBatch (memory : Nat) (data : List UInt8) (out : HostRelationBatch) :
    Option (Bool × HostRelationBatch) :=
  if data.length < 8 then some (false, out)
  else
    let (nRels, r) := (SafeReader.ofData data).readNumber 4 0
    let (nFacs, r) := r.readNumber 4 0
    if !r.ok then some (false, out)
    else do
      let out ← resizeBatch memory out nRels nFacs
      let (ok, out) := if 0 < nRels then readArrays r nRels nFacs out else (true, out)
      if !ok then return (false, out)
      else return (true, { out with numRelations := nRels, numFactors := nFacs })

def deserializeRelationBatch (memory : Nat) (data : List UInt8) (out : HostRelationBatch) :
    Option (Nat × HostRelationBatch) := do
  let (ok, out) ← decodeRelationBatch memory data out
  return (if ok then out.numRelations else 0, out)

/-! ## Incremental batches -/

def deserializeIncrementalBatch (memory : Nat) (data : List UInt8)
    (fullOut partialOut : HostRelationBatch) :
    Option (Bool × HostRelationBatch × HostRelationBatch) :=
  if data.length < 8 then some (false, fullOut, partialOut)
  else
    let (fullLen, r) := (SafeReader.ofData data).readNumber 4 0
    if !r.ok || r.rest.length < fullLen then some (false, fullOut, partialOut)
    else do
      let (_, fullOut) ← deserializeRelationBatch memory (r.rest.take fullLen) fullOut
      let r := { r with rest := r.rest.drop fullLen }
      let (partialLen, r) := r.readNumber 4 0
      if !r.ok || r.rest.length < partialLen then return (false, fullOut, partialOut)
      else
        let (_, partialOut) ← deserializeRelationBatch memory (r.rest.take partialLen)
          partialOut
        return (true, fullOut, partialOut)

def processIncrementalBatch (memory : Nat) (payload : List UInt8) :
    Option (List HostRelationBatch) := do
  let (ok, fullBatch, partialBatch) ←
    deserializeIncrementalBatch memory payload cleared cleared
  if ok then return [fullBatch, partialBatch].filter (0 < ·.numRelations)
  else return []

/-! ## What a message announces -/

def relCount (data : List UInt8) : Nat := value (data.take 4)

def facCount (data : List UInt8) : Nat := value ((data.drop 4).take 4)

def arrayBytes (nRels nFacs : Nat) : Nat :=
  nRels * (64 + 1 + 4 + 16 + 4) + (nRels + 1) % 2 ^ 32 * 8 + nFacs * (4 + 1)

def Whole (data : List UInt8) : Prop :=
  8 ≤ data.length ∧
    (0 < relCount data → 8 + arrayBytes (relCount data) (facCount data) ≤ data.length)

def Room (memory : Nat) (data : List UInt8) : Prop :=
  8 ≤ data.length → relCount data * 64 ≤ memory ∧ (relCount data + 1) * 8 ≤ memory ∧
      facCount data * 4 ≤ memory

instance (data : List UInt8) : Decidable (Whole data) :=
  inferInstanceAs (Decidable (_ ∧ _))

instance (memory : Nat) (data : List UInt8) : Decidable (Room memory data) :=
  inferInstanceAs (Decidable (_ → _))

/-! ## The reader to its end -/

namespace SafeReader

variable {α : Type}

theorem readNumber_ofData {width : Nat} {data : List UInt8} (enough : width ≤ data.length)
    (initial : Nat) :
    (ofData data).readNumber width initial =
      (value (data.take width), ofData (data.drop width)) := by
  rw [readNumber, readBytes, ofData, if_neg (not_lt.mpr enough)]
  rfl

theorem readItems_ofData {codec : Codec α} {width : Nat} (isWidth : codec.width = width)
    {data : List UInt8} {count : Nat} (enough : count * width ≤ data.length)
    (vec : List α) :
    (ofData data).readItems codec vec count =
      (codec.decodeAll count (data.take (count * width)) ++ vec.drop count,
        ofData (data.drop (count * width))) := by
  rw [readItems, readBytes, ofData, isWidth, if_neg (not_lt.mpr enough)]
  rfl

theorem snd_readItems (codec : Codec α) (r : SafeReader) (vec : List α) (count : Nat) :
    (r.readItems codec vec count).2 = (r.readBytes (count * codec.width)).2 := by
  rw [readItems]
  split <;> rename_i eq <;> rw [eq]

def skip (r : SafeReader) : List Nat → SafeReader
  | [] => r
  | n :: sizes => skip (r.readBytes n).2 sizes

private theorem skip_failed (rest : List UInt8) (sizes : List Nat) :
    (skip ⟨rest, false⟩ sizes).ok = false := by
  induction sizes generalizing rest with
  | nil => rfl
  | cons n sizes induction =>
    rw [skip, readBytes]
    split
    · exact induction rest
    · exact induction _

private theorem ok_skip (data : List UInt8) (sizes : List Nat) :
    (skip (ofData data) sizes).ok = true ↔ sizes.sum ≤ data.length := by
  induction sizes generalizing data with
  | nil => simp [skip, ofData]
  | cons n sizes induction =>
    rw [skip, readBytes, List.sum_cons]
    by_cases short : data.length < n
    · rw [if_pos (show (ofData data).rest.length < n from short)]
      simp only [ofData, skip_failed, Bool.false_eq_true, false_iff]
      omega
    · rw [if_neg (show ¬ (ofData data).rest.length < n from short)]
      have rest := induction (data.drop n)
      rw [List.length_drop] at rest
      exact rest.trans (by omega)

end SafeReader

theorem readArrays_ok (data : List UInt8) (nRels nFacs : Nat) (out : HostRelationBatch) :
    (readArrays (.ofData data) nRels nFacs out).1 = true ↔
      arrayBytes nRels nFacs ≤ data.length := by
  have read : (readArrays (.ofData data) nRels nFacs out).1 =
      ((SafeReader.ofData data).skip [nRels * 64, nRels * 1, nRels * 4, nRels * 16,
        nRels * 4, (nRels + 1) % 2 ^ 32 * 8, nFacs * 4, nFacs * 1]).ok := by
    unfold readArrays
    rcases Nat.eq_zero_or_pos nFacs with rfl | some
    · simp only [lt_irrefl, if_false, SafeReader.snd_readItems]
      rfl
    · simp only [if_pos some, SafeReader.snd_readItems]
      rfl
  rw [read, SafeReader.ok_skip, arrayBytes]
  simp only [List.sum_cons, List.sum_nil]
  omega

/-! ## Decoding into a fresh batch -/

def blankBatch (nRels nFactors : Nat) : HostRelationBatch where
  sqrtQ := List.replicate nRels uint512Codec.zero
  signs := List.replicate nRels u8.zero
  val2Exps := List.replicate nRels u32.zero
  largePrimes := List.replicate nRels u128.zero
  charBits := List.replicate nRels u32.zero
  factorOffsets := List.replicate (nRels + 1) (Codec.number 8).zero
  factorIndices := List.replicate nFactors (Codec.number 4).zero
  factorCounts := List.replicate nFactors u8.zero
  numRelations := nRels
  numFactors := nFactors

theorem grow_nil {α : Type} {codec : Codec α} {memory n width : Nat}
    (isWidth : codec.width = width) (room : n * width ≤ memory) :
    grow codec memory [] n = some (List.replicate n codec.zero) := by
  unfold grow resize
  rcases Nat.eq_zero_or_pos n with rfl | some
  · rfl
  · rw [if_pos (show ([] : List α).length < n from some), isWidth, if_neg (not_lt.mpr room),
      List.take_nil, List.length_nil, Nat.sub_zero, List.nil_append]

private theorem grow_nil_eq_none {α : Type} {codec : Codec α} {memory n width : Nat}
    (isWidth : codec.width = width) (tight : ¬ n * width ≤ memory) :
    grow codec memory [] n = none := by
  have some : 0 < n := Nat.pos_of_ne_zero fun zero => tight (by rw [zero]; omega)
  rw [grow, if_pos (show ([] : List α).length < n from some), resize, isWidth,
    if_pos (not_le.mp tight)]

theorem resizeBatch_cleared (memory nRels nFactors : Nat) :
    resizeBatch memory cleared nRels nFactors =
      if nRels * 64 ≤ memory ∧ (nRels + 1) * 8 ≤ memory ∧ nFactors * 4 ≤ memory then
        some (blankBatch nRels nFactors)
      else none := by
  unfold resizeBatch cleared
  by_cases relations : nRels * 64 ≤ memory
  · simp only [grow_nil (rfl : uint512Codec.width = 64) relations,
      grow_nil (rfl : u8.width = 1) (by omega : nRels * 1 ≤ memory),
      grow_nil (rfl : u32.width = 4) (by omega : nRels * 4 ≤ memory),
      grow_nil (rfl : u128.width = 16) (by omega : nRels * 16 ≤ memory),
      Option.bind_eq_bind, Option.bind_some]
    by_cases offsets : (nRels + 1) * 8 ≤ memory
    · rw [grow_nil (rfl : (Codec.number 8).width = 8) offsets, Option.bind_some]
      by_cases factors : nFactors * 4 ≤ memory
      · rw [if_pos ⟨relations, offsets, factors⟩,
          grow_nil (rfl : (Codec.number 4).width = 4) factors, Option.bind_some,
          grow_nil (rfl : u8.width = 1) (by omega : nFactors * 1 ≤ memory)]
        rfl
      · rw [if_neg (fun room => factors room.2.2),
          grow_nil_eq_none (rfl : (Codec.number 4).width = 4) factors]
        rfl
    · rw [if_neg (fun room => offsets room.2.1),
        grow_nil_eq_none (rfl : (Codec.number 8).width = 8) offsets]
      rfl
  · rw [if_neg (fun room => relations room.1),
      grow_nil_eq_none (rfl : uint512Codec.width = 64) relations]
    rfl

variable {data : List UInt8}

theorem decodeRelationBatch_long (enough : 8 ≤ data.length) (memory : Nat)
    (out : HostRelationBatch) :
    decodeRelationBatch memory data out = do
      let out ← resizeBatch memory out (relCount data) (facCount data)
      let (ok, out) :=
        if 0 < relCount data then
          readArrays (.ofData (data.drop 8)) (relCount data) (facCount data) out
        else (true, out)
      if !ok then return (false, out)
      else return (true, { out with
        numRelations := relCount data
        numFactors := facCount data }) := by
  unfold decodeRelationBatch
  rw [if_neg (by omega), SafeReader.readNumber_ofData (by omega : 4 ≤ data.length)]
  simp only
  rw [SafeReader.readNumber_ofData (by rw [List.length_drop]; omega), List.drop_drop]
  rfl

theorem decodeRelationBatch_isSome (memory : Nat) (data : List UInt8) :
    (decodeRelationBatch memory data cleared).isSome ↔ Room memory data := by
  by_cases enough : 8 ≤ data.length
  · rw [decodeRelationBatch_long enough, resizeBatch_cleared]
    by_cases room : relCount data * 64 ≤ memory ∧ (relCount data + 1) * 8 ≤ memory ∧
        facCount data * 4 ≤ memory
    · rw [if_pos room]
      simp only [Option.bind_eq_bind, Option.bind_some]
      refine iff_of_true ?_ fun _ => room
      generalize (if 0 < relCount data then _ else _ : Bool × HostRelationBatch) = read
      rcases read with ⟨_ | _, out⟩ <;> rfl
    · rw [if_neg room]
      exact iff_of_false nofun fun roomy => room (roomy enough)
  · rw [decodeRelationBatch, if_pos (by omega)]
    exact iff_of_true rfl fun long => absurd long enough

variable {memory : Nat}

theorem decodeRelationBatch_ok {ok : Bool} {out : HostRelationBatch}
    (decoded : decodeRelationBatch memory data cleared = some (ok, out)) :
    ok = true ↔ Whole data := by
  by_cases enough : 8 ≤ data.length
  · rw [decodeRelationBatch_long enough] at decoded
    obtain ⟨resized, -, result⟩ := Option.bind_eq_some_iff.mp decoded
    by_cases some : 0 < relCount data
    · rw [if_pos some] at result
      have whole : Whole data ↔ (readArrays (.ofData (data.drop 8)) (relCount data)
          (facCount data) resized).1 = true := by
        rw [readArrays_ok, List.length_drop]
        exact ⟨fun whole => by have bytes := whole.2 some; omega,
          fun bytes => ⟨enough, fun _ => by omega⟩⟩
      rw [whole]
      cases read : (readArrays (.ofData (data.drop 8)) (relCount data) (facCount data)
          resized).1 <;> simp [read] at result <;> simp [result.1]
    · rw [if_neg some] at result
      have accepted : true = ok := congrArg Prod.fst (Option.some.inj result)
      exact iff_of_true accepted.symm ⟨enough, fun positive => absurd positive some⟩
  · rw [decodeRelationBatch, if_pos (by omega)] at decoded
    have rejected : false = ok := congrArg Prod.fst (Option.some.inj decoded)
    exact iff_of_false (by rw [← rejected]; nofun) fun whole => enough whole.1

theorem deserializeRelationBatch_eq (room : Room memory data) :
    ∃ out, deserializeRelationBatch memory data cleared =
      some (if Whole data then out.numRelations else 0, out) := by
  obtain ⟨⟨ok, out⟩, decoded⟩ :=
    Option.isSome_iff_exists.mp ((decodeRelationBatch_isSome memory data).mpr room)
  refine ⟨out, ?_⟩
  rw [deserializeRelationBatch, decoded]
  simp only [Option.bind_eq_bind, Option.bind_some, decodeRelationBatch_ok decoded]
  rfl

/-! ## The two batches of an incremental batch -/

def fullData (data : List UInt8) : List UInt8 := (data.drop 4).take (value (data.take 4))

def afterFull (data : List UInt8) : List UInt8 := data.drop (4 + value (data.take 4))

def partialData (data : List UInt8) : List UInt8 := fullData (afterFull data)

def Framed (data : List UInt8) : Prop := 4 + value (data.take 4) ≤ data.length

def FullFramed (data : List UInt8) : Prop := 8 ≤ data.length ∧ Framed data

def PartialFramed (data : List UInt8) : Prop := Framed (afterFull data)

structure Intact (data : List UInt8) : Prop where
  fullFramed : FullFramed data
  partialFramed : PartialFramed data
  full : Whole (fullData data)
  partialWhole : Whole (partialData data)

/-- A message that is not intact is refused, and nothing of it is passed on. -/
structure RejectsDamaged (memory : Nat) (payload : List UInt8) : Prop where
  onlyIntact : ∀ fullOut partialOut, deserializeIncrementalBatch memory payload cleared cleared =
      some (true, fullOut, partialOut) → Intact payload
  rejects : ¬ Intact payload → ∃ fullOut partialOut,
    deserializeIncrementalBatch memory payload cleared cleared = some (false, fullOut, partialOut)
  withholds : ¬ Intact payload → processIncrementalBatch memory payload = some []

instance (data : List UInt8) : Decidable (Framed data) := Nat.decLe _ _

instance (data : List UInt8) : Decidable (FullFramed data) :=
  inferInstanceAs (Decidable (_ ∧ _))

instance (data : List UInt8) : Decidable (PartialFramed data) :=
  inferInstanceAs (Decidable (Framed _))

theorem readLength_framed (framed : Framed data) : (SafeReader.ofData data).readNumber 4 0 =
        (value (data.take 4), .ofData (data.drop 4)) ∧
      ¬ (data.drop 4).length < value (data.take 4) := by
  unfold Framed at framed
  refine ⟨SafeReader.readNumber_ofData (by omega) 0, ?_⟩
  rw [List.length_drop]
  omega

theorem readLength_unframed (unframed : ¬ Framed data) :
    ∃ len r, (SafeReader.ofData data).readNumber 4 0 = (len, r) ∧
      (!r.ok || decide (r.rest.length < len)) = true := by
  unfold Framed at unframed
  by_cases short : data.length < 4
  · refine ⟨0, ⟨data, false⟩, ?_, rfl⟩
    rw [SafeReader.readNumber, SafeReader.readBytes,
      if_pos (show (SafeReader.ofData data).rest.length < 4 from short)]
    rfl
  · refine ⟨_, _, SafeReader.readNumber_ofData (by omega) 0, ?_⟩
    simp only [SafeReader.ofData, Bool.not_true, Bool.false_or, decide_eq_true_eq, List.length_drop]
    omega

theorem deserializeIncrementalBatch_framed (framed : FullFramed data) (memory : Nat)
    (fullOut partialOut : HostRelationBatch) :
    deserializeIncrementalBatch memory data fullOut partialOut = do
      let (_, fullOut) ← deserializeRelationBatch memory (fullData data) fullOut
      if PartialFramed data then
        let (_, partialOut) ← deserializeRelationBatch memory (partialData data) partialOut
        return (true, fullOut, partialOut)
      else return (false, fullOut, partialOut) := by
  obtain ⟨read, inside⟩ := readLength_framed framed.2
  have left : (data.drop 4).drop (value (data.take 4)) = afterFull data := List.drop_drop
  unfold deserializeIncrementalBatch
  rw [if_neg (by have enough := framed.1; omega), read]
  simp only [SafeReader.ofData, Bool.not_true, Bool.false_or, decide_eq_true_eq, inside,
    if_false, left]
  congr 1
  funext ⟨count, fullOut⟩
  by_cases partialFramed : PartialFramed data
  · obtain ⟨read, inside⟩ := readLength_framed partialFramed
    rw [SafeReader.ofData] at read
    simp only [read, SafeReader.ofData, Bool.not_true, Bool.false_or, decide_eq_true_eq,
      inside, if_false, if_pos partialFramed]
    rfl
  · obtain ⟨len, r, read, refused⟩ := readLength_unframed partialFramed
    rw [SafeReader.ofData] at read
    simp only [read, refused, if_true, if_neg partialFramed]

theorem deserializeIncrementalBatch_unframed (unframed : ¬ FullFramed data) (memory : Nat)
    (fullOut partialOut : HostRelationBatch) :
    deserializeIncrementalBatch memory data fullOut partialOut =
      some (false, fullOut, partialOut) := by
  unfold deserializeIncrementalBatch
  by_cases short : data.length < 8
  · rw [if_pos short]
  · obtain ⟨len, r, read, refused⟩ :=
      readLength_unframed fun framed => unframed ⟨not_lt.mp short, framed⟩
    simp only [if_neg short, read, refused, if_true]

private theorem processIncrementalBatch_refused {payload : List UInt8}
    {fullOut partialOut : HostRelationBatch}
    (refused : deserializeIncrementalBatch memory payload cleared cleared =
      some (false, fullOut, partialOut)) : processIncrementalBatch memory payload = some [] := by
  rw [processIncrementalBatch, refused]
  rfl

/-- The lengths alone decide what is refused, so a damaged message must fail there, and
the arrays of the first batch are allocated before the second length is read. -/
theorem rejectsDamaged_iff (memory : Nat) (payload : List UInt8) : RejectsDamaged memory payload ↔
      (FullFramed payload →
        if PartialFramed payload then Whole (fullData payload) ∧ Whole (partialData payload)
        else Room memory (fullData payload)) := by
  have rejects (fullOut partialOut : HostRelationBatch)
      (refused : deserializeIncrementalBatch memory payload cleared cleared =
        some (false, fullOut, partialOut)) : RejectsDamaged memory payload := by
    refine ⟨?_, fun _ => ⟨_, _, refused⟩, fun _ => processIncrementalBatch_refused refused⟩
    intro fullOut partialOut accepted
    rw [refused] at accepted
    cases accepted
  by_cases framed : FullFramed payload
  · have result := deserializeIncrementalBatch_framed framed memory cleared cleared
    by_cases partialFramed : PartialFramed payload
    · simp only [partialFramed, if_true, framed, forall_const] at result ⊢
      constructor
      · intro sound
        by_contra damaged
        have broken : ¬ Intact payload := fun intact =>
          damaged ⟨intact.full, intact.partialWhole⟩
        obtain ⟨fullOut, partialOut, refused⟩ := sound.rejects broken
        rw [refused] at result
        obtain ⟨full, -, rest⟩ := Option.bind_eq_some_iff.mp result.symm
        obtain ⟨part, -, last⟩ := Option.bind_eq_some_iff.mp rest
        cases last
      · rintro ⟨full, partialWhole⟩
        have intact : Intact payload := ⟨framed, partialFramed, full, partialWhole⟩
        exact ⟨fun _ _ _ => intact, fun damaged => absurd intact damaged,
          fun damaged => absurd intact damaged⟩
    · simp only [partialFramed, if_false, framed, forall_const] at result ⊢
      have broken : ¬ Intact payload := fun intact => partialFramed intact.partialFramed
      constructor
      · intro sound
        obtain ⟨fullOut, partialOut, refused⟩ := sound.rejects broken
        rw [refused] at result
        obtain ⟨full, decoded, -⟩ := Option.bind_eq_some_iff.mp result.symm
        obtain ⟨decode, isDecode, -⟩ := Option.bind_eq_some_iff.mp decoded
        exact (decodeRelationBatch_isSome _ _).mp (Option.isSome_iff_exists.mpr ⟨_, isDecode⟩)
      · intro room
        obtain ⟨out, decoded⟩ := deserializeRelationBatch_eq room
        rw [decoded] at result
        exact rejects _ _ result
  · exact iff_of_true
      (rejects _ _ (deserializeIncrementalBatch_unframed framed memory cleared cleared))
      fun isFramed => absurd isFramed framed

/-- An incremental batch whose first relation batch is cut after its counts, one relation
and no factors. -/
def truncatedPayload : List UInt8 :=
  [8, 0, 0, 0, 1, 0, 0, 0, 0, 0, 0, 0, 8, 0, 0, 0, 0, 0, 0, 0, 0, 0, 0, 0]

/-- The relation is passed on with every field 0. -/
theorem truncatedPayload_passes : ¬ RejectsDamaged (2 ^ 40) truncatedPayload ∧
      processIncrementalBatch (2 ^ 40) truncatedPayload = some [blankBatch 1 0] := by
  have passes : processIncrementalBatch (2 ^ 40) truncatedPayload =
      some [blankBatch 1 0] := by decide +kernel
  have cut : ¬ Whole (fullData truncatedPayload) := by decide +kernel
  refine ⟨fun sound => ?_, passes⟩
  rw [sound.withholds fun intact => cut intact.full] at passes
  nomatch passes

/-! ## What an accepted message decodes to -/

def offsetTable (data : List UInt8) : List Nat :=
  let stored := if 0 < relCount data then (relCount data + 1) % 2 ^ 32 else 0
  (Codec.number 8).decodeAll stored
      ((data.drop (8 + relCount data * (64 + 1 + 4 + 16 + 4))).take (stored * 8)) ++
    List.replicate (relCount data + 1 - stored) 0

structure Announced (data : List UInt8) (out : HostRelationBatch) : Prop where
  numRelations : out.numRelations = relCount data
  numFactors : out.numFactors = facCount data
  sqrtQ : out.sqrtQ.length = relCount data
  signs : out.signs.length = relCount data
  val2Exps : out.val2Exps.length = relCount data
  largePrimes : out.largePrimes.length = relCount data
  charBits : out.charBits.length = relCount data
  factorOffsets : out.factorOffsets = offsetTable data
  factorIndices : out.factorIndices.length = facCount data
  factorCounts : out.factorCounts.length = facCount data

theorem readArrays_announced (some : 0 < relCount data)
    (enough : 8 + arrayBytes (relCount data) (facCount data) ≤ data.length) :
    Announced data { (readArrays (.ofData (data.drop 8)) (relCount data) (facCount data)
        (blankBatch (relCount data) (facCount data))).2 with
      numRelations := relCount data
      numFactors := facCount data } := by
  have table : offsetTable data = (Codec.number 8).decodeAll ((relCount data + 1) % 2 ^ 32)
        (((((((data.drop 8).drop (relCount data * 64)).drop (relCount data * 1)).drop
          (relCount data * 4)).drop (relCount data * 16)).drop (relCount data * 4)).take
            ((relCount data + 1) % 2 ^ 32 * 8)) ++
      (List.replicate (relCount data + 1) 0).drop ((relCount data + 1) % 2 ^ 32) := by
    have position : 8 + relCount data * 64 + relCount data * 1 + relCount data * 4 +
        relCount data * 16 + relCount data * 4 =
        8 + relCount data * (64 + 1 + 4 + 16 + 4) := by omega
    rw [offsetTable, if_pos some, List.drop_replicate]
    simp only [List.drop_drop, position]
  have overwritten {α : Type} (codec : Codec α) (count : Nat) (bytes : List UInt8) :
      (codec.decodeAll count bytes ++ (List.replicate count codec.zero).drop count).length =
        count := by
    simp
  generalize wrapped : (relCount data + 1) % 2 ^ 32 = stored at table
  rw [arrayBytes, wrapped] at enough
  unfold readArrays blankBatch
  simp only [wrapped]
  rw [@SafeReader.readItems_ofData _ uint512Codec 64 rfl _ _
      (by simp only [List.length_drop]; omega),
    @SafeReader.readItems_ofData _ u8 1 rfl _ _ (by simp only [List.length_drop]; omega),
    @SafeReader.readItems_ofData _ u32 4 rfl _ _ (by simp only [List.length_drop]; omega),
    @SafeReader.readItems_ofData _ u128 16 rfl _ _ (by simp only [List.length_drop]; omega),
    @SafeReader.readItems_ofData _ u32 4 rfl _ _ (by simp only [List.length_drop]; omega),
    @SafeReader.readItems_ofData _ (Codec.number 8) 8 rfl _ _
      (by simp only [List.length_drop]; omega)]
  simp only
  by_cases factors : 0 < facCount data
  · rw [if_pos factors, @SafeReader.readItems_ofData _ (Codec.number 4) 4 rfl _ _
        (by simp only [List.length_drop]; omega),
      @SafeReader.readItems_ofData _ u8 1 rfl _ _ (by simp only [List.length_drop]; omega)]
    exact ⟨rfl, rfl, overwritten _ _ _, overwritten _ _ _, overwritten _ _ _,
      overwritten _ _ _, overwritten _ _ _, table.symm, overwritten _ _ _, overwritten _ _ _⟩
  · rw [if_neg factors]
    exact ⟨rfl, rfl, overwritten _ _ _, overwritten _ _ _, overwritten _ _ _,
      overwritten _ _ _, overwritten _ _ _, table.symm, List.length_replicate,
      List.length_replicate⟩

theorem decodeRelationBatch_announced {out : HostRelationBatch}
    (accepted : decodeRelationBatch memory data cleared = some (true, out)) :
    Announced data out := by
  have whole := (decodeRelationBatch_ok accepted).mp rfl
  rw [decodeRelationBatch_long whole.1] at accepted
  obtain ⟨resized, isResized, result⟩ := Option.bind_eq_some_iff.mp accepted
  have blank : resized = blankBatch (relCount data) (facCount data) := by
    rw [resizeBatch_cleared] at isResized
    split at isResized
    · exact (Option.some.inj isResized).symm
    · cases isResized
  rw [blank] at result
  by_cases some : 0 < relCount data
  · have read := readArrays_announced some (whole.2 some)
    rw [if_pos some] at result
    generalize readArrays _ _ _ _ = arrays at read result
    rcases arrays with ⟨_ | _, out⟩
    · cases result
    · cases result
      exact read
  · rw [if_neg some] at result
    cases result
    have none : relCount data = 0 := Nat.eq_zero_of_not_pos some
    have table : [0] = offsetTable data := by
      rw [offsetTable, none]
      rfl
    unfold blankBatch
    rw [none]
    refine ⟨none.symm, rfl, none.symm, none.symm, none.symm, none.symm, none.symm, table, ?_, ?_⟩
    · exact List.length_replicate
    · exact List.length_replicate

end CudaMpqs.Serialization
