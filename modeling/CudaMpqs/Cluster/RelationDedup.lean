import CudaMpqs.Foundation.FirstByKey
import CudaMpqs.Cluster.RelationAccumulator

/-! # Deduplication on arrival and in one pass

`addRelations` drops a relation whose hash was seen when it arrives,
`dedupRelationsInPlace` compacts a whole batch. Both keep the first relation of every
hash. -/

namespace CudaMpqs

open FirstByKey

/-! ## The hash of a row -/

namespace Relation

open HostRelationBatch

def foldFactor (folded : BitVec 16 × BitVec 32) (factor : Factor) : BitVec 16 × BitVec 32 :=
  (folded.1 ^^^ factor.2.setWidth 16, folded.2 ^^^ BitVec.ofNat 32 factor.1 * MAGIC)

/-- `computeRelationHash` as a function of the row; it reads neither the root nor the
large prime nor the character bits. -/
def hash (row : Relation) : BitVec 64 :=
  let len := BitVec.ofNat 16 row.factors.length
  let (expXor, bodyXor) := row.factors.foldl foldFactor (0, 0)
  let power := (1 : BitVec 32) <<< (row.val2Exp &&& 0x1F)
  let shiftVal := if row.sign != 1 then -power else power
  (len.setWidth 64 <<< 48) ||| (expXor.setWidth 64 <<< 32) ||| (bodyXor ^^^ shiftVal).setWidth 64

end Relation

structure DedupState where
  out : HostRelationBatch
  seen : Finset (BitVec 64)

namespace HostRelationBatch

/-- `has_char ? b.char_bits[i] : 0u`: character bits that do not match the size of the
batch are not read. -/
def written (b : HostRelationBatch) : HostRelationBatch :=
  if b.charBits.length = b.numRelations then b else { b with charBits := [] }

def dedupRow (b : HostRelationBatch) (state : DedupState) (i : Nat) : Option DedupState := do
  let h ← b.computeRelationHash i
  if h ∈ state.seen then return state
  else
    let out ← appendSingleRelation state.out b.written i
    return ⟨out, insert h state.seen⟩

def dedupRelationsInPlace (b : HostRelationBatch) : Option HostRelationBatch :=
  if b.numRelations = 0 then some b
  else do
    let state ← (List.range b.numRelations).foldlM (dedupRow b) ⟨.empty, ∅⟩
    return state.out

/-! ## Checked loops over the factors of a row -/

theorem foldlM_factors {State : Type} (step : State → Nat → Option State)
    (next : State → Factor → State) (indices : List Nat) (counts : List (BitVec 8))
    (reads : ∀ state k index count, indices[k]? = some index → counts[k]? = some count →
      step state k = some (next state (index, count))) (state : State) (start size : Nat)
    (indicesInside : start + size ≤ indices.length)
    (countsInside : start + size ≤ counts.length) :
    (List.range' start size).foldlM step state =
      some ((((indices.drop start).take size).zip ((counts.drop start).take size)).foldl
        next state) := by
  induction size generalizing start state with
  | zero => simp
  | succ size induction =>
    have index := List.getElem?_eq_getElem (show start < indices.length by omega)
    have count := List.getElem?_eq_getElem (show start < counts.length by omega)
    rw [List.range'_succ, List.foldlM_cons, reads state start _ _ index count,
      List.drop_eq_getElem_cons (show start < indices.length by omega),
      List.drop_eq_getElem_cons (show start < counts.length by omega)]
    exact induction _ (start + 1) (by omega) (by omega)

theorem foldl_append_factors (factors : List Factor) (dest : List Nat × List (BitVec 8)) :
    factors.foldl (fun dest factor => (dest.1 ++ [factor.1], dest.2 ++ [factor.2])) dest =
      (dest.1 ++ factors.map Prod.fst, dest.2 ++ factors.map Prod.snd) := by
  induction factors generalizing dest with
  | nil => simp
  | cons factor factors induction => simp [induction]

variable {batch : HostRelationBatch}

theorem Readable.computeRelationHash (readable : batch.Readable) {i : Nat}
    (inside : i < batch.numRelations) :
    batch.computeRelationHash i = some (batch.relation i).hash := by
  rcases readable.row inside with
    ⟨start, stop, isStart, isStop, ordered, left, right, factors, size⟩
  have folded := foldlM_factors batch.hashFactor Relation.foldFactor batch.factorIndices
    batch.factorCounts (fun state k index count isIndex isCount => by
      simp [hashFactor, isIndex, isCount, Relation.foldFactor])
    (0, 0) start (stop - start) (by omega) (by omega)
  rw [← factorSlice, ← factors] at folded
  have len : (BitVec.ofNat 64 stop - BitVec.ofNat 64 start).setWidth 16 =
      BitVec.ofNat 16 (batch.relation i).factors.length := by
    apply BitVec.eq_of_toNat_eq
    simp only [BitVec.toNat_setWidth, BitVec.toNat_sub, BitVec.toNat_ofNat, size]
    omega
  rw [HostRelationBatch.computeRelationHash, isStart, isStop,
    getElem?_eq_getD (inside.trans_le readable.signs) 0,
    getElem?_eq_getD (inside.trans_le readable.val2Exps) 0]
  simp only [Option.bind_eq_bind, Option.bind_some, folded, len]
  rfl

theorem Readable.appendSingleRelation (readable : batch.Readable) {idx : Nat}
    (inside : idx < batch.numRelations) {dest : HostRelationBatch}
    (fits : dest.numFactors + (batch.relation idx).factors.length < 2 ^ 64) :
    appendSingleRelation dest batch idx = some (dest.push (batch.relation idx)) := by
  rcases readable.row inside with
    ⟨start, stop, isStart, isStop, ordered, left, right, factors, size⟩
  have copied := foldlM_factors batch.appendFactor
    (fun dest factor => (dest.1 ++ [factor.1], dest.2 ++ [factor.2])) batch.factorIndices
    batch.factorCounts (fun state k index count isIndex isCount => by
      simp [appendFactor, isIndex, isCount])
    (dest.factorIndices, dest.factorCounts) start (stop - start) (by omega) (by omega)
  rw [← factorSlice, ← factors, foldl_append_factors] at copied
  have total : (dest.numFactors + (stop + 2 ^ 64 - start)) % 2 ^ 64 =
      dest.numFactors + (batch.relation idx).factors.length := by omega
  rw [HostRelationBatch.appendSingleRelation, isStart, isStop,
    getElem?_eq_getD (inside.trans_le readable.sqrtQ) (UInt512.ofUInt32 0),
    getElem?_eq_getD (inside.trans_le readable.signs) 0,
    getElem?_eq_getD (inside.trans_le readable.val2Exps) 0,
    getElem?_eq_getD (inside.trans_le readable.largePrimes) 0]
  simp only [Option.bind_eq_bind, Option.bind_some, copied, total]
  rfl

theorem Readable.factorTotal_lt (readable : batch.Readable) :
    factorTotal batch.relations < 2 ^ 64 := by
  have upTo : ∀ count ≤ batch.numRelations, factorTotal ((List.range count).map batch.relation) ≤
        if count = 0 then 0 else batch.factorOffsets.getD count 0 := by
    intro count
    induction count with
    | zero => simp [factorTotal]
    | succ count induction =>
      intro inside
      rcases readable.row (show count < batch.numRelations by omega) with
        ⟨start, stop, isStart, isStop, ordered, _, _, _, size⟩
      have before := induction (by omega)
      have first : (if count = 0 then 0 else batch.factorOffsets.getD count 0) ≤ start := by
        split
        · exact Nat.zero_le _
        · simp [List.getD_eq_getElem?_getD, isStart]
      rw [List.range_succ, List.map_append, factorTotal_append]
      simp only [factorTotal, List.map_cons, List.map_nil, List.sum_singleton, size,
        Nat.succ_ne_zero, if_false, List.getD_eq_getElem?_getD, isStop, Option.getD_some] at *
      omega
  have all := upTo batch.numRelations le_rfl
  have size := readable.size
  rw [relations]
  split at all
  next => omega
  next some =>
      rcases readable.row (show batch.numRelations - 1 < batch.numRelations by omega) with
        ⟨start, stop, isStart, isStop, _, inside, _⟩
      rw [Nat.sub_add_cancel (by omega)] at isStop
      rw [List.getD_eq_getElem?_getD, isStop, Option.getD_some] at all
      omega

/-! ## What is kept -/

structure Kept (rows : List Relation) (out : HostRelationBatch) (seen : Finset (BitVec 64)) :
    Prop where
  csr : out.Csr
  relations : out.relations = firstByKey Relation.hash ∅ rows
  seen : seen = keysOf Relation.hash rows
  size : out.numFactors ≤ factorTotal rows

theorem kept_nil : Kept [] empty ∅ where
  csr := empty_csr
  relations := rfl
  seen := rfl
  size := le_rfl

variable {rows : List Relation} {out : HostRelationBatch} {seen : Finset (BitVec 64)}

theorem Kept.drop (kept : Kept rows out seen) {row : Relation} (known : row.hash ∈ seen) :
    Kept (rows ++ [row]) out seen where
  csr := kept.csr
  relations := by
    rw [kept.seen] at known
    rw [firstByKey_concat, if_pos known, kept.relations]
  seen := by
    rw [kept.seen] at known
    simp [keysOf_append, kept.seen, known]
  size := by
    rw [factorTotal_append]
    exact kept.size.trans (Nat.le_add_right _ _)

theorem Kept.push (kept : Kept rows out seen) {row : Relation} (fresh : row.hash ∉ seen) :
    Kept (rows ++ [row]) (out.push row) (insert row.hash seen) where
  csr := kept.csr.push row
  relations := by
    rw [kept.seen] at fresh
    rw [firstByKey_concat, if_neg fresh, kept.csr.relations_push, kept.relations]
  seen := by
    rw [keysOf_append, kept.seen, keysOf_cons, keysOf_nil, Finset.union_comm]
    rfl
  size := by
    have size := kept.size
    rw [factorTotal_append]
    simp only [HostRelationBatch.push, factorTotal, List.map_cons, List.map_nil,
      List.sum_singleton] at *
    omega

theorem Kept.fits (kept : Kept rows out seen) {row : Relation}
    (bound : factorTotal (rows ++ [row]) < 2 ^ 64) :
    out.numFactors + row.factors.length < 2 ^ 64 := by
  have size := kept.size
  rw [factorTotal_append] at bound
  simp only [factorTotal, List.map_cons, List.map_nil, List.sum_singleton] at *
  omega

/-- Steps that each drop or push the row they are about. -/
theorem foldlM_kept {State Step : Type} (view : State → HostRelationBatch × Finset (BitVec 64))
    {next : State → Step → Option State} (row : Step → Relation) {steps : List Step}
    (each : ∀ step ∈ steps, ∀ rows state, Kept rows (view state).1 (view state).2 →
      factorTotal (rows ++ [row step]) < 2 ^ 64 → ∃ after, next state step = some after ∧
          Kept (rows ++ [row step]) (view after).1 (view after).2)
    {rows : List Relation} {state : State} (kept : Kept rows (view state).1 (view state).2)
    (bound : factorTotal (rows ++ steps.map row) < 2 ^ 64) :
    ∃ final, steps.foldlM next state = some final ∧
      Kept (rows ++ steps.map row) (view final).1 (view final).2 := by
  induction steps generalizing rows state with
  | nil => exact ⟨state, rfl, by simpa using kept⟩
  | cons step steps induction =>
    have isPrefix : rows ++ [row step] <+: rows ++ (step :: steps).map row := by simp
    rcases each step List.mem_cons_self rows state kept
      (lt_of_le_of_lt (factorTotal_mono isPrefix) bound) with ⟨after, stepped, keptAfter⟩
    rcases induction (fun other inside => each other (List.mem_cons_of_mem _ inside)) keptAfter
      (by simpa using bound) with ⟨final, ran, keptFinal⟩
    exact ⟨final, by simp [stepped, ran], by simpa using keptFinal⟩

/-! ## The pass over a whole batch -/

theorem written_numRelations : batch.written.numRelations = batch.numRelations := by
  unfold written
  split <;> rfl

theorem written_hash (i : Nat) : (batch.written.relation i).hash = (batch.relation i).hash := by
  unfold written
  split <;> rfl

theorem Readable.written (readable : batch.Readable) : batch.written.Readable := by
  unfold HostRelationBatch.written
  split
  · exact readable
  · exact { readable with }

theorem hashes_written :
    batch.written.relations.map Relation.hash = batch.relations.map Relation.hash := by
  simp [relations, written_numRelations, written_hash]

private theorem dedupRow_kept (readable : batch.Readable) {rows : List Relation}
    {state : DedupState}
    (kept : Kept rows state.out state.seen) {i : Nat} (inside : i < batch.numRelations)
    (bound : factorTotal (rows ++ [batch.written.relation i]) < 2 ^ 64) :
    ∃ after, dedupRow batch state i = some after ∧
      Kept (rows ++ [batch.written.relation i]) after.out after.seen := by
  rw [dedupRow, readable.computeRelationHash inside, ← written_hash]
  by_cases known : (batch.written.relation i).hash ∈ state.seen
  · exact ⟨state, by simp [known], kept.drop known⟩
  · have appended := readable.written.appendSingleRelation
      (written_numRelations.symm ▸ inside) (kept.fits bound)
    exact ⟨⟨state.out.push (batch.written.relation i), _⟩, by simp [known, appended],
      kept.push known⟩

theorem dedupRelationsInPlace_spec (readable : batch.Readable) :
    ∃ out, batch.dedupRelationsInPlace = some out ∧
      out.relations = firstByKey Relation.hash ∅ batch.written.relations ∧
      (batch.numRelations ≠ 0 → out.Csr) := by
  unfold dedupRelationsInPlace
  split
  next none =>
      refine ⟨batch, rfl, ?_, fun some => absurd none some⟩
      simp [relations, none, written_numRelations, firstByKey]
  next =>
      have bound := readable.written.factorTotal_lt
      rw [relations, written_numRelations] at bound
      rcases @foldlM_kept _ _ (fun state : DedupState => (state.out, state.seen)) _
        batch.written.relation _
        (fun i member rows state kept => dedupRow_kept readable kept (List.mem_range.mp member))
        [] ⟨.empty, ∅⟩ kept_nil bound with ⟨state, ran, kept⟩
      refine ⟨state.out, by simp [ran], ?_, fun _ => kept.csr⟩
      rw [kept.relations, relations, written_numRelations, List.nil_append]

end HostRelationBatch

/-! ## Arrival batch by batch -/

namespace RelationAccumulator

open HostRelationBatch

/-- The rows of a call in the order in which `addRelations` looks at them. -/
def rowsOf (calls : List (HostRelationBatch × BitVec 8)) :
    List ((HostRelationBatch × BitVec 8) × Nat) :=
  calls.flatMap fun call => (List.range call.1.numRelations).map fun i => (call, i)

def arrive (self : RelationAccumulator) (turn : (HostRelationBatch × BitVec 8) × Nat) :
    Option RelationAccumulator :=
  addRelation turn.1.1 turn.1.2 self turn.2

def rowAt (turn : (HostRelationBatch × BitVec 8) × Nat) : Relation := turn.1.1.relation turn.2

theorem addRelations_eq_arrive (calls : List (HostRelationBatch × BitVec 8))
    (self : RelationAccumulator) :
    calls.foldlM (fun self call => self.addRelations call.1 call.2) self =
      (rowsOf calls).foldlM arrive self := by
  induction calls generalizing self with
  | nil => rfl
  | cons call calls induction =>
    rw [rowsOf, List.flatMap_cons, List.foldlM_append, List.foldlM_cons, List.foldlM_map]
    exact congrArg _ (funext induction)

theorem arrive_kept {rows : List Relation} {self : RelationAccumulator}
    (kept : Kept rows self.accumulated self.seen) {call : HostRelationBatch × BitVec 8}
    (readable : call.1.Readable) {i : Nat} (inside : i < call.1.numRelations)
    (bound : factorTotal (rows ++ [call.1.relation i]) < 2 ^ 64) :
    ∃ after, self.arrive (call, i) = some after ∧
      Kept (rows ++ [call.1.relation i]) after.accumulated after.seen := by
  rw [arrive, addRelation, readable.computeRelationHash inside]
  by_cases known : (call.1.relation i).hash ∈ self.seen
  · exact ⟨self, by simp [known], kept.drop known⟩
  · have appended := readable.appendSingleRelation inside (kept.fits bound)
    exact ⟨⟨self.accumulated.push (call.1.relation i), _,
      Function.update self.perSource call.2 (self.perSource call.2 + 1)⟩,
      by simp [known, appended], kept.push known⟩

theorem rowsOf_map (calls : List (HostRelationBatch × BitVec 8)) :
    (rowsOf calls).map rowAt = calls.flatMap fun call => call.1.relations := by
  simp [rowsOf, List.map_flatMap, relations, Function.comp_def, rowAt]

private theorem foldlM_arrive_kept {turns : List ((HostRelationBatch × BitVec 8) × Nat)}
    (readable : ∀ turn ∈ turns, turn.1.1.Readable ∧ turn.2 < turn.1.1.numRelations)
    (bound : factorTotal (turns.map rowAt) < 2 ^ 64) :
    ∃ final, turns.foldlM arrive new = some final ∧
      Kept (turns.map rowAt) final.accumulated final.seen :=
  @foldlM_kept _ _ (fun self : RelationAccumulator => (self.accumulated, self.seen)) _ rowAt _
    (fun turn member _ _ kept bound =>
      arrive_kept kept (readable turn member).1 (readable turn member).2 bound)
    [] new kept_nil bound

/-- Deduplication on arrival and deduplication of the concatenation keep the same
hashes, in whatever order the batches arrive. The pass over the concatenation leaves the
first row of every hash in an ordered batch. Behind every row that arrives the accumulated
batch is in order and holds the first row of every hash so far, once. -/
theorem addRelations_dedupRelationsInPlace {calls arriving : List (HostRelationBatch × BitVec 8)}
    {whole : HostRelationBatch} (readable : ∀ call ∈ calls, call.1.Readable)
    (wholeReadable : whole.Readable)
    (concatenation : whole.relations = calls.flatMap fun call => call.1.relations)
    (order : arriving.Perm calls) :
    (∃ final deduped,
      arriving.foldlM (fun self call => self.addRelations call.1 call.2) new = some final ∧
        whole.dedupRelationsInPlace = some deduped ∧
        keysOf Relation.hash final.accumulated.relations = keysOf Relation.hash deduped.relations ∧
        deduped.relations = firstByKey Relation.hash ∅ whole.written.relations ∧
        (deduped.relations.map Relation.hash).Nodup ∧
        (whole.numRelations ≠ 0 → deduped.Csr)) ∧
      ∀ taken, taken <+: rowsOf arriving → ∃ self, taken.foldlM arrive new = some self ∧
        self.accumulated.Csr ∧ (self.accumulated.relations.map Relation.hash).Nodup ∧
        self.accumulated.relations = firstByKey Relation.hash ∅ (taken.map rowAt) := by
  have known : ∀ turn ∈ rowsOf arriving, turn.1.1.Readable ∧ turn.2 < turn.1.1.numRelations := by
    intro turn member
    rcases List.mem_flatMap.mp member with ⟨call, inside, row⟩
    rcases List.mem_map.mp row with ⟨i, below, rfl⟩
    exact ⟨readable call (order.mem_iff.mp inside), List.mem_range.mp below⟩
  have rows : ((rowsOf arriving).map rowAt).Perm whole.relations := by
    rw [rowsOf_map, concatenation]
    exact order.flatMap_right _
  have bound : factorTotal ((rowsOf arriving).map rowAt) < 2 ^ 64 := by
    rw [factorTotal_perm rows]
    exact wholeReadable.factorTotal_lt
  constructor
  · rcases foldlM_arrive_kept known bound with ⟨final, ran, kept⟩
    rcases dedupRelationsInPlace_spec wholeReadable with ⟨deduped, passed, same, ordered⟩
    refine ⟨final, deduped, by rw [addRelations_eq_arrive, ran], passed, ?_, same, ?_, ordered⟩
    · rw [kept.relations, same, keysOf_firstByKey, keysOf_firstByKey, keysOf_perm rows]
      simp only [keysOf, hashes_written]
    · rw [same]
      exact firstByKey_nodup _ _
  · intro taken isPrefix
    have shorter := factorTotal_mono (isPrefix.map rowAt)
    rcases foldlM_arrive_kept (fun turn member => known turn (isPrefix.subset member))
      (lt_of_le_of_lt shorter bound) with ⟨self, ran, kept⟩
    refine ⟨self, ran, kept.csr, ?_, kept.relations⟩
    rw [kept.relations]
    exact firstByKey_nodup _ _

def plainRow : Relation := ⟨UInt512.ofUInt32 3, 1, 2, 1, 0, [(4, 1)]⟩

def negativeRow : Relation := ⟨UInt512.ofUInt32 5, 0xFF, 0, 1, 0, [(4, 1), (7, 2)]⟩

/-- Two workers send the same row; the second batch arrives first. -/
theorem addRelations_dedupRelationsInPlace_repeated : (∃ final deduped,
      [(((empty.push negativeRow).push plainRow), (2 : BitVec 8)), (empty.push plainRow, 1)].foldlM
          (fun self call => self.addRelations call.1 call.2) new = some final ∧
        (((empty.push plainRow).push negativeRow).push plainRow).dedupRelationsInPlace =
          some deduped ∧
        keysOf Relation.hash final.accumulated.relations = keysOf Relation.hash deduped.relations ∧
        deduped.relations = firstByKey Relation.hash ∅
          (((empty.push plainRow).push negativeRow).push plainRow).written.relations ∧
        (deduped.relations.map Relation.hash).Nodup ∧
        ((((empty.push plainRow).push negativeRow).push plainRow).numRelations ≠ 0 → deduped.Csr)) ∧
      ∀ taken, taken <+: rowsOf
          [(((empty.push negativeRow).push plainRow), (2 : BitVec 8)), (empty.push plainRow, 1)] →
        ∃ self, taken.foldlM arrive new = some self ∧
          self.accumulated.Csr ∧ (self.accumulated.relations.map Relation.hash).Nodup ∧
          self.accumulated.relations = firstByKey Relation.hash ∅ (taken.map rowAt) := by
  have one := empty_csr.push plainRow
  have two := (empty_csr.push negativeRow).push plainRow
  have three := (one.push negativeRow).push plainRow
  apply addRelations_dedupRelationsInPlace _ (three.readable (by decide)) _
    (List.Perm.swap _ _ _)
  · simp only [List.forall_mem_cons]
    exact ⟨one.readable (by decide), two.readable (by decide), by simp⟩
  · decide +kernel

end RelationAccumulator

end CudaMpqs
