import CudaMpqs.Common.BatchRows
import CudaMpqs.Matrix.ExpandedMatrix
import CudaMpqs.Matrix.Preprocess
import CudaMpqs.Sqrt.SquareRootStage

/-! # Solutions of the expanded matrix

What `orchestrator.cpp` hands to the square root after a preprocessed matrix was solved: the smooth
and the partial relations in one batch, a vector of bits for each kernel vector, and the root of
the large primes that the vector selects. -/

namespace CudaMpqs.ExpandedSolutions

open HostMatrixCSR UInt512 SquareRoot BatchedSquareRoot BatchedGcd ExpandedMatrixBuilder
  SquareRootStage

/-! ## The batch and its solutions -/

def withoutLargePrimes (batch : HostRelationBatch) : HostRelationBatch :=
  { batch with
    largePrimes :=
      List.replicate batch.numRelations 1 ++ batch.largePrimes.drop batch.numRelations }

def repackStep (numRelations : Nat) (bits : List (BitVec 64)) (idx : Nat) : List (BitVec 64) :=
  if idx < numRelations then bits.modify (idx / 64) (· ||| 1#64 <<< (idx % 64)) else bits

def repack (numRelations : Nat) (indices : List Nat) : List (BitVec 64) :=
  indices.foldl (repackStep numRelations) (List.replicate ((numRelations + 63) / 64) 0)

/-- The product over the map, in some order of its keys; a count has 32 bits. -/
def lpProduct (mont : Montgomery) (increments keys : List (BitVec 128)) : UInt512 :=
  keys.foldl
    (fun productMont lp =>
      let half := BitVec.ofNat 32 (increments.count lp) / 2
      if 0 < half then
        mont.mul productMont (mont.pow (mont.transform (ofUInt128 lp)) (ofUInt32 half))
      else productMont)
    (mont.transform (ofUInt32 1))

structure Sources where
  smooths : HostRelationBatch
  partials : HostRelationBatch

namespace Sources

variable (sources : Sources)

/-- The smooth relations, and the partial ones behind them. Character bits are not copied. -/
def combined : HostRelationBatch where
  sqrtQ := sources.smooths.sqrtQ ++ sources.partials.sqrtQ
  signs := sources.smooths.signs ++ sources.partials.signs
  val2Exps := sources.smooths.val2Exps ++ sources.partials.val2Exps
  largePrimes := sources.smooths.largePrimes ++ sources.partials.largePrimes
  charBits := []
  factorOffsets := sources.smooths.factorOffsets ++
    sources.partials.factorOffsets.tail.map (· + sources.smooths.numFactors)
  factorIndices := sources.smooths.factorIndices ++ sources.partials.factorIndices
  factorCounts := sources.smooths.factorCounts ++ sources.partials.factorCounts
  numRelations := sources.smooths.numRelations + sources.partials.numRelations
  numFactors := sources.smooths.numFactors + sources.partials.numFactors

/-- The increments of `lp_counts`, one by one. A smooth relation with a large prime has it
twice. -/
def lpIncrements (bits : List (BitVec 64)) : List (BitVec 128) :=
  ((List.range sources.combined.numRelations).filter (bitAt bits)).flatMap fun idx =>
    if 1 < (sources.combined.relation idx).largePrime then
      List.replicate (if idx < sources.smooths.numRelations then 2 else 1)
        (sources.combined.relation idx).largePrime
    else []

/-- What the square root works on in place of the reduced rows. `iteration` is the order in which
the counts of one solution are visited. -/
def replaceState (iteration : List (BitVec 128) → List (BitVec 128))
    (solutions : List (List (BitVec 64))) (stage : Stage) : Stage :=
  { stage with
    hostRelations := withoutLargePrimes sources.combined
    kernelSolutions := solutions
    precomputedLpY := solutions.map fun bits =>
      lpProduct (.ofModulus stage.N) (sources.lpIncrements bits)
        (iteration (sources.lpIncrements bits)) }

def expandSolutions (fuel : Nat) (iteration : List (BitVec 128) → List (BitVec 128))
    (rowMap : List Nat) (mergeTree : MergeTree) (stage : Stage) : Option Stage := do
  let solutions ← stage.kernelSolutions.mapM fun kv =>
    (expandKernelVector fuel kv rowMap.length rowMap mergeTree).map
      (repack sources.combined.numRelations)
  return sources.replaceState iteration solutions stage

end Sources

/-! ## The bits -/

section Bits

variable {numRelations : Nat} {bits : List (BitVec 64)}

theorem length_repackStep (idx : Nat) :
    (repackStep numRelations bits idx).length = bits.length := by
  rw [repackStep]
  split
  · exact List.length_modify _ _ _
  · rfl

private theorem bitAt_repackStep (size : bits.length = (numRelations + 63) / 64) {i : Nat}
    (inside : i < numRelations) (idx : Nat) :
    bitAt (repackStep numRelations bits idx) i = (bitAt bits i || decide (idx = i)) := by
  have word : i / 64 < bits.length := by omega
  have same : idx = i ↔ idx / 64 = i / 64 ∧ idx % 64 = i % 64 := by omega
  by_cases below : idx < numRelations
  · have place : i / 64 < (bits.modify (idx / 64) (· ||| 1#64 <<< (idx % 64))).length := by
      rwa [List.length_modify]
    rw [repackStep, if_pos below, bitAt, bitAt, List.getD_eq_getElem _ _ place,
      List.getD_eq_getElem _ _ word, List.getElem_modify]
    by_cases here : idx / 64 = i / 64
    · have low : i % 64 < 64 := Nat.mod_lt _ (by decide)
      have bit : (1#64 <<< (idx % 64)).getLsbD (i % 64) = decide (idx % 64 = i % 64) := by
        rw [BitVec.getLsbD_shiftLeft, BitVec.getLsbD_one, Bool.eq_iff_iff]
        simp only [low, decide_true, Bool.true_and, Bool.and_eq_true, Bool.not_eq_true',
          decide_eq_false_iff_not, decide_eq_true_eq]
        omega
      rw [if_pos here, BitVec.getLsbD_or, bit]
      simp [same, here]
    · rw [if_neg here, decide_eq_false (by omega), Bool.or_false]
  · rw [repackStep, if_neg below, decide_eq_false (by omega), Bool.or_false]

/-- The repacked vector selects the indices it was made from. -/
theorem bitAt_repack (indices : List Nat) {i : Nat} (inside : i < numRelations) :
    bitAt (repack numRelations indices) i = decide (i ∈ indices) := by
  have steps : ∀ indices : List Nat, ∀ bits : List (BitVec 64),
      bits.length = (numRelations + 63) / 64 →
      bitAt (indices.foldl (repackStep numRelations) bits) i =
        (bitAt bits i || decide (i ∈ indices)) := by
    intro indices
    induction indices with
    | nil => simp
    | cons idx indices induction =>
      intro bits size
      rw [List.foldl_cons, induction _ ((length_repackStep idx).trans size),
        bitAt_repackStep size inside, Bool.or_assoc]
      simp [List.mem_cons, eq_comm]
  rw [repack, steps indices _ List.length_replicate]
  have empty : bitAt (List.replicate ((numRelations + 63) / 64) 0) i = false := by
    rw [bitAt, List.getD_replicate _ (by omega)]
    exact BitVec.getLsbD_zero
  rw [empty, Bool.false_or]

end Bits

/-- The rows that `Perform` selects with a vector of bits. -/
theorem selectedRows_unpackBitsLocal (batch : HostRelationBatch) (bits : List (BitVec 64)) :
    selectedRows (unpackBitsLocal bits batch.numRelations) batch =
      ((List.range batch.numRelations).filter (bitAt bits)).map batch.relation := by
  rw [selectedRows, unpackBitsLocal, List.length_map, List.length_range, Nat.min_self]
  refine congrArg (List.map batch.relation) (List.filter_congr fun i member => ?_)
  rw [List.getD_eq_getElem _ _ (by simpa using member), List.getElem_map, List.getElem_range,
    bitAt, show (1 : BitVec 64) = 1#64 from rfl, BitVec.and_one_eq_setWidth_ofBool_getLsbD,
    BitVec.getLsbD_ushiftRight, Nat.add_zero]
  cases (bits.getD (i / 64) 0).getLsbD (i % 64) <;> rfl

/-! ## The combined batch -/

theorem getD_relations {batch : HostRelationBatch} {idx : Nat} (inside : idx < batch.numRelations)
    (default : Relation) : batch.relations.getD idx default = batch.relation idx := by
  rw [HostRelationBatch.relations, List.getD_eq_getElem _ _ (by simpa using inside),
    List.getElem_map, List.getElem_range]

theorem relation_withoutLargePrimes {batch : HostRelationBatch} {idx : Nat}
    (inside : idx < batch.numRelations) :
    (withoutLargePrimes batch).relation idx = { batch.relation idx with largePrime := 1 } := by
  have one : (withoutLargePrimes batch).largePrimes.getD idx 0 = 1 := by
    rw [withoutLargePrimes, List.getD_append _ _ _ _ (by simpa using inside),
      List.getD_replicate _ inside]
  rw [HostRelationBatch.relation, one]
  rfl

theorem relations_withoutLargePrimes (batch : HostRelationBatch) :
    (withoutLargePrimes batch).relations =
      batch.relations.map fun row => { row with largePrime := 1 } := by
  rw [HostRelationBatch.relations, HostRelationBatch.relations, List.map_map]
  apply List.map_congr_left
  intro idx member
  exact relation_withoutLargePrimes (List.mem_range.mp member)

namespace Sources

def relations (sources : Sources) : List Relation :=
  sources.smooths.relations ++ sources.partials.relations

def row (sources : Sources) (idx : Nat) : Relation :=
  if idx < sources.smooths.numRelations then sources.smooths.relation idx
  else sources.partials.relation (idx - sources.smooths.numRelations)

variable {sources : Sources} {idx : Nat}

theorem length_relations : sources.relations.length = sources.combined.numRelations := by
  rw [relations, List.length_append, ExpandedMatrixBuilder.length_relations,
    ExpandedMatrixBuilder.length_relations]
  rfl

theorem getD_relations (inside : idx < sources.combined.numRelations) (default : Relation) :
    sources.relations.getD idx default = sources.row idx := by
  have count : sources.combined.numRelations =
      sources.smooths.numRelations + sources.partials.numRelations := rfl
  have smooth := ExpandedMatrixBuilder.length_relations sources.smooths
  rw [relations, row]
  split
  · next first =>
      rw [List.getD_append _ _ _ _ (smooth ▸ first), ExpandedSolutions.getD_relations first]
  · next second =>
      rw [List.getD_append_right _ _ _ _ (by omega), smooth,
        ExpandedSolutions.getD_relations (by omega)]

/-- The partial relations are pushed onto the smooth ones. -/
theorem combined_eq (csr : sources.partials.Csr) (sendable : sources.partials.Sendable) :
    sources.combined =
      { sources.smooths.pushAll sources.partials.relations with charBits := [] } := by
  have pushed := sendable.pushAll_rows sources.smooths le_rfl
  have size := ExpandedMatrixBuilder.length_relations sources.partials
  rw [List.take_of_length_le size.le] at pushed
  have total : sources.partials.factorsBefore sources.partials.numRelations =
      sources.partials.numFactors := csr.lastOffset
  have offsets : sources.partials.factorOffsets.tail =
      (List.range' 1 sources.partials.numRelations).map sources.partials.factorsBefore := by
    have length := csr.factorOffsets
    apply List.ext_getElem
    · simp [length]
    · intro place before after
      have inside : place + 1 < sources.partials.factorOffsets.length := by
        rw [List.length_tail] at before
        omega
      simp [HostRelationBatch.factorsBefore, inside, Nat.add_comm 1 place]
  rw [pushed, HostRelationBatch.appended, total, combined, offsets, List.map_map,
    List.take_of_length_le csr.sqrtQ.le, List.take_of_length_le csr.signs.le,
    List.take_of_length_le csr.val2Exps.le, List.take_of_length_le csr.largePrimes.le,
    List.take_of_length_le csr.factorIndices.le, List.take_of_length_le csr.factorCounts.le]
  rfl

theorem relation_combined (csr : sources.smooths.Csr) (csr' : sources.partials.Csr)
    (sendable : sources.partials.Sendable) (inside : idx < sources.combined.numRelations) :
    sources.combined.relation idx = { sources.row idx with charBits := 0 } := by
  have count : (sources.smooths.pushAll sources.partials.relations).numRelations =
      sources.combined.numRelations := by
    rw [combined_eq csr' sendable]
  rw [combined_eq csr' sendable, ← getD_relations inside ⟨ofUInt32 0, 0, 0, 0, 0, []⟩, relations,
    ← csr.relations_pushAll, ExpandedSolutions.getD_relations (count ▸ inside)]
  rfl

/-- The smooth relations as the matrix stands for them, with a square for a large prime. -/
def full (sources : Sources) : Sources :=
  { sources with smooths := withoutLargePrimes sources.smooths }

theorem row_full : sources.full.row idx =
    if idx < sources.smooths.numRelations then { sources.row idx with largePrime := 1 }
    else sources.row idx := by
  by_cases first : idx < sources.smooths.numRelations
  · have one := relation_withoutLargePrimes first
    have kept : sources.full.row idx = (withoutLargePrimes sources.smooths).relation idx :=
      if_pos first
    rw [if_pos first, kept, one, row, if_pos first]
  · rw [if_neg first, row, row, if_neg first]
    exact if_neg first

end Sources

/-! ## The root of the large primes -/

/-- A product over keys squares to the product over the items that are counted. -/
theorem prod_pow_half_count_sq {Key M : Type} [DecidableEq Key] [CommMonoid M] (items : List Key)
    (value : Key → M) {keys : List Key} (order : keys.Perm items.dedup)
    (even : ∀ key, Even (items.count key)) :
    (keys.map fun key => value key ^ (items.count key / 2)).prod ^ 2 = (items.map value).prod := by
  have same : items.dedup.toFinset = items.toFinset := by
    ext key
    simp only [List.mem_toFinset, List.mem_dedup]
  rw [(order.map _).prod_eq, ← List.prod_toFinset _ items.nodup_dedup, ← Finset.prod_pow,
    Finset.prod_list_map_count, same]
  refine Finset.prod_congr rfl fun key _ => ?_
  rw [← pow_mul, Nat.div_mul_cancel (even key).two_dvd]

theorem represents_lpProduct {mont : Montgomery} (valid : mont.Valid)
    {increments : List (BitVec 128)} (narrow : ∀ lp, increments.count lp < 2 ^ 32)
    (keys : List (BitVec 128)) :
    mont.Represents (lpProduct mont increments keys)
      ((keys.map fun lp => (lp.toNat : ZMod mont.N.toNat) ^ (increments.count lp / 2)).prod) := by
  have multiplies (product : UInt512) (residue : ZMod mont.N.toNat) (lp : BitVec 128)
      (represents : mont.Represents product residue) :
      mont.Represents
        (if 0 < BitVec.ofNat 32 (increments.count lp) / 2 then
          mont.mul product (mont.pow (mont.transform (ofUInt128 lp))
            (ofUInt32 (BitVec.ofNat 32 (increments.count lp) / 2)))
        else product)
        (residue * (lp.toNat : ZMod mont.N.toNat) ^ (increments.count lp / 2)) := by
    have half : (BitVec.ofNat 32 (increments.count lp) / 2).toNat = increments.count lp / 2 := by
      rw [BitVec.toNat_udiv, BitVec.toNat_ofNat, Nat.mod_eq_of_lt (narrow lp)]
      rfl
    split
    · have power := Montgomery.Represents.pow valid (ofUInt128 lp)
        (ofUInt32 (BitVec.ofNat 32 (increments.count lp) / 2))
      rw [toNat_ofUInt128, toNat_ofUInt32, half] at power
      exact represents.mul valid power
    · next none =>
        rw [BitVec.lt_def, half] at none
        rw [Nat.eq_zero_of_not_pos none, pow_zero, mul_one]
        exact represents
  have product := valid.represents_one.foldl multiplies keys
  rwa [one_mul] at product

namespace Sources

variable {sources : Sources}

/-! ## Kernel vectors of the expanded matrix -/

section Kernel

variable {fbSize : Nat}

/-- Rows cancel in the expanded matrix if and only if their product is a square. -/
theorem inLeftKernel_build
    (admissible : Admissible sources.smooths sources.partials fbSize) (chosen : Nat → Bool) :
    (build sources.smooths sources.partials fbSize).matrix.InLeftKernel chosen ↔ EvenProduct fbSize
        (((List.range sources.combined.numRelations).filter chosen).map sources.row) := by
  have size := sources.length_relations
  have entry {r : Nat} (inside : r < sources.combined.numRelations) :
      sources.relations[r]? = some (sources.row r) := by
    rw [← getD_relations inside (sources.row r), List.getElem?_eq_getElem (size ▸ inside),
      List.getD_eq_getElem]
  rw [relations] at size entry
  rw [admissible.matrix_build.1, admissible.expandedRows_eq, InLeftKernel, nRows_ofRows,
    List.length_map, size, ← admissible.even_columns_iff]
  · apply forall_congr'
    intro c
    have card (rows : Nat → List Nat) (bound : Nat) :
        ((Finset.range bound).filter fun r => chosen r ∧ c ∈ rows r).card =
          (List.range bound).countP fun r => decide (chosen r ∧ c ∈ rows r) := by
      rw [List.countP_eq_length_filter]
      rfl
    rw [card, List.countP_map, List.countP_filter]
    refine iff_of_eq (congrArg Even (List.countP_congr fun r member => ?_))
    have inside := List.mem_range.mp member
    rw [decide_eq_true_iff, row_ofRows _ _ (by rw [List.length_map, size]; exact inside),
      List.getD_eq_getElem?_getD, List.getElem?_map, entry inside, Bool.and_eq_true, and_comm]
    exact and_congr_left fun _ => decide_eq_true_iff.symm
  · intro row member
    rcases List.mem_map.mp member with ⟨r, chosen, rfl⟩
    exact List.mem_of_getElem? (entry (List.mem_range.mp (List.mem_filter.mp chosen).1))

/-- The builder does not read the large primes of the smooth relations. -/
theorem build_full (sources : Sources) (fbSize : Nat) :
    build sources.full.smooths sources.full.partials fbSize =
      build sources.smooths sources.partials fbSize := by
  simp only [build, full, relations_withoutLargePrimes, List.map_map]
  rfl

end Kernel

/-! ## The counts of the large primes -/

def lpMultiplicity (sources : Sources) (idx : Nat) : Nat :=
  if 1 < (sources.row idx).largePrime then if idx < sources.smooths.numRelations then 2 else 1
  else 0

def countedLps (sources : Sources) (indices : List Nat) : List (BitVec 128) :=
  indices.flatMap fun idx =>
    List.replicate (sources.lpMultiplicity idx) (sources.row idx).largePrime

theorem lpIncrements_eq (csr : sources.smooths.Csr) (csr' : sources.partials.Csr)
    (sendable : sources.partials.Sendable) (bits : List (BitVec 64)) :
    sources.lpIncrements bits = sources.countedLps
      ((List.range sources.combined.numRelations).filter (bitAt bits)) := by
  rw [lpIncrements, countedLps, List.flatMap_def, List.flatMap_def]
  refine congrArg List.flatten (List.map_congr_left fun idx member => ?_)
  have inside := List.mem_range.mp (List.mem_filter.mp member).1
  rw [relation_combined csr csr' sendable inside, lpMultiplicity]
  split <;> rfl

theorem count_countedLps (indices : List Nat) (lp : BitVec 128) :
    (sources.countedLps indices).count lp = (indices.map fun idx =>
      if (sources.row idx).largePrime = lp then sources.lpMultiplicity idx else 0).sum := by
  rw [countedLps, List.count_flatMap]
  refine congrArg List.sum (List.map_congr_left fun idx _ => ?_)
  rw [Function.comp_apply, List.count_replicate]
  simp only [beq_iff_eq]

theorem count_countedLps_le (indices : List Nat) (lp : BitVec 128) :
    (sources.countedLps indices).count lp ≤ indices.length * 2 := by
  have bound (idx : Nat) : sources.lpMultiplicity idx ≤ 2 := by
    rw [lpMultiplicity]
    split
    · split <;> omega
    · omega
  rw [count_countedLps]
  refine (List.sum_le_card_nsmul _ 2 fun amount member => ?_).trans ?_
  · rcases List.mem_map.mp member with ⟨idx, -, rfl⟩
    split
    · exact bound idx
    · omega
  · rw [List.length_map, smul_eq_mul]

/-- In a product that is a square, every large prime is counted an even number of times. -/
theorem even_count_countedLps {fbSize : Nat} {indices : List Nat}
    (even : EvenProduct fbSize (indices.map sources.full.row)) (lp : BitVec 128) :
    Even ((sources.countedLps indices).count lp) := by
  rw [count_countedLps]
  by_cases large : 1 < lp
  · have rows := even.largePrime lp large
    rw [List.countP_map] at rows
    rw [even_sum_iff]
    refine (iff_of_eq (congrArg Even (List.countP_congr fun idx _ => ?_))).mpr rows
    rw [decide_eq_true_iff, Function.comp_apply, beq_iff_eq, row_full, lpMultiplicity]
    by_cases first : idx < sources.smooths.numRelations
    · have other : (1 : BitVec 128) ≠ lp := BitVec.ne_of_lt large
      simp only [if_pos first, iff_false, other]
      split
      · split <;> decide
      · decide
    · simp only [if_neg first]
      by_cases same : (sources.row idx).largePrime = lp
      · rw [if_pos same, same, if_pos large]
        exact iff_of_true odd_one rfl
      · rw [if_neg same]
        exact iff_of_false (by decide) same
  · rw [List.sum_eq_zero]
    · exact Even.zero
    · intro amount member
      rcases List.mem_map.mp member with ⟨idx, -, rfl⟩
      split
      · next same => rw [lpMultiplicity, same, if_neg large]
      · rfl

theorem prod_countedLps (N : Nat) (indices : List Nat) :
    ((sources.countedLps indices).map fun lp => (lp.toNat : ZMod N)).prod =
      (indices.map fun idx => (((sources.row idx).largePrime.toNat ^
        sources.lpMultiplicity idx : Nat) : ZMod N)).prod := by
  induction indices with
  | nil => rfl
  | cons idx indices induction =>
    rw [countedLps] at induction ⊢
    rw [List.flatMap_cons, List.map_append, List.prod_append, induction, List.map_cons,
      List.prod_cons, List.map_replicate, List.prod_replicate, Nat.cast_pow]

end Sources

/-! ## The congruence of squares -/

section Squares

variable {sources : Sources} {factorBase : List (BitVec 32)}

theorem toNat_correctY {mont : Montgomery} (valid : mont.Valid) {correction Y : UInt512}
    {residue : ZMod mont.N.toNat} (represents : mont.Represents correction residue) :
    ((correctY mont (some correction) Y).toNat : ZMod mont.N.toNat) = Y.toNat * residue := by
  rw [correctY]
  exact ((valid.represents_transform Y).mul valid represents).reduce valid

/-- Square products have even exponents, also as the square root reads the rows. -/
theorem evenSelection_of_evenProduct {rows settled : List Relation}
    (even : EvenProduct factorBase.length rows)
    (same : settled = rows.map fun row => { row with largePrime := 1, charBits := 0 }) :
    EvenSelection factorBase settled := by
  have sign : signTotal settled = signTotal rows := by
    rw [same, signTotal, List.countP_map]
    rfl
  have val2 : val2Total settled = val2Total rows := by
    rw [same, val2Total, List.map_map]
    rfl
  have factors : allFactors settled = allFactors rows := by
    rw [same, allFactors, List.flatMap_map]
    rfl
  exact ⟨sign ▸ even.sign, val2 ▸ even.val2, factors ▸ even.exponent⟩

structure Prepared (N : Nat) (factorBase : List (BitVec 32)) (sources : Sources) : Prop where
  smooth : sources.smooths.Csr
  onePrime : sources.partials.Csr
  sendable : sources.partials.Sendable
  admissible : Admissible sources.full.smooths sources.full.partials factorBase.length
  smoothCongruent : ∀ row ∈ sources.smooths.relations,
    row.Congruent N (primeAt factorBase) (largePrimeRoot row ^ 2)
  onePrimeCongruent : ∀ row ∈ sources.partials.relations,
    row.Congruent N (primeAt factorBase) (largePrimeRoot row)
  few : sources.combined.numRelations * 2 < 2 ^ 32

namespace Prepared

variable {N idx : Nat}

/-- A row of the combined batch, its large prime counted apart. -/
theorem relation (prepared : Prepared N factorBase sources)
    (inside : idx < sources.combined.numRelations) :
    (withoutLargePrimes sources.combined).relation idx =
      { sources.row idx with largePrime := 1, charBits := 0 } := by
  rw [relation_withoutLargePrimes inside, Sources.relation_combined prepared.smooth
    prepared.onePrime prepared.sendable inside]

theorem congruent (prepared : Prepared N factorBase sources)
    (inside : idx < sources.combined.numRelations) :
    ((withoutLargePrimes sources.combined).relation idx).Congruent N (primeAt factorBase)
      ((sources.row idx).largePrime.toNat ^ sources.lpMultiplicity idx) := by
  rw [prepared.relation inside, Sources.lpMultiplicity, Sources.row]
  by_cases first : idx < sources.smooths.numRelations
  · have congruent := prepared.smoothCongruent _
      (List.mem_map_of_mem (List.mem_range.mpr first))
    rw [largePrimeRoot] at congruent
    simp only [if_pos first]
    split
    · next large => rwa [if_pos large] at congruent
    · next small => rwa [if_neg small, one_pow] at congruent
  · have count : sources.combined.numRelations =
      sources.smooths.numRelations + sources.partials.numRelations := rfl
    have congruent := prepared.onePrimeCongruent _ (List.mem_map_of_mem (List.mem_range.mpr
      (by omega : idx - sources.smooths.numRelations < sources.partials.numRelations)))
    rw [largePrimeRoot] at congruent
    simp only [if_neg first]
    split
    · next large => rwa [if_pos large, ← pow_one (BitVec.toNat _)] at congruent
    · next small => rwa [if_neg small] at congruent

theorem map_relation (prepared : Prepared N factorBase sources) {indices : List Nat}
    (inside : ∀ idx ∈ indices, idx < sources.combined.numRelations) :
    indices.map (withoutLargePrimes sources.combined).relation =
      (indices.map sources.full.row).map fun row =>
        { row with largePrime := 1, charBits := 0 } := by
  rw [List.map_map]
  apply List.map_congr_left
  intro idx member
  rw [prepared.relation (inside idx member), Function.comp_apply, Sources.row_full]
  split <;> rfl

private theorem count_countedLps_lt (prepared : Prepared N factorBase sources) {indices : List Nat}
    (few : indices.length ≤ sources.combined.numRelations) (lp : BitVec 128) :
    (sources.countedLps indices).count lp < 2 ^ 32 := by
  have bound : (sources.countedLps indices).count lp ≤ indices.length * 2 :=
    Sources.count_countedLps_le indices lp
  have narrow := prepared.few
  omega

/-- A kernel vector of the expanded matrix squares, once its large primes are multiplied in. -/
theorem squares {mont : Montgomery} (valid : mont.Valid)
    (prepared : Prepared mont.N.toNat factorBase sources) {rels : List Nat}
    (kernel : (build sources.smooths sources.partials factorBase.length).matrix.InLeftKernel
      fun rel => decide (rel ∈ rels))
    {bits : List (BitVec 64)} (repacked : bits = repack sources.combined.numRelations rels)
    {mask : List (BitVec 8)} (unpacked : mask = unpackBitsLocal bits sources.combined.numRelations)
    {batch : HostRelationBatch} (replaced : batch = withoutLargePrimes sources.combined)
    (narrow : NarrowSelection factorBase (selectedRows mask batch))
    {increments keys : List (BitVec 128)} (counted : increments = sources.lpIncrements bits)
    (order : keys.Perm increments.dedup) :
    (computeX mask batch mont).toNat ^ 2 ≡ (correctY mont (some (lpProduct mont increments keys))
        (computeY mask batch factorBase mont)).toNat ^ 2 [MOD mont.N.toNat] := by
  let indices := (List.range sources.combined.numRelations).filter fun rel => decide (rel ∈ rels)
  have inside : ∀ idx ∈ indices, idx < sources.combined.numRelations :=
    fun idx member => List.mem_range.mp (List.mem_filter.mp member).1
  have chosen : (List.range sources.combined.numRelations).filter (bitAt bits) = indices := by
    rw [repacked]
    exact List.filter_congr fun idx member => bitAt_repack rels (List.mem_range.mp member)
  have selected : selectedRows mask batch = indices.map batch.relation := by
    rw [← chosen, unpacked, replaced]
    exact selectedRows_unpackBitsLocal _ bits
  have counts : increments = sources.countedLps indices := by
    rw [counted, Sources.lpIncrements_eq prepared.smooth prepared.onePrime prepared.sendable,
      chosen]
  have even : EvenProduct factorBase.length (indices.map sources.full.row) := by
    rw [← Sources.build_full] at kernel
    exact (Sources.inLeftKernel_build prepared.admissible _).mp kernel
  have settled : indices.map batch.relation = (indices.map sources.full.row).map
      fun row => { row with largePrime := 1, charBits := 0 } :=
    replaced ▸ prepared.map_relation inside
  have evenSelection := evenSelection_of_evenProduct even settled
  have below : ∀ lp, increments.count lp < 2 ^ 32 := by
    rw [counts]
    exact prepared.count_countedLps_lt ((List.length_filter_le _ _).trans List.length_range.le)
  have roots := prod_pow_half_count_sq increments
    (fun lp => (lp.toNat : ZMod mont.N.toNat)) order
    (by rw [counts]; exact Sources.even_count_countedLps even)
  have ones : ((indices.map batch.relation).map fun row =>
      (largePrimeRoot row : ZMod mont.N.toNat)).prod = 1 := by
    rw [settled, List.map_map]
    apply List.prod_eq_one
    intro root member
    rcases List.mem_map.mp member with ⟨row, -, rfl⟩
    exact Nat.cast_one
  have squares := prod_sqrtQ_sq_of_cofactors batch.relation
    (fun idx => (sources.row idx).largePrime.toNat ^ sources.lpMultiplicity idx)
    fun idx member => replaced ▸ prepared.congruent (inside idx member)
  have X := computeX_cast valid mask batch
  have Y := computeY_cast valid mask batch factorBase
  have correction := toNat_correctY valid (represents_lpProduct valid below keys)
    (Y := computeY mask batch factorBase mont)
  have exponents := exponentPowers_sq mont.N.toNat (selected ▸ evenSelection) narrow
  have twos := pow_half_sq (2 : ZMod mont.N.toNat) (selected ▸ evenSelection.val2) narrow.val2
  have signs : ((-1 : ZMod mont.N.toNat) ^ (signTotal (selectedRows mask batch) / 2)) ^ 2 = 1 := by
    rw [← pow_mul, Nat.mul_comm, pow_mul, neg_one_sq, one_pow]
  rw [selected] at X Y exponents twos signs
  rw [List.map_map, Function.comp_def] at X
  rw [ones, mul_one] at Y
  apply (ZMod.natCast_eq_natCast_iff _ _ _).mp
  rw [Nat.cast_pow, Nat.cast_pow]
  calc ((computeX mask batch mont).toNat : ZMod mont.N.toNat) ^ 2
      = ((indices.map fun idx =>
          ((batch.relation idx).sqrtQ.toNat : ZMod mont.N.toNat)).prod) ^ 2 :=
        congrArg (· ^ 2) X
    _ = 2 ^ val2Total (indices.map batch.relation) * (Relation.factorProduct (primeAt factorBase)
            (allFactors (indices.map batch.relation)) : Nat) *
          (increments.map fun lp => (lp.toNat : ZMod mont.N.toNat)).prod := by
        rw [squares, evenSelection.sign.neg_one_pow, one_mul, counts, Sources.prod_countedLps]
    _ = ((computeY mask batch factorBase mont).toNat * (keys.map fun lp =>
          (lp.toNat : ZMod mont.N.toNat) ^ (increments.count lp / 2)).prod) ^ 2 := by
        rw [mul_pow, roots, Y, mul_pow, mul_pow, signs, one_mul, twos, exponents]
    _ = _ := congrArg (· ^ 2) correction.symm

end Prepared

end Squares

/-! ## The stage after the expansion -/

theorem exists_mapM {α β : Type} {f : α → Option β} {holds : β → Prop} {items : List α}
    (each : ∀ item ∈ items, ∃ value, f item = some value ∧ holds value) :
    ∃ values, items.mapM f = some values ∧ values.length = items.length ∧
      ∀ value ∈ values, holds value := by
  induction items with
  | nil => exact ⟨[], rfl, rfl, by simp⟩
  | cons item items induction =>
    rcases each item List.mem_cons_self with ⟨value, found, first⟩
    rcases induction fun other member => each other (List.mem_cons_of_mem _ member) with
      ⟨values, mapped, length, rest⟩
    refine ⟨value :: values, ?_, by rw [List.length_cons, length, List.length_cons], ?_⟩
    · rw [List.mapM_cons, found, mapped]
      rfl
    · intro other member
      cases member with
      | head => exact first
      | tail _ member => exact rest other member

section Expansion

variable {sources : Sources} {stage : Stage} {result : MergeResult}
  {iteration : List (BitVec 128) → List (BitVec 128)}

theorem squares_replaceState (stage : Stage) (odd : stage.N.toNat % 2 = 1)
    (expandedMatrix : stage.usedExpandedMatrix = true)
    (prepared : Prepared stage.N.toNat stage.factorBase sources)
    (visits : ∀ increments, (iteration increments).Perm increments.dedup)
    {solutions : List (List (BitVec 64))} {i : Nat} (inside : i < solutions.length)
    {rels : List Nat} (repacked : solutions[i] = repack sources.combined.numRelations rels)
    (kernel : (build sources.smooths sources.partials stage.factorBase.length).matrix.InLeftKernel
      fun rel => decide (rel ∈ rels))
    {expanded : Stage} (replaced : sources.replaceState iteration solutions stage = expanded)
    (narrow : NarrowSelection expanded.factorBase
      (selectedRows (expanded.mask i) expanded.hostRelations)) :
    (expanded.rootX i).toNat ^ 2 ≡ (expanded.rootY i).toNat ^ 2 [MOD expanded.N.toNat] := by
  have corrected : expanded.lpCorrPtr i = some (lpProduct (.ofModulus stage.N)
      (sources.lpIncrements solutions[i]) (iteration (sources.lpIncrements solutions[i]))) := by
    rw [← replaced, Stage.lpCorrPtr, Sources.replaceState, if_pos expandedMatrix,
      List.getElem?_map, List.getElem?_eq_getElem inside]
    rfl
  have unpacked : expanded.mask i =
      unpackBitsLocal solutions[i] sources.combined.numRelations := by
    rw [← replaced, Stage.mask, Sources.replaceState, List.getD_eq_getElem _ _ inside]
    rfl
  rw [Stage.rootX, Stage.rootY, corrected]
  subst replaced
  exact prepared.squares (Montgomery.ofModulus_valid odd) kernel repacked unpacked rfl narrow rfl
    (visits _)

theorem exists_expandSolutions (stage : Stage) {fuel : Nat} {input : HostMatrixCSR}
    (expands : ∀ packed, result.reduced.InLeftKernel (bitAt packed) →
      ∃ rels, expandKernelVector fuel packed result.reduced.nRows result.rowMap
        result.mergeTree = some rels ∧ input.IsKernelVector rels)
    (size : result.rowMap.length = result.reduced.nRows)
    (kernel : ∀ kv ∈ stage.kernelSolutions, result.reduced.InLeftKernel (bitAt kv)) :
    ∃ solutions, sources.expandSolutions fuel iteration result.rowMap result.mergeTree stage =
        some (sources.replaceState iteration solutions stage) ∧
      solutions.length = stage.kernelSolutions.length ∧
      ∀ bits ∈ solutions, ∃ rels, bits = repack sources.combined.numRelations rels ∧
        input.InLeftKernel fun rel => decide (rel ∈ rels) := by
  have each : ∀ kv ∈ stage.kernelSolutions, ∃ bits,
      (expandKernelVector fuel kv result.rowMap.length result.rowMap result.mergeTree).map
          (repack sources.combined.numRelations) = some bits ∧
        ∃ rels, bits = repack sources.combined.numRelations rels ∧
          input.InLeftKernel fun rel => decide (rel ∈ rels) := by
    intro kv member
    rcases expands kv (kernel kv member) with ⟨rels, found, isKernel⟩
    refine ⟨_, ?_, rels, rfl, isKernel.cancels⟩
    rw [size, found]
    rfl
  rcases exists_mapM each with ⟨solutions, mapped, length, repacked⟩
  refine ⟨solutions, ?_, length, repacked⟩
  rw [Sources.expandSolutions, mapped]
  rfl

theorem length_rowMap {twiceAverage : Nat → Nat → Nat} {fuel : Nat} {input : HostMatrixCSR}
    {kMax maxWeight : BitVec 32}
    (run : preprocessMatrix twiceAverage fuel input kMax maxWeight = some result) :
    result.rowMap.length = result.reduced.nRows := by
  rw [preprocessMatrix] at run
  rcases Option.bind_eq_some_iff.mp run with ⟨w2, -, run⟩
  rw [mergeHigherWeight] at run
  rcases Option.bind_eq_some_iff.mp run with ⟨last, -, finished⟩
  rw [← Option.some_inj.mp finished, finishHigher, MergeState.finish, sortedRows, nRows_ofRows,
    List.length_map, List.length_map]

/-- Every solution of the reduced matrix is expanded to one whose roots have equal squares, and
one that separates its roots makes every run of the stage store a pair that splits `N`. -/
def SolutionsFactor (sources : Sources) (iteration : List (BitVec 128) → List (BitVec 128))
    (stage : Stage) (fuel : Nat) (result : MergeResult) : Prop :=
  ∀ solved, (∀ kv ∈ solved, result.reduced.InLeftKernel (bitAt kv)) →
    ∃ expanded, sources.expandSolutions fuel iteration result.rowMap result.mergeTree
        { stage with kernelSolutions := solved } = some expanded ∧
      expanded.kernelSolutions.length = solved.length ∧
      ∀ i < solved.length, NarrowSelection expanded.factorBase
          (selectedRows (expanded.mask i) expanded.hostRelations) →
        (expanded.rootX i).toNat ^ 2 ≡ (expanded.rootY i).toNat ^ 2 [MOD expanded.N.toNat] ∧
        ((expanded.rootY i).toNat ≠ 0 →
          Separates expanded.N.toNat (expanded.rootX i).toNat (expanded.rootY i).toNat →
          expanded.solView.numSolutions ≤ 1024 → ∀ outcome, expanded.Run outcome →
            ∃ pair, outcome = .ok (some pair) ∧ Factorizes expanded.N True pair)

/-- The preprocessing returns, and the solutions of what it returns lead to factors, in whatever
order the large primes are visited. -/
theorem preprocessMatrix_solutionsFactor (stage : Stage) (modulus : 1 < stage.N.toNat)
    (odd : stage.N.toNat % 2 = 1) (expandedMatrix : stage.usedExpandedMatrix = true)
    (prepared : Prepared stage.N.toNat stage.factorBase sources)
    (visits : ∀ increments, (iteration increments).Perm increments.dedup)
    (twiceAverage : Nat → Nat → Nat) {kMax : BitVec 32} (finite : kMax ≠ BitVec.allOnes 32)
    (maxWeight : BitVec 32) :
    ∃ enough result, ∀ fuel, enough ≤ fuel → preprocessMatrix twiceAverage fuel
          (build sources.smooths sources.partials stage.factorBase.length).matrix kMax maxWeight =
        some result ∧ SolutionsFactor sources iteration stage fuel result := by
  have wellFormed :
      (build sources.smooths sources.partials stage.factorBase.length).matrix.WellFormed := by
    rw [← Sources.build_full, prepared.admissible.matrix_build.1]
    exact prepared.admissible.matrix_build.2
  rcases preprocessMatrix_spec twiceAverage wellFormed finite maxWeight with
    ⟨enough, result, run, -, reduction⟩
  rcases reduction.kernelBijection with ⟨enough', expansion⟩
  refine ⟨max enough enough', result, fun fuel sufficient => ?_⟩
  have returned := run fuel ((le_max_left _ _).trans sufficient)
  refine ⟨returned, fun solved kernel => ?_⟩
  have expands := (expansion fuel ((le_max_right _ _).trans sufficient)).1
  rcases exists_expandSolutions { stage with kernelSolutions := solved } expands
      (length_rowMap returned) kernel with
    ⟨solutions, expanded, length, repacked⟩
  refine ⟨_, expanded, length, fun i inside narrow => ?_⟩
  rw [← length] at inside
  rcases repacked _ (List.getElem_mem inside) with ⟨rels, bits, isKernel⟩
  have squares := squares_replaceState { stage with kernelSolutions := solved } odd
    expandedMatrix prepared visits inside bits isKernel rfl narrow
  refine ⟨squares, fun nonzero separates few outcome reached => ?_⟩
  rcases reached.exists_pair few inside
    (Stage.accepts_cpuFactors modulus odd ⟨nonzero, squares⟩ separates) with ⟨pair, stored⟩
  exact ⟨pair, stored, reached.splits modulus stored⟩

def paired : Sources where
  smooths := combinedBatch
  partials := (HostRelationBatch.empty.push ⟨ofUInt32 12, 1, 1, 101, 0, [(1, 1)]⟩).push
    ⟨ofUInt32 31, 1, 3, 101, 0, [(1, 1)]⟩

private theorem prepared_paired : Prepared 77 [2, 3] paired where
  smooth := HostRelationBatch.empty_csr.push _
  onePrime := (HostRelationBatch.empty_csr.push _).push _
  sendable := ⟨((HostRelationBatch.empty_csr.push _).push _).readable (by decide), by decide,
    by decide, by decide⟩
  admissible := ⟨by decide, by decide, by decide⟩
  smoothCongruent := by decide
  onePrimeCongruent := by decide
  few := by decide

theorem preprocessMatrix_solutionsFactor_paired : ∃ enough result, ∀ fuel, enough ≤ fuel →
      preprocessMatrix (fun nnz nRows => 2 * nnz / max 1 nRows) fuel
          (build paired.smooths paired.partials 2).matrix 10 200 = some result ∧
        SolutionsFactor paired List.dedup { Stage.separating with usedExpandedMatrix := true }
          fuel result :=
  preprocessMatrix_solutionsFactor { Stage.separating with usedExpandedMatrix := true }
    (by decide) (by decide) rfl prepared_paired (fun _ => List.Perm.refl _) _ (by decide) _

end Expansion

end CudaMpqs.ExpandedSolutions
