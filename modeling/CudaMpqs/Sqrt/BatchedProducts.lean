import CudaMpqs.Sqrt.BatchedKernels

/-! # Products over the selected relations

The chunks of `ComputeX_ChunkReduce` and the reduction of `FinalReduce` multiply up the
relations that a solution selects. -/

namespace CudaMpqs.BatchedSquareRoot

open ThreadLoops TreeReduce SquareRoot

/-! ## Flattened indices -/

section Flat

variable {rows width row place row' place' : Nat}

theorem flat_lt (below : row < rows) (inside : place < width) :
    row * width + place < rows * width := by
  have next : (row + 1) * width ≤ rows * width := Nat.mul_le_mul_right width below
  rw [Nat.succ_mul] at next
  omega

theorem flat_inj (inside : place < width) (inside' : place' < width)
    (same : row * width + place = row' * width + place') : row = row' ∧ place = place' := by
  have places := congrArg (· % width) same
  have rows := congrArg (· / width) same
  simp only [Nat.mul_add_mod', Nat.mod_eq_of_lt inside, Nat.mod_eq_of_lt inside'] at places
  simp only [Nat.mul_comm _ width, Nat.mul_add_div (Nat.zero_lt_of_lt inside),
    Nat.div_eq_of_lt inside, Nat.div_eq_of_lt inside', Nat.add_zero] at rows
  exact ⟨rows, places⟩

theorem u32_flat (fits : rows * width ≤ 2 ^ 32) (below : row < rows) (inside : place < width) :
    u32 (row * width + place) = row * width + place :=
  Nat.mod_eq_of_lt ((flat_lt below inside).trans_le fits)

end Flat

/-! ## Chunks -/

section Chunks

variable {mont : Montgomery} {solutions : BWKernelSolutionView} {K : Nat}

def selectedFactor {M : Type} [One M] (solutions : BWKernelSolutionView) (solIdx : Nat)
    (factor : Nat → M) (relIdx : Nat) : M :=
  if solutions.selects solIdx relIdx then factor relIdx else 1

variable {factor : Nat → ZMod mont.N.toNat}

private theorem chunkValue_represents (valid : mont.Valid) {dMont : Nat → UInt512}
    (each : ∀ relIdx < K, mont.Represents (dMont relIdx) (factor relIdx)) (solIdx : Nat)
    {chunkIdx tid : Nat} (inside : chunkIdx < 2 ^ 24) (below : tid < 256) :
    mont.Represents (chunkValue mont dMont solutions K chunkIdx solIdx tid)
      (if chunkIdx * 256 + tid < K then
        selectedFactor solutions solIdx factor (chunkIdx * 256 + tid) else 1) := by
  simp only [chunkValue, threadIndex_eq inside below, selectedFactor]
  split
  next reached =>
      split
      · exact each _ reached
      · exact valid.represents_one
  next => exact valid.represents_one

theorem partials_represent (valid : mont.Valid) {dMont before dPartials : Nat → UInt512}
    (each : ∀ relIdx < K, mont.Represents (dMont relIdx) (factor relIdx))
    (tall : solutions.numSolutions ≤ 65535) (fits : blocks K * solutions.numSolutions ≤ 2 ^ 32)
    (stored : Stored (computeXChunkReduce mont dMont solutions K) before dPartials)
    {chunkIdx solIdx : Nat} (chunk : chunkIdx < blocks K)
    (solution : solIdx < solutions.numSolutions) :
    mont.Represents (dPartials (chunkIdx * solutions.numSolutions + solIdx))
      (∏ tid ∈ Finset.range 256, if chunkIdx * 256 + tid < K then
        selectedFactor solutions solIdx factor (chunkIdx * 256 + tid) else 1) := by
  have written : dPartials (chunkIdx * solutions.numSolutions + solIdx) =
      treeReduce mont.mul 256 (chunkValue mont dMont solutions K chunkIdx solIdx) := by
    apply stored.of_mem
    · refine (mem_launch tall).mpr ⟨solIdx, solution, chunkIdx, chunk, List.mem_singleton.mpr ?_⟩
      rw [u32_flat fits chunk solution]
    · intro store member same
      rcases (mem_launch tall).mp member with ⟨solIdx', solution', chunkIdx', chunk', member⟩
      obtain rfl := List.mem_singleton.mp member
      have index : chunkIdx' * solutions.numSolutions + solIdx' =
          chunkIdx * solutions.numSolutions + solIdx :=
            (u32_flat fits chunk' solution').symm.trans same
      rcases flat_inj solution' solution index with ⟨rfl, rfl⟩
      dsimp only
  rw [written]
  have inside := chunk.trans_le (blocks_le K)
  exact treeReduce_stands (fun a b left right => Montgomery.Represents.mul valid)
    (show 256 = 2 ^ 8 by decide) fun tid below =>
      chunkValue_represents valid each solIdx inside below

theorem finalReduce_represents (valid : mont.Valid) {dPartials before after : Nat → UInt512}
    {nChunks nSolutions : Nat} {doReduce : Bool} {factor : Nat → Nat → ZMod mont.N.toNat}
    (fits : nChunks * nSolutions ≤ 2 ^ 32)
    (each : ∀ c < nChunks, ∀ solIdx < nSolutions,
      mont.Represents (dPartials (c * nSolutions + solIdx)) (factor c solIdx))
    (stored : Stored (finalReduce mont dPartials nChunks nSolutions doReduce) before after)
    {solIdx : Nat} (solution : solIdx < nSolutions) :
    ∃ product, mont.Represents product (∏ c ∈ Finset.range nChunks, factor c solIdx) ∧
      after solIdx = if doReduce then mont.reduce product else product := by
  have flat : 1 ≤ 65535 := by decide
  refine ⟨_, ?_, stored.of_mem ((mem_launch flat).mpr
    ⟨0, Nat.one_pos, solIdx, solution, List.mem_singleton.mpr rfl⟩) ?_⟩
  · refine treeReduce_strideFold_stands (fun a b left right => Montgomery.Represents.mul valid)
      valid.represents_one (show 256 = 2 ^ 8 by decide) fun c chunk acc left represents => ?_
    rw [u32_flat fits chunk solution]
    exact represents.mul valid (each c chunk solIdx solution)
  · intro store member same
    rcases (mem_launch flat).mp member with ⟨-, -, other, -, member⟩
    obtain rfl := List.mem_singleton.mp member
    obtain rfl : other = solIdx := same
    dsimp only

theorem prod_chunks {M : Type} [CommMonoid M] (f : Nat → M) (turns : Nat) :
    ∏ c ∈ Finset.range turns, ∏ tid ∈ Finset.range 256, f (c * 256 + tid) =
      ∏ i ∈ Finset.range (turns * 256), f i := by
  induction turns with
  | zero => rfl
  | succ turns induction =>
    rw [@Finset.prod_range_succ _ _ _ turns, induction, Nat.succ_mul, Finset.prod_range_add]

private theorem prod_guard {M : Type} [CommMonoid M] {count total : Nat} (enough : count ≤ total)
    (f : Nat → M) : ∏ i ∈ Finset.range total, (if i < count then f i else 1) =
      ∏ i ∈ Finset.range count, f i := by
  obtain ⟨rest, rfl⟩ := Nat.exists_eq_add_of_le enough
  rw [Finset.prod_range_add, Finset.prod_congr rfl fun i member =>
    if_pos (Finset.mem_range.mp member), Finset.prod_eq_one fun i _ => if_neg (by omega), mul_one]

theorem reductions_represent (valid : mont.Valid)
    {dMont partialsBefore dPartials before after : Nat → UInt512} {doReduce : Bool}
    (each : ∀ relIdx < K, mont.Represents (dMont relIdx) (factor relIdx)) (small : K + 255 < 2 ^ 32)
    (tall : solutions.numSolutions ≤ 65535) (fits : blocks K * solutions.numSolutions ≤ 2 ^ 32)
    (chunks : Stored (computeXChunkReduce mont dMont solutions K) partialsBefore dPartials)
    (final : Stored (finalReduce mont dPartials (blocks K) solutions.numSolutions doReduce)
      before after)
    {solIdx : Nat} (solution : solIdx < solutions.numSolutions) :
    ∃ product, mont.Represents product
        (∏ relIdx ∈ Finset.range K, selectedFactor solutions solIdx factor relIdx) ∧
      after solIdx = if doReduce then mont.reduce product else product := by
  have whole := finalReduce_represents valid fits (fun chunkIdx chunk solIdx solution =>
    partials_represent valid each tall fits chunks chunk solution) final solution
  rwa [prod_chunks fun relIdx => if relIdx < K then
    selectedFactor solutions solIdx factor relIdx else 1, prod_guard (le_blocks small)] at whole

end Chunks

/-! ## The selection -/

def unpackBitsLocal (packed : List (BitVec 64)) (nBits : Nat) : List (BitVec 8) :=
  (List.range nBits).map fun i =>
    if (packed.getD (i / 64) 0 >>> (i % 64)) &&& 1 != 0 then 1 else 0

def BWKernelSolutionView.solutionBits (solutions : BWKernelSolutionView) (solIdx : Nat) :
    List (BitVec 64) :=
  (List.range solutions.wordsPerVec).map fun word =>
    solutions.dData (solIdx * solutions.wordsPerVec + word)

section Selection

variable {solutions : BWKernelSolutionView} {batch : HostRelationBatch} {solIdx : Nat}

def solutionMask (solutions : BWKernelSolutionView) (batch : HostRelationBatch) (solIdx : Nat) :
    List (BitVec 8) :=
  unpackBitsLocal (solutions.solutionBits solIdx) batch.numRelations

def solutionRows (solutions : BWKernelSolutionView) (batch : HostRelationBatch) (solIdx : Nat) :
    List Relation :=
  selectedRows (solutionMask solutions batch solIdx) batch

theorem solutionRows_eq (solution : solIdx < solutions.numSolutions)
    (words : solutions.numSolutions * solutions.wordsPerVec ≤ 2 ^ 32)
    (bits : batch.numRelations ≤ 64 * solutions.wordsPerVec) :
    solutionRows solutions batch solIdx =
      ((List.range batch.numRelations).filter (solutions.selects solIdx)).map batch.relation := by
  rw [solutionRows, selectedRows, solutionMask, unpackBitsLocal, List.length_map, List.length_range,
    Nat.min_self]
  refine congrArg (List.map batch.relation) (List.filter_congr fun relIdx member => ?_)
  have inside := List.mem_range.mp member
  have word : relIdx / 64 < solutions.wordsPerVec := by omega
  have looked : (solutions.solutionBits solIdx).getD (relIdx / 64) 0 =
      solutions.dData (u32 (solIdx * solutions.wordsPerVec + relIdx / 64)) := by
    rw [u32_flat words solution word, BWKernelSolutionView.solutionBits,
      List.getD_eq_getElem _ _ (by simpa using word), List.getElem_map, List.getElem_range]
  rw [List.getD_eq_getElem _ _ (by simpa using inside), List.getElem_map, List.getElem_range,
    looked, BWKernelSolutionView.selects]
  split
  next chosen => rw [chosen]; rfl
  next unchosen => rw [Bool.eq_false_iff.mpr unchosen]; rfl

theorem prod_filter_range {M : Type} [CommMonoid M] (K : Nat) (chosen : Nat → Bool) (f : Nat → M) :
    (((List.range K).filter chosen).map f).prod =
      ∏ i ∈ Finset.range K, if chosen i then f i else 1 := by
  induction K with
  | zero => rfl
  | succ K induction =>
    rw [List.range_succ, List.filter_append, List.map_append, List.prod_append, induction,
      Finset.prod_range_succ, List.filter_singleton]
    cases chosen K with
    | false => rfl
    | true => simp

theorem sum_filter_range {M : Type} [AddCommMonoid M] (K : Nat) (chosen : Nat → Bool)
    (f : Nat → M) : (((List.range K).filter chosen).map f).sum =
      ∑ i ∈ Finset.range K, if chosen i then f i else 0 := by
  have product := prod_filter_range (M := Multiplicative M) K chosen f
  exact product

end Selection

end CudaMpqs.BatchedSquareRoot
