import CudaMpqs.Spmm.AtomicBlocks
import CudaMpqs.Spmm.SegmentTable

/-! # The plan of the tuner

When a call of the tuner ends with a plan, and that the segments of the plan lie end to
end over all rows. -/

namespace CudaMpqs.GPUAutoTuner

open Binary64

variable (tuning : Tuning) (blocks : List AtomicBlock)

/-- What the kernel of a segment asks for: eight rows, or a tile that the shared memory
holds and a column index that fits next to the row index. -/
def Tuning.Executable (segment : SegmentRecipe) : Prop :=
  (segment.bestConfig.id = .m4rm → segment.endRow - segment.startRow = 8) ∧
  (segment.bestConfig.id = .sparseTiledCOO ∨ segment.bestConfig.id = .sparseTiledCOOUnrolled →
    segment.bestConfig.tiledBlockSize ≤ maxTile tuning.globalVecWidth ∧
      tuning.csr.nCols ≤ maxColumns segment.bestConfig.tiledBlockSize)

/-- The call ends with a plan of segments that lie end to end over all rows and that their
kernels can execute. -/
def Tuning.Plans : Prop :=
  ∃ fuel plan, tuning.tune fuel = some plan ∧
    Contiguous SegmentRecipe.startRow SegmentRecipe.endRow plan 0 tuning.csr.nRows ∧
    ∀ segment ∈ plan, tuning.Executable segment

/-- A candidate is timed on every block, or, for a matrix that is not transposed, on every
block before the sparse ones, and a kernel was timed on all sparse rows. -/
def Tuning.Chosen : Prop :=
  tuning.Covered blocks blocks.length ∨
    tuning.isTransposed = false ∧ (bestWholeRange tuning blocks).isSome ∧
      ∃ first, firstSparse blocks = some first ∧ tuning.Covered blocks first

def Tuning.Usable : Prop :=
  ∃ fuel blocks, createExponentialBlocks tuning.csr tuning.config.initialBlockSize.toInt
    tuning.config.maxBlockSize.toInt tuning.isTransposed fuel = some blocks ∧ tuning.Chosen blocks

/-- The converter of the candidate accepts the rows of the blocks from `j` on and before `i`. -/
def Tuning.Accepts (conf : KernelConfig) (j i : Nat) : Prop :=
  ∀ first last, blocks[j]? = some first → blocks[i - 1]? = some last →
    refuses tuning conf first.startRow last.endRow = false

def Tuning.Merges : Prop :=
  ∀ fuel blocks, createExponentialBlocks tuning.csr tuning.config.initialBlockSize.toInt
    tuning.config.maxBlockSize.toInt tuning.isTransposed fuel = some blocks →
      ∀ j i k conf, tuning.Segment blocks j i k → tuning.configs[k]? = some conf →
        conf.id = .sparseDelta16 → tuning.Accepts blocks conf j i

structure Tuning.Runs (j i k : Nat) : Prop where
  nonempty : j < i
  inside : i ≤ blocks.length
  config : ∃ conf, tuning.configs[k]? = some conf ∧ tuning.Accepts blocks conf j i ∧
    (conf.id = .m4rm → tuning.offSize blocks j i k = false) ∧
    (conf.id = .sparseTiledCOO ∨ conf.id = .sparseTiledCOOUnrolled →
      conf.tiledBlockSize ≤ maxTile tuning.globalVecWidth ∧
        tuning.csr.nCols ≤ maxColumns conf.tiledBlockSize)

inductive Tuning.Chain (path : Nat → Option (Nat × Nat)) : Nat → Prop
  | start : Tuning.Chain path 0
  | segment {j i k : Nat} (isPath : path i = some (j, k)) (runs : tuning.Runs blocks j i k)
      (rest : Tuning.Chain path j) : Tuning.Chain path i

variable {tuning blocks} {table : Table} {i j k : Nat} {path : Nat → Option (Nat × Nat)}

/-! ## Kernels -/

theorem tile_of_timed {block : AtomicBlock} {conf : KernelConfig}
    (kept : pruned tuning block conf = false)
    (tiled : conf.id = .sparseTiledCOO ∨ conf.id = .sparseTiledCOOUnrolled) :
    conf.tiledBlockSize ≤ maxTile tuning.globalVecWidth ∧
      tuning.csr.nCols ≤ maxColumns conf.tiledBlockSize := by
  have right : wrongTile tuning conf block = false := by
    simp only [pruned, Bool.or_eq_false_iff, Bool.and_eq_false_iff] at kept
    have sparse : block.denseHead = false := by
      rcases kept.1.1.1.1.1.1 with sparse | dense
      · exact sparse
      · rcases tiled with isTiled | isTiled <;> rw [isTiled] at dense <;> cases dense
    rcases tiled with isTiled | isTiled
    · rcases kept.1.1.2 with (other | dense) | right
      · rw [isTiled] at other
        cases other
      · rw [sparse] at dense
        cases dense
      · exact right
    · rcases kept.1.2 with (other | dense) | right
      · rw [isTiled] at other
        cases other
      · rw [sparse] at dense
        cases dense
      · exact right
  rw [wrongTile, decide_eq_false_iff_not, not_or, not_ne_iff, Nat.not_lt] at right
  refine ⟨?_, right.2⟩
  rw [right.1]
  exact Nat.min_le_right _ _

/-- A format without a converter on the device has no time on any block. -/
theorem refuses_of_timed {block : AtomicBlock} {conf : KernelConfig}
    (weighed : block.nnz = 0 → block.avgWeight = 0) (kept : untimed tuning block conf = false)
    (other : conf.id ≠ .sparseDelta16) (startRow endRow : Nat) :
    refuses tuning conf startRow endRow = false := by
  have onCpu (same : ∀ start stop, refuses tuning conf start stop = !tuning.config.allowCpuFallback)
      (heavy : conf.id ≠ .m4rm ∧ lowDensity conf.id = false) :
      refuses tuning conf startRow endRow = false := by
    rcases Bool.or_eq_false_iff.mp kept with ⟨left, accepted⟩
    rw [same] at accepted ⊢
    refine (Bool.and_eq_false_iff.mp accepted).resolve_left fun empty => ?_
    -- A block without entries is too light for the format.
    have light := weighed (by simpa using empty)
    simp only [pruned, Bool.or_eq_false_iff, Bool.and_eq_false_iff, heavy.2, light,
      Bool.not_false, decide_eq_false_iff_not] at left
    rcases left.1.1.1.1.1.1 with sparse | dense
    · rcases left.2 with (dense | weight) | never
      · rw [sparse] at dense
        cases dense
      · split at weight <;> norm_num at weight
      · cases never
    · exact heavy.1 (by simpa using dense)
  cases isId : conf.id <;> try (rw [refuses, isId])
  case sparseDelta16 => exact absurd isId other
  case sparsePForDeltaBitExact =>
      have accepted := onCpu (fun start stop => by rw [refuses, isId]) (by rw [isId]; decide)
      rwa [refuses, isId] at accepted
  case sparseGolomb =>
      have accepted := onCpu (fun start stop => by rw [refuses, isId]) (by rw [isId]; decide)
      rwa [refuses, isId] at accepted

theorem Tuning.Segment.runs (cut : Cut blocks) (merges : ∀ conf, tuning.configs[k]? = some conf →
    conf.id = .sparseDelta16 → tuning.Accepts blocks conf j i)
    (segment : tuning.Segment blocks j i k) : tuning.Runs blocks j i k := by
  rcases segment.timed j le_rfl segment.nonempty with ⟨block, conf, isBlock, isConf, kept⟩
  refine ⟨segment.nonempty, segment.inside, conf, isConf, ?_, fun _ => segment.size,
    tile_of_timed (pruned_of_timed kept)⟩
  by_cases isDelta16 : conf.id = .sparseDelta16
  · exact merges conf isConf isDelta16
  · exact fun first last _ _ =>
      refuses_of_timed (cut.weighed block (List.mem_of_getElem? isBlock)) kept isDelta16 _ _

private theorem getLast_sparseIndices (cut : Cut blocks) {lastBi : Nat}
    (isLast : (sparseIndices blocks).getLast? = some lastBi) : lastBi = blocks.length - 1 := by
  have member := List.mem_filter.mp (List.mem_of_getLast? isLast)
  have inside := List.mem_range.mp member.1
  obtain ⟨n, length⟩ : ∃ n, blocks.length = n + 1 := ⟨blocks.length - 1, by omega⟩
  have sparse : blocks[lastBi].denseHead = false := by
    have flag := member.2
    rwa [List.getElem?_eq_getElem inside, Option.any_some, Bool.not_eq_true'] at flag
  obtain ⟨last, isFinal⟩ : ∃ last, blocks[n]? = some last :=
    ⟨_, List.getElem?_eq_getElem (by omega)⟩
  have final := cut.sparseLast _ (List.getElem_mem inside) sparse last (by
    rwa [Option.mem_def, List.getLast?_eq_getElem?, length, Nat.add_sub_cancel])
  rw [sparseIndices, length, List.range_succ, List.filter_append, List.filter_singleton,
    isFinal, Option.any_some, final] at isLast
  rw [Bool.not_false, cond_true, List.getLast?_concat, Option.some_inj] at isLast
  rw [length, Nat.add_sub_cancel, isLast]

private theorem wholeRange_spec (cut : Cut blocks) {id : KernelID} {measured : Option ℚ}
    {ci first : Nat}
    {ms : ℚ} (isFirst : firstSparse blocks = some first)
    (best : wholeRange tuning blocks id measured = some (ci, ms)) :
    (∃ conf, tuning.configs[ci]? = some conf ∧ conf.id = id ∧
      tuning.Accepts blocks conf first blocks.length) ∧ measured = some ms := by
  rcases Option.bind_eq_some_iff.mp best with ⟨ci', isCi, rest⟩
  rcases Option.bind_eq_some_iff.mp rest with ⟨conf, isConf, rest⟩
  rcases Option.bind_eq_some_iff.mp rest with ⟨first', isFirst', rest⟩
  rcases Option.bind_eq_some_iff.mp rest with ⟨lastBi, isLastBi, rest⟩
  rcases Option.bind_eq_some_iff.mp rest with ⟨firstBlock, isFirstBlock, rest⟩
  rcases Option.bind_eq_some_iff.mp rest with ⟨lastBlock, isLastBlock, rest⟩
  rcases Option.bind_eq_some_iff.mp rest with ⟨ms', isMs, rest⟩
  rw [isFirst, Option.some_inj] at isFirst'
  subst isFirst'
  split at rest
  · next measurable =>
      cases rest
      rcases List.findIdx?_eq_some_iff_getElem.mp isCi with ⟨inside, isId, -⟩
      have same := isConf
      rw [List.getElem?_eq_getElem inside, Option.some_inj] at same
      refine ⟨⟨conf, isConf, by rw [← same]; exact eq_of_beq isId, ?_⟩, isMs⟩
      intro firstBlock' lastBlock' isFirstBlock' isLastBlock'
      rw [isFirstBlock, Option.some_inj] at isFirstBlock'
      rw [← getLast_sparseIndices cut isLastBi, isLastBlock, Option.some_inj] at isLastBlock'
      rw [← isFirstBlock', ← isLastBlock']
      exact measurable.2.2.2
  · cases rest

theorem bestWholeRange_spec (cut : Cut blocks) {ci first : Nat} {ms : ℚ}
    (isFirst : firstSparse blocks = some first)
    (best : bestWholeRange tuning blocks = some (ci, ms)) :
    (∃ conf, tuning.configs[ci]? = some conf ∧
      (conf.id = .sparseDelta16 ∨ conf.id = .sparseWarpCSR) ∧
      tuning.Accepts blocks conf first blocks.length) ∧ |ms| ≤ 2 ^ 44 := by
  have cases : wholeRange tuning blocks .sparseDelta16 tuning.delta16Measured = some (ci, ms) ∨
      wholeRange tuning blocks .sparseWarpCSR tuning.warpCsrMeasured = some (ci, ms) := by
    unfold bestWholeRange at best
    split at best
    · next delta16 warpCsr isDelta16 isWarpCsr =>
        rw [Option.some_inj] at best
        split at best
        · exact .inr (by rw [isWarpCsr, best])
        · exact .inl (by rw [isDelta16, best])
    · next delta16 isDelta16 _ => exact .inl (isDelta16.trans best)
    · next => exact .inr best
  rcases cases with isDelta16 | isWarpCsr
  · rcases wholeRange_spec cut isFirst isDelta16 with ⟨⟨conf, isConf, isId, accepted⟩, isMs⟩
    exact ⟨⟨conf, isConf, .inl isId, accepted⟩, tuning.delta16Measured_le ms isMs⟩
  · rcases wholeRange_spec cut isFirst isWarpCsr with ⟨⟨conf, isConf, isId, accepted⟩, isMs⟩
    exact ⟨⟨conf, isConf, .inr isId, accepted⟩, tuning.warpCsrMeasured_le ms isMs⟩

theorem firstSparse_lt {first : Nat} (isFirst : firstSparse blocks = some first) :
    first < blocks.length := by
  have member := List.mem_of_head? isFirst
  exact List.mem_range.mp (List.mem_filter.mp member).1

/-! ## Consolidation -/

theorem consolidate_of_saves {first ci : Nat} {ms : ℚ} (isFirst : firstSparse blocks = some first)
    (best : bestWholeRange tuning blocks = some (ci, ms))
    (saves : tuning.saves blocks table first ms = true) :
    (tuning.consolidate blocks table).path blocks.length = some (first, ci) ∧
      ∀ i ≤ first, (tuning.consolidate blocks table).path i = table.path i := by
  have inside := firstSparse_lt isFirst
  rw [Tuning.consolidate, isFirst, best]
  dsimp only
  rw [if_pos saves]
  constructor
  · exact if_pos rfl
  · intro i within
    have other : i ≠ blocks.length := by omega
    have before : ¬ (first < i ∧ i < blocks.length) := by omega
    simp only [other, before, if_false]

theorem consolidate_cases (table : Table) : tuning.consolidate blocks table = table ∨
    ∃ first ci ms, firstSparse blocks = some first ∧
      bestWholeRange tuning blocks = some (ci, ms) ∧ tuning.saves blocks table first ms = true := by
  unfold Tuning.consolidate
  split
  · next first ci ms isFirst best =>
      split
      · next saves => exact .inr ⟨first, ci, ms, isFirst, best, saves⟩
      · exact .inl rfl
  · exact .inl rfl

theorem chain_of_reached (runs : ∀ j i k, tuning.Segment blocks j i k → tuning.Runs blocks j i k)
    (sound : tuning.Sound blocks table) (reached : table.Reached i) :
    tuning.Chain blocks table.path i := by
  induction i using Nat.strongRecOn with
  | ind i induction =>
    rcases Nat.eq_zero_or_pos i with rfl | positive
    · exact .start
    · rcases sound.entry i positive with ⟨unset, -⟩ | ⟨j, k, isPath, segment, before⟩
      · rcases reached with zero | set
        · omega
        · rw [unset] at set
          cases set
      · exact .segment isPath (runs j i k segment) (induction j segment.nonempty before)

theorem chain_congr {path' : Nat → Option (Nat × Nat)} (chain : tuning.Chain blocks path i)
    (same : ∀ i' ≤ i, path' i' = path i') : tuning.Chain blocks path' i := by
  induction chain with
  | start => exact .start
  | segment isPath runs rest induction =>
    apply Tuning.Chain.segment ((same _ le_rfl).trans isPath) runs
    apply induction
    intro i' within
    have nonempty := runs.nonempty
    exact same i' (by omega)

private theorem runs_wholeRange (cut : Cut blocks) {first ci : Nat} {ms : ℚ}
    (isFirst : firstSparse blocks = some first)
    (best : bestWholeRange tuning blocks = some (ci, ms)) :
    tuning.Runs blocks first blocks.length ci := by
  rcases (bestWholeRange_spec cut isFirst best).1 with ⟨conf, isConf, isId, accepted⟩
  refine ⟨firstSparse_lt isFirst, le_rfl, conf, isConf, accepted, ?_, ?_⟩
  · intro isM4rm
    rw [isM4rm] at isId
    rcases isId with different | different <;> cases different
  · intro tiled
    rcases isId with isId | isId <;> rw [isId] at tiled <;>
      rcases tiled with different | different <;> cases different

/-- A plan that is chosen has a path from the last block to the first. -/
theorem chain_of_chosen (few : blocks.length < 2 ^ 52) (cut : Cut blocks)
    (runs : ∀ j i k, tuning.Segment blocks j i k → tuning.Runs blocks j i k)
    (chosen : tuning.Chosen blocks) :
    tuning.Chain blocks (tuning.consolidate blocks (tuning.solve blocks)).path blocks.length := by
  have sound := @solve_sound tuning blocks
  rcases @solve_complete tuning blocks few with ⟨bounded, complete⟩
  -- With one segment for the sparse rows, the blocks before them have to be reached.
  have replaced : ∀ {first ci ms}, firstSparse blocks = some first →
      bestWholeRange tuning blocks = some (ci, ms) →
      tuning.saves blocks (tuning.solve blocks) first ms = true → tuning.Covered blocks first →
      tuning.Chain blocks (tuning.consolidate blocks (tuning.solve blocks)).path
        blocks.length := by
    intro first ci ms isFirst best saves covered
    have reached := reached_of_covered complete (firstSparse_lt isFirst).le covered
    rcases consolidate_of_saves isFirst best saves with ⟨isPath, same⟩
    exact .segment isPath (runs_wholeRange cut isFirst best)
      (chain_congr (chain_of_reached runs sound reached) same)
  by_cases all : tuning.Covered blocks blocks.length
  · rcases @consolidate_cases tuning blocks (tuning.solve blocks) with
      same | ⟨first, ci, ms, isFirst, best, saves⟩
    · rw [same]
      exact chain_of_reached runs sound (reached_of_covered complete le_rfl all)
    · exact replaced isFirst best saves
        fun b below => all b (below.trans (firstSparse_lt isFirst))
  · rcases chosen with all' | ⟨straight, some, first, isFirst, covered⟩
    · exact absurd all' all
    · rcases Option.isSome_iff_exists.mp some with ⟨⟨ci, ms⟩, best⟩
      apply replaced isFirst best _ covered
      have reached := reached_of_covered complete (firstSparse_lt isFirst).le covered
      have positive : 0 < blocks.length := Nat.zero_lt_of_lt (firstSparse_lt isFirst)
      have infinite : (tuning.solve blocks).dp blocks.length = .infinity false := by
        rcases sound.entry _ positive with unset | ⟨j, k, isPath, -⟩
        · exact unset.2
        · refine absurd (covered_of_reached sound (.inr ?_)) all
          rw [isPath]
          rfl
      rcases bounded first reached with ⟨cost, isCost, -⟩
      have time : Within 44 1 (.finite ms) :=
        ⟨ms, rfl, by
          rw [Nat.cast_one, one_mul]
          exact (bestWholeRange_spec cut isFirst best).2⟩
      have whole := time.add (by norm_num) (by norm_num) kernelOverheadMs_within
      rw [Tuning.saves, infinite, isCost, straight]
      exact whole.less_infinity

/-! ## The plan -/

/-- A path to the first block gives segments end to end, which their kernels can execute. -/
theorem backtrack_of_chain {low high : Nat} (bound : high < 2 ^ 32)
    (chain : tuning.Chain blocks table.path i) {fuel : Nat} (enough : i ≤ fuel)
    (contiguous : Contiguous AtomicBlock.startRow AtomicBlock.endRow (blocks.take i) low high)
    (later : List SegmentRecipe) :
    ∃ plan, backtrack tuning blocks table fuel i later = some (plan ++ later) ∧
      Contiguous SegmentRecipe.startRow SegmentRecipe.endRow plan low high ∧
      ∀ segment ∈ plan, tuning.Executable segment := by
  induction chain generalizing fuel high later with
  | start =>
    refine ⟨[], ?_, ?_, nofun⟩
    · cases fuel <;> rfl
    · exact contiguous
  | @segment j i k isPath runs rest induction =>
    have nonempty := runs.nonempty
    have inside := runs.inside
    obtain ⟨i, rfl⟩ : ∃ i', i = i' + 1 := ⟨i - 1, by omega⟩
    obtain ⟨fuel, rfl⟩ : ∃ fuel', fuel = fuel' + 1 := ⟨fuel - 1, by omega⟩
    rcases runs.config with ⟨conf, isConf, accepted, sized, fits⟩
    rcases contiguous.between nonempty.le with ⟨middle, before, during⟩
    have first := List.getElem?_eq_getElem (by omega : j < blocks.length)
    have last := List.getElem?_eq_getElem (by omega : i < blocks.length)
    have isFirst : ((blocks.take (i + 1)).drop j).head? = some blocks[j] := by
      rw [List.head?_drop, List.getElem?_take_of_lt nonempty, first]
    have isLast : ((blocks.take (i + 1)).drop j).getLast? = some blocks[i] := by
      rw [List.take_succ_eq_append_getElem (by omega), List.drop_append_of_le_length
        (by rw [List.length_take]; omega), List.getLast?_concat]
    rcases during.ends isFirst isLast with ⟨starts, stops, further⟩
    let recipe : SegmentRecipe :=
      { startRow := blocks[j].startRow, endRow := blocks[i].endRow, bestConfig := conf }
    have executable : tuning.Executable recipe := by
      refine ⟨fun isM4rm => ?_, fits⟩
      have eight := sized isM4rm
      rw [Tuning.offSize, isConf, Nat.add_sub_cancel, first, last] at eight
      change (conf.id == .m4rm && (blocks[i].endRow + 2 ^ 32 - blocks[j].startRow) % 2 ^ 32
        != 8) = false at eight
      rw [show conf.id = .m4rm from isM4rm, beq_self_eq_true, Bool.true_and,
        bne_eq_false_iff_eq] at eight
      change blocks[i].endRow - blocks[j].startRow = 8
      omega
    rcases induction (further.trans bound) (by omega : j ≤ fuel) before (recipe :: later) with
      ⟨plan, run, planContiguous, allExecutable⟩
    refine ⟨plan ++ [recipe], ?_, ?_, ?_⟩
    · rw [backtrack, isPath]
      have taken := accepted _ _ first last
      simp only [Option.bind_eq_bind, Option.bind_some, first, last, isConf, taken,
        Bool.not_false, Bool.or_true, if_true]
      rw [List.append_assoc]
      exact run
    · rw [← stops] at further
      exact Contiguous.append_iff.mpr ⟨middle, planContiguous, starts, further, stops⟩
    · intro segment member
      rcases List.mem_append.mp member with earlier | own
      · exact allExecutable segment earlier
      · rwa [List.mem_singleton.mp own]

theorem reached_of_backtrack {fuel : Nat} {later plan : List SegmentRecipe}
    (run : backtrack tuning blocks table fuel i later = some plan) : table.Reached i := by
  cases i with
  | zero => exact .inl rfl
  | succ i =>
    cases fuel with
    | zero => cases run
    | succ fuel =>
      rw [backtrack] at run
      rcases Option.bind_eq_some_iff.mp run with ⟨step, isPath, -⟩
      exact .inr (by rw [isPath]; rfl)

private theorem backtrack_of_path {fuel : Nat} {later plan : List SegmentRecipe} (positive : 0 < i)
    (isPath : table.path i = some (j, k))
    (run : backtrack tuning blocks table fuel i later = some plan) :
    ∃ fuel' later', backtrack tuning blocks table fuel' j later' = some plan := by
  obtain ⟨i, rfl⟩ : ∃ i', i = i' + 1 := ⟨i - 1, by omega⟩
  cases fuel with
  | zero => cases run
  | succ fuel =>
    rw [backtrack, isPath] at run
    rcases Option.bind_eq_some_iff.mp run with ⟨step, isStep, rest⟩
    cases isStep
    rcases Option.bind_eq_some_iff.mp rest with ⟨first, -, rest⟩
    rcases Option.bind_eq_some_iff.mp rest with ⟨last, -, rest⟩
    rcases Option.bind_eq_some_iff.mp rest with ⟨conf, -, rest⟩
    split at rest
    · exact ⟨fuel, _, rest⟩
    · cases rest

theorem chosen_of_plan {fuel : Nat} {plan : List SegmentRecipe}
    (run : tuning.plan blocks fuel = some plan) : tuning.Chosen blocks := by
  have sound := @solve_sound tuning blocks
  rw [Tuning.plan] at run
  rcases @consolidate_cases tuning blocks (tuning.solve blocks) with
    same | ⟨first, ci, ms, isFirst, best, saves⟩
  · rw [same] at run
    exact .inl (covered_of_reached sound (reached_of_backtrack run))
  · have inside := firstSparse_lt isFirst
    rcases consolidate_of_saves isFirst best saves with ⟨isPath, same⟩
    rcases backtrack_of_path (by omega) isPath run with ⟨fuel', later, rest⟩
    have reached : (tuning.solve blocks).Reached first := by
      have reached := reached_of_backtrack rest
      rwa [Table.Reached, same first le_rfl] at reached
    by_cases all : (tuning.solve blocks).Reached blocks.length
    · exact .inl (covered_of_reached sound all)
    · refine .inr ⟨?_, by rw [best]; rfl, first, isFirst, covered_of_reached sound reached⟩
      -- Zero times the infinite cost of the last block is undefined.
      by_contra transposed
      rw [Bool.not_eq_false] at transposed
      rcases sound.entry blocks.length (by omega) with ⟨-, infinite⟩ | ⟨_, _, set, -⟩
      · rw [Tuning.saves, infinite, transposed] at saves
        have never := not_less_infinity_sub_mul_zero (wholeRangeCost ms)
          ((tuning.solve blocks).dp first)
        exact Bool.false_ne_true (never.symm.trans saves)
      · exact all (.inr (by rw [set]; rfl))

/-- As long as the row that the loop cuts at goes forward and Delta-16 accepts the runs that it
has times on, the call ends with a plan over all rows exactly when every block has a candidate
with a time, or those before the sparse ones and a kernel was timed on all sparse rows. -/
theorem tune_plans (tuning : Tuning) :
    (tuning.Advances → tuning.Merges → (tuning.Plans ↔ tuning.Usable)) ∧
      (tuning.Plans → tuning.Moves ∧ tuning.Usable) := by
  have usable : tuning.Plans → tuning.Moves ∧ tuning.Usable := by
    rintro ⟨fuel, plan, run, -⟩
    rcases Option.bind_eq_some_iff.mp run with ⟨blocks, create, planned⟩
    exact ⟨moves_of_createExponentialBlocks create, fuel, blocks, create, chosen_of_plan planned⟩
  refine ⟨fun advances merges => ⟨fun plans => (usable plans).2, ?_⟩, usable⟩
  rintro ⟨fuel, blocks, create, chosen⟩
  have enough : tuning.csr.nRows < fuel + (tuning.csr.nRows + 1) := by omega
  rcases createExponentialBlocks_spec advances enough with ⟨blocks', create', contiguous⟩
  have same := createExponentialBlocks_mono (Nat.le_add_right fuel (tuning.csr.nRows + 1)) create
  rw [create', Option.some_inj] at same
  subst same
  have bound := tuning.csr.nRows_lt
  have length := contiguous.add_length_le
  have cut := cut_of_createExponentialBlocks create
  have runs : ∀ j i k, tuning.Segment blocks' j i k → tuning.Runs blocks' j i k :=
    fun j i k segment => segment.runs cut fun conf isConf isDelta16 =>
      merges fuel blocks' create j i k conf segment isConf isDelta16
  have chain := chain_of_chosen (by omega) cut runs chosen
  rcases backtrack_of_chain bound chain (by omega : _ ≤ fuel + (tuning.csr.nRows + 1))
    (by rwa [List.take_length]) [] with ⟨plan, run, planContiguous, executable⟩
  refine ⟨fuel + (tuning.csr.nRows + 1), plan, ?_, planContiguous, executable⟩
  rw [Tuning.tune, create', Option.bind_eq_bind, Option.bind_some, Tuning.plan, run,
    List.append_nil]

theorem merges_of_narrow (narrow : tuning.csr.nCols ≤ 65535) : tuning.Merges := by
  intro fuel blocks create j i k conf segment isConf isDelta16 first last isFirst isLast
  have columns : (tuning.csr.slice first.startRow
      ((last.endRow + 2 ^ 32 - first.startRow) % 2 ^ 32)).nCols ≤ 65535 := by
    rw [BitVec.le_def]
    change tuning.csr.nCols % 2 ^ 32 ≤ 65535
    exact (Nat.mod_le _ _).trans narrow
  rw [refuses, isDelta16]
  dsimp only
  rw [SparseStreams.DeviceCSRSlice.delta16Offsets, if_pos columns]
  rfl

def fullRows (n : Nat) (few : n < 2 ^ 32) : Tuning where
  csr :=
    { nRows := n
      nCols := 4
      nDenseRows := n
      rowPtr := fun i => BitVec.ofNat 32 (4 * i)
      colInd := fun i => BitVec.ofNat 32 (i % 4)
      nRows_lt := few
      nCols_lt := by decide
      nDenseRows_le := le_rfl }
  isTransposed := false
  globalVecWidth := 64
  config := {}
  measured _ _ := 1
  delta16Measured := none
  warpCsrMeasured := none
  measured_le := by
    intro bi ci
    rw [abs_one]
    norm_num
  delta16Measured_le := nofun
  warpCsrMeasured_le := nofun

/-- M4RM takes eight dense rows. -/
theorem tune_plans_eightRows : (fullRows 8 (by decide)).Plans := by
  have advances : (fullRows 8 (by decide)).Advances :=
    advances_of_sizes (by decide) (by decide) (by decide) (by decide)
  have block : createExponentialBlocks (fullRows 8 (by decide)).csr
      (fullRows 8 (by decide)).config.initialBlockSize.toInt
      (fullRows 8 (by decide)).config.maxBlockSize.toInt
      (fullRows 8 (by decide)).isTransposed 2 =
        some [atomicBlock (fullRows 8 (by decide)).csr true 0 8] := rfl
  refine ((tune_plans _).1 advances (merges_of_narrow (by decide))).mpr ⟨2, _, block, .inl ?_⟩
  intro b below
  obtain rfl : b = 0 := by
    rw [List.length_singleton] at below
    omega
  exact ⟨0, _, { id := .m4rm, vectorWidthBits := 64 }, rfl, rfl, by decide⟩

/-- One dense row makes a block of fewer than eight rows, for which there is no kernel. -/
theorem tune_plans_fullRow : ¬ (fullRows 1 (by decide)).Plans := by
  rintro ⟨fuel, plan, run, -⟩
  rcases Option.bind_eq_some_iff.mp run with ⟨blocks, create, planned⟩
  have later := createExponentialBlocks_mono (Nat.le_add_right fuel 2) create
  have block : createExponentialBlocks (fullRows 1 (by decide)).csr
      (fullRows 1 (by decide)).config.initialBlockSize.toInt
      (fullRows 1 (by decide)).config.maxBlockSize.toInt
      (fullRows 1 (by decide)).isTransposed (fuel + 2) =
        some [atomicBlock (fullRows 1 (by decide)).csr true 0 1] := rfl
  rw [block, Option.some_inj] at later
  subst later
  rcases chosen_of_plan planned with covered | ⟨-, -, first, isFirst, -⟩
  · rcases covered 0 (by decide) with ⟨k, _, conf, isBlock, isConf, kept⟩
    cases isBlock
    have pruned : ∀ conf ∈ (fullRows 1 (by decide)).configs,
        untimed (fullRows 1 (by decide)) (atomicBlock (fullRows 1 (by decide)).csr true 0 1)
          conf = true := by
      decide
    rw [pruned conf (List.mem_of_getElem? isConf)] at kept
    cases kept
  · cases isFirst

end CudaMpqs.GPUAutoTuner
