import CudaMpqs.Cluster.ContiguousRanges
import CudaMpqs.Cluster.WorkLedger

/-! # The sizes of the chunks

`nextChunkSize` after any history of completions. The scheduler bounds its sizes by the
total of the a-values only; the pool cuts them to what is left. -/

namespace CudaMpqs

open Transition WorkPool

def WorkPool.available (pool : WorkPool) : Nat :=
  pool.endCursor - pool.next + (pool.returned.map (·.count)).sum

theorem WorkPool.checkoutWork_count_le {pool : WorkPool} {count workerId : Nat}
    {chunk : CheckedOutWork} (handed : (pool.checkoutWork count workerId).1 = some chunk) :
    chunk.unit.count ≤ count ∧ chunk.unit.count ≤ pool.available := by
  rcases checkoutWork_cases pool count workerId with
    ⟨rest, unit, concat, larger, result⟩ | ⟨rest, unit, concat, fits, result⟩ |
    ⟨empty, finished, result⟩ | ⟨empty, pending, result⟩
  · rw [result, track, Option.some_inj] at handed
    rw [← handed, available, concat, List.map_append, List.sum_append]
    simp only [List.map_cons, List.map_nil, List.sum_cons, List.sum_nil]
    omega
  · rw [result, track, Option.some_inj] at handed
    rw [← handed, available, concat, List.map_append, List.sum_append]
    simp only [List.map_cons, List.map_nil, List.sum_cons, List.sum_nil]
    omega
  · rw [result] at handed
    cases handed
  · rw [result, track, Option.some_inj] at handed
    rw [← handed, available]
    simp only
    omega

namespace ChunkScheduler

variable {Double : Type} (arithmetic : DoubleArithmetic Double)

structure Completion (Double : Type) where
  workerId : BitVec 8
  rels : BitVec 64
  aVals : BitVec 64
  elapsed : Double

def record (scheduler : ChunkScheduler Double) (completion : Completion Double) :
    ChunkScheduler Double :=
  scheduler.recordCompletion arithmetic completion.workerId completion.rels completion.aVals
    completion.elapsed

def Counts (workerId : BitVec 8) (completion : Completion Double) : Bool :=
  completion.workerId == workerId && !arithmetic.lessEq completion.elapsed (arithmetic.ofNat 0)

def completed (scheduler : ChunkScheduler Double) (workerId : BitVec 8) : Nat :=
  match scheduler.throughput.find? (·.1 == workerId) with
  | none => 0
  | some (_, worker) => worker.chunksCompleted.toNat

/-! ## Histories -/

theorem chunksCompleted_update (worker : WorkerThroughput Double) (rels aVals : BitVec 64)
    (elapsed : Double) :
    (worker.update arithmetic rels aVals elapsed).chunksCompleted.toNat =
      if arithmetic.lessEq elapsed (arithmetic.ofNat 0) then worker.chunksCompleted.toNat
      else (worker.chunksCompleted.toNat + 1) % 2 ^ 32 := by
  rw [WorkerThroughput.update]
  split
  · rfl
  · exact BitVec.toNat_add _ _

/-- A completion changes the entry of its worker only. -/
theorem find?_record (scheduler : ChunkScheduler Double) (completion : Completion Double)
    (workerId : BitVec 8) :
    (scheduler.record arithmetic completion).throughput.find? (·.1 == workerId) =
      if workerId = completion.workerId then
        some (workerId, (((scheduler.throughput.find? (·.1 == workerId)).elim
          (WorkerThroughput.fresh arithmetic) Prod.snd).update arithmetic completion.rels
            completion.aVals completion.elapsed))
      else scheduler.throughput.find? (·.1 == workerId) := by
  have sameKey : (fun entry : BitVec 8 × WorkerThroughput Double => entry.1 == workerId) ∘
      (fun entry => if entry.1 = completion.workerId then
        (entry.1, entry.2.update arithmetic completion.rels completion.aVals
          completion.elapsed) else entry) = fun entry => entry.1 == workerId := by
    funext entry
    simp only [Function.comp_apply]
    split <;> rfl
  rw [record, recordCompletion]
  by_cases known : scheduler.throughput.any (·.1 == completion.workerId) = true
  · simp only [known, if_true]
    rw [List.find?_map, sameKey]
    cases found : scheduler.throughput.find? (·.1 == workerId) with
    | none =>
      rw [List.find?_eq_none] at found
      rcases List.any_eq_true.mp known with ⟨entry, member, isWorker⟩
      have different : workerId ≠ completion.workerId := by
        rintro rfl
        exact found entry member isWorker
      rw [if_neg different]
      rfl
    | some entry =>
      have isWorker : entry.1 = workerId := by
        simpa using List.find?_some found
      simp only [Option.map_some, isWorker, Option.elim_some]
      by_cases own : workerId = completion.workerId
      · rw [if_pos own, if_pos own]
      · rw [if_neg own, if_neg own]
  · simp only [known, Bool.false_eq_true, if_false]
    rw [List.any_eq_true] at known
    rw [List.find?_append]
    by_cases own : workerId = completion.workerId
    · subst own
      have absent : scheduler.throughput.find? (·.1 == completion.workerId) = none := by
        rw [List.find?_eq_none]
        exact fun entry member isWorker => known ⟨entry, member, isWorker⟩
      simp [absent]
    · simp [own, Ne.symm own]

private theorem completed_record (scheduler : ChunkScheduler Double) (workerId : BitVec 8)
    (completion : Completion Double) :
    (scheduler.record arithmetic completion).completed workerId =
      if Counts arithmetic workerId completion then
        (scheduler.completed workerId + 1) % 2 ^ 32
      else scheduler.completed workerId := by
  rw [completed, find?_record, completed, Counts]
  by_cases own : workerId = completion.workerId
  · rw [if_pos own]
    simp only [own, beq_self_eq_true, Bool.true_and, chunksCompleted_update]
    cases scheduler.throughput.find? (·.1 == completion.workerId) with
    | none => cases arithmetic.lessEq completion.elapsed (arithmetic.ofNat 0) <;> rfl
    | some entry => cases arithmetic.lessEq completion.elapsed (arithmetic.ofNat 0) <;> rfl
  · have other : (completion.workerId == workerId) = false :=
      beq_eq_false_iff_ne.mpr (Ne.symm own)
    rw [if_neg own, other, Bool.false_and]
    rfl

theorem completed_run (scheduler : ChunkScheduler Double) (workerId : BitVec 8)
    (fresh : scheduler.throughput = []) (history : List (Completion Double)) :
    (run (record arithmetic) scheduler history).completed workerId =
      history.countP (Counts arithmetic workerId) % 2 ^ 32 := by
  induction history using List.reverseRecOn with
  | nil =>
    rw [run_nil, completed, fresh]
    rfl
  | append_singleton history completion induction =>
    rw [run_append, run_cons, run_nil, completed_record, induction, List.countP_append,
      List.countP_singleton]
    split <;> omega

/-! ## One size -/

variable {scheduler : ChunkScheduler Double} {workerId : BitVec 8}

theorem nextChunkSize_of_few (few : scheduler.completed workerId < kCalibrationChunks) :
    scheduler.nextChunkSize arithmetic workerId =
      scheduler.applyDebugWindowCap scheduler.baseChunk := by
  rw [completed] at few
  rw [nextChunkSize]
  split
  · rfl
  · next id worker found =>
      rw [found] at few
      rw [if_pos few]

theorem nextChunkSize_of_calibrated
    (calibrated : kCalibrationChunks ≤ scheduler.completed workerId) :
    ∃ worker, (workerId, worker) ∈ scheduler.throughput ∧
      scheduler.nextChunkSize arithmetic workerId =
        scheduler.applyDebugWindowCap (clamp (scheduler.roundToQuantum
          (scheduler.alignToHypercube (scheduler.scaledChunk arithmetic worker)))
            scheduler.minChunk scheduler.maxChunk) := by
  rw [completed] at calibrated
  rw [nextChunkSize]
  split
  · next found =>
      rw [found] at calibrated
      exact absurd (show 2 ≤ 0 from calibrated) (by decide)
  · next id worker found =>
      have isWorker : id = workerId := by
        simpa using List.find?_some found
      have member := List.mem_of_find?_eq_some found
      rw [isWorker] at member
      rw [found] at calibrated
      exact ⟨worker, member, if_neg (Nat.not_lt_of_le calibrated)⟩

theorem minChunk_le_maxChunk (scheduler : ChunkScheduler Double) :
    scheduler.minChunk ≤ scheduler.maxChunk := Nat.le_max_left _ _

private theorem clamp_between {low high : Nat} (ordered : low ≤ high) (value : Nat) :
    low ≤ clamp value low high ∧ clamp value low high ≤ high := by
  rw [clamp]
  split_ifs <;> omega

theorem exists_size_between (scheduler : ChunkScheduler Double) (workerId : BitVec 8) :
    ∃ size, scheduler.minChunk ≤ size ∧ size ≤ scheduler.maxChunk ∧
      scheduler.nextChunkSize arithmetic workerId = scheduler.applyDebugWindowCap size := by
  have ordered := scheduler.minChunk_le_maxChunk
  rcases Nat.lt_or_ge (scheduler.completed workerId) kCalibrationChunks with few | enough
  · refine ⟨scheduler.baseChunk, Nat.le_max_left _ _, ?_, nextChunkSize_of_few arithmetic few⟩
    exact Nat.max_le.mpr ⟨ordered, Nat.min_le_right _ _⟩
  · rcases nextChunkSize_of_calibrated arithmetic enough with ⟨worker, -, size⟩
    have between := clamp_between ordered (scheduler.roundToQuantum
      (scheduler.alignToHypercube (scheduler.scaledChunk arithmetic worker)))
    exact ⟨_, between.1, between.2, size⟩

theorem sixteen_le_minChunk (scheduler : ChunkScheduler Double) : 16 ≤ scheduler.minChunk :=
  (Nat.le_max_right _ _).trans (Nat.le_max_right _ _)

theorem nextChunkSize_le (scheduler : ChunkScheduler Double) (workerId : BitVec 8) :
    scheduler.nextChunkSize arithmetic workerId ≤ scheduler.maxChunk := by
  rcases exists_size_between arithmetic scheduler workerId with ⟨size, -, most, isSize⟩
  rw [isSize, applyDebugWindowCap]
  split <;> omega

theorem nextChunkSize_pos (room : scheduler.capWindows = 0 ∨ 0 < scheduler.debugCap)
    (workerId : BitVec 8) : 0 < scheduler.nextChunkSize arithmetic workerId := by
  have least := scheduler.sixteen_le_minChunk
  rcases exists_size_between arithmetic scheduler workerId with ⟨size, above, -, isSize⟩
  rw [isSize, applyDebugWindowCap]
  split
  · omega
  · next armed =>
      have positive := room.resolve_left armed
      omega

theorem minChunk_le_nextChunkSize (inert : scheduler.capWindows = 0) (workerId : BitVec 8) :
    scheduler.minChunk ≤ scheduler.nextChunkSize arithmetic workerId := by
  rcases exists_size_between arithmetic scheduler workerId with ⟨size, above, -, isSize⟩
  rwa [isSize, applyDebugWindowCap, if_pos inert]

theorem roundUp_of_pos {size count : Nat} (positive : 0 < size) (bound : size < 2 ^ 64)
    (inside : count < 2 ^ 64) (some : 0 < roundUp size count) :
    size ∣ roundUp size count ∧ count ≤ roundUp size count ∧ roundUp size count < count + size := by
  apply roundUp_spec positive
  by_contra large
  rw [roundUp_eq, wrap64, Nat.div_eq_of_lt (by omega), Nat.zero_mul] at some
  exact Nat.lt_irrefl 0 some

theorem alignToHypercube_spec {count : Nat} (inside : count < 2 ^ 64)
    (some : 0 < scheduler.alignToHypercube count) :
    max 1 scheduler.hypercubeSize.toNat ∣ scheduler.alignToHypercube count ∧
      count ≤ scheduler.alignToHypercube count ∧
      scheduler.alignToHypercube count < count + max 1 scheduler.hypercubeSize.toNat := by
  have bound := scheduler.hypercubeSize.isLt
  rw [alignToHypercube] at some ⊢
  split
  · next none =>
      rw [none]
      exact ⟨Nat.one_dvd _, le_rfl, Nat.lt_succ_self _⟩
  · next nonzero =>
      rw [if_neg nonzero] at some
      have positive : 0 < scheduler.hypercubeSize.toNat :=
        Nat.pos_of_ne_zero fun zero => nonzero (BitVec.eq_of_toNat_eq zero)
      rw [Nat.max_eq_right positive]
      exact roundUp_of_pos positive (by omega) inside some

theorem roundToQuantum_spec {count : Nat} (inside : count < 2 ^ 64)
    (some : 0 < scheduler.roundToQuantum count) :
    max 1 scheduler.quantum.toNat ∣ scheduler.roundToQuantum count ∧
      count ≤ scheduler.roundToQuantum count ∧
      scheduler.roundToQuantum count < count + max 1 scheduler.quantum.toNat := by
  have bound := scheduler.quantum.isLt
  rw [roundToQuantum] at some ⊢
  rw [max_one_toNat]
  by_cases small : scheduler.quantum ≤ 1
  · rw [if_pos small, if_neg (BitVec.not_lt.mpr small)]
    exact ⟨Nat.one_dvd _, le_rfl, Nat.lt_succ_self _⟩
  · have above := BitVec.not_le.mp small
    have positive : 0 < scheduler.quantum.toNat := Nat.zero_lt_of_lt (BitVec.lt_def.mp above)
    rw [if_neg small] at some
    rw [if_neg small, if_pos above]
    exact roundUp_of_pos positive (by omega) inside some

theorem alignToHypercube_lt (scheduler : ChunkScheduler Double) {count : Nat}
    (inside : count < 2 ^ 64) : scheduler.alignToHypercube count < 2 ^ 64 := by
  rw [alignToHypercube]
  split
  · exact inside
  · exact Nat.mod_lt _ (by decide)

/-- The aligned count is whole hypercubes and the size whole quanta, each the least that
holds what it was rounded from. -/
structure Rounded (hypercubeSize quantum : BitVec 32) (scaled aligned size : Nat) : Prop where
  hypercubes : max 1 hypercubeSize.toNat ∣ aligned
  holdsScaled : scaled ≤ aligned
  leastAligned : aligned < scaled + max 1 hypercubeSize.toNat
  quanta : max 1 quantum.toNat ∣ size
  holdsAligned : aligned ≤ size
  leastSize : size < aligned + max 1 quantum.toNat

theorem exists_rounded (calibrated : kCalibrationChunks ≤ scheduler.completed workerId)
    (inert : scheduler.capWindows = 0)
    (above : scheduler.minChunk < scheduler.nextChunkSize arithmetic workerId)
    (below : scheduler.nextChunkSize arithmetic workerId < scheduler.maxChunk) :
    ∃ worker aligned, (workerId, worker) ∈ scheduler.throughput ∧
      Rounded scheduler.hypercubeSize scheduler.quantum
        (scheduler.scaledChunk arithmetic worker) aligned
        (scheduler.nextChunkSize arithmetic workerId) := by
  rcases nextChunkSize_of_calibrated arithmetic calibrated with ⟨worker, member, size⟩
  rw [applyDebugWindowCap, if_pos inert] at size
  have scaledLt : scheduler.scaledChunk arithmetic worker < 2 ^ 64 := BitVec.isLt _
  have alignedLt := scheduler.alignToHypercube_lt scaledLt
  have unclamped : scheduler.nextChunkSize arithmetic workerId = scheduler.roundToQuantum
      (scheduler.alignToHypercube (scheduler.scaledChunk arithmetic worker)) := by
    rw [size, clamp] at above below ⊢
    split_ifs at above below ⊢
    · omega
    · omega
    · rfl
  have positive : 0 < scheduler.roundToQuantum
      (scheduler.alignToHypercube (scheduler.scaledChunk arithmetic worker)) := by
    omega
  have rounded := roundToQuantum_spec alignedLt positive
  have alignedPositive : 0 < scheduler.alignToHypercube
      (scheduler.scaledChunk arithmetic worker) := by
    have least := Nat.le_of_dvd positive rounded.1
    omega
  have aligned := alignToHypercube_spec scaledLt alignedPositive
  rw [unclamped]
  exact ⟨worker, _, member, aligned.1, aligned.2.1, aligned.2.2, rounded.1, rounded.2.1,
    rounded.2.2⟩

/-! ## After a history -/

section History

variable (numWorkers : BitVec 32) (totalA : BitVec 64) (hypercubeSize quantum : BitVec 32)
  (capWindows : BitVec 64)

private theorem exists_throughput_run (history : List (Completion Double)) :
    ∃ throughput, run (record arithmetic)
      (create numWorkers totalA hypercubeSize quantum capWindows) history =
        ⟨numWorkers, totalA, hypercubeSize, quantum, capWindows, throughput⟩ := by
  refine @run_invariant _ _ (record arithmetic) (fun scheduler => ∃ throughput,
    scheduler = ⟨numWorkers, totalA, hypercubeSize, quantum, capWindows, throughput⟩)
    ?_ _ ⟨[], rfl⟩ history
  rintro scheduler completion ⟨throughput, rfl⟩
  exact ⟨_, rfl⟩

/-- After every history: the size is at most the largest chunk, positive unless an armed
debug cap wraps to zero, and at least the smallest chunk when none is armed. A worker with
fewer than two counted completions gets the base chunk; for any other, a size between the
bounds is the scaled chunk in whole hypercubes, and these in whole quanta. What the pool
hands out for the size is at most the size and at most what the pool has left. -/
theorem nextChunkSize_spec (history : List (Completion Double)) (workerId : BitVec 8) :
    let first : ChunkScheduler Double :=
      create numWorkers totalA hypercubeSize quantum capWindows
    let scheduler := run (record arithmetic) first history
    let size := scheduler.nextChunkSize arithmetic workerId
    let counted := history.countP (Counts arithmetic workerId) % 2 ^ 32
    size ≤ first.maxChunk ∧
    (capWindows = 0 ∨ 0 < first.debugCap → 0 < size) ∧
    (capWindows = 0 → first.minChunk ≤ size) ∧
    (counted < kCalibrationChunks → size = first.applyDebugWindowCap first.baseChunk) ∧
    (capWindows = 0 → kCalibrationChunks ≤ counted → first.minChunk < size →
      size < first.maxChunk → ∃ worker aligned,
        (workerId, worker) ∈ scheduler.throughput ∧ Rounded hypercubeSize quantum
          (scheduler.scaledChunk arithmetic worker) aligned size) ∧
    ∀ (pool : WorkPool) (node : Nat) (chunk : CheckedOutWork),
      (pool.checkoutWork size node).1 = some chunk →
        chunk.unit.count ≤ size ∧ chunk.unit.count ≤ pool.available := by
  intro first scheduler size counted
  have isCounted : scheduler.completed workerId = counted :=
    completed_run arithmetic first workerId rfl history
  rcases exists_throughput_run arithmetic numWorkers totalA hypercubeSize quantum capWindows
    history with ⟨throughput, isRun⟩
  have same : scheduler =
    ⟨numWorkers, totalA, hypercubeSize, quantum, capWindows, throughput⟩ := isRun
  have sameMin : scheduler.minChunk = first.minChunk := by
    rw [same]
    rfl
  have sameMax : scheduler.maxChunk = first.maxChunk := by
    rw [same]
    rfl
  have sameH : scheduler.hypercubeSize = hypercubeSize := by rw [same]
  have sameQ : scheduler.quantum = quantum := by rw [same]
  have sameWindows : scheduler.capWindows = capWindows := by rw [same]
  rw [← isCounted, ← sameMin, ← sameMax, ← sameWindows]
  refine ⟨nextChunkSize_le arithmetic scheduler workerId, ?_,
    fun inert => minChunk_le_nextChunkSize arithmetic inert workerId, ?_, ?_,
    fun pool node chunk => checkoutWork_count_le⟩
  · intro room
    apply nextChunkSize_pos arithmetic _ workerId
    rwa [show scheduler.debugCap = first.debugCap by rw [same]; rfl]
  · intro few
    refine (nextChunkSize_of_few arithmetic few).trans ?_
    rw [same]
    rfl
  · intro inert enough above below
    have rounded := exists_rounded arithmetic enough inert above below
    rwa [sameH, sameQ] at rounded

end History

/-- A pool of one a-value: the smallest chunk is larger. -/
theorem nextChunkSize_spec_small : ¬ ∀ (scheduler : ChunkScheduler ℚ) (workerId : BitVec 8)
    (pool : WorkPool), pool.available ≤ scheduler.totalA.toNat →
      scheduler.nextChunkSize rationals workerId ≤ pool.available := by
  intro every
  exact absurd (every (create 1 1 0 1 0) 0 (WorkPool.create 0 1 1) (by decide)) (by decide)

end ChunkScheduler

end CudaMpqs
