import Mathlib.Algebra.Order.BigOperators.Group.List
import Mathlib.Algebra.Group.Action.Defs
import CudaMpqs.Cluster.ChunkScheduler

/-! # The ranges of the nodes

`computeContiguousRanges` aligns what a node asks for to hypercubes and then rounds it
to quanta. The ranges partition their stretch of a-values into hypercubes exactly when
the quanta of every node make up whole hypercubes. -/

namespace CudaMpqs

open WorkPool

namespace ChunkScheduler

variable {Double : Type}

def ContiguousRange.interval (range : ContiguousRange) : Interval :=
  ⟨range.start, range.count⟩

/-- The ranges follow each other from zero on, cover their stretch once, begin and end
at multiples of `H`, and none is empty. -/
structure Partition (H : Nat) (ranges : List ContiguousRange) : Prop where
  consecutive : ranges.map (·.interval) = Interval.endToEnd 0 (ranges.map (·.count))
  covering : ∀ index, Interval.coverage (ranges.map (·.interval)) index =
    if index < (ranges.map (·.count)).sum then 1 else 0
  aligned : ∀ range ∈ ranges, H ∣ range.start ∧ H ∣ range.count
  nonempty : ∀ range ∈ ranges, 0 < range.count

/-! ## Laying ranges -/

theorem map_count_layRanges (nodeId cursor : Nat) (counts : List Nat) :
    (layRanges nodeId cursor counts).map (·.count) = counts := by
  induction counts generalizing nodeId cursor with
  | nil => rfl
  | cons count counts induction =>
    simp only [layRanges, List.map_cons, induction]

private theorem layRanges_iff {nodeId cursor : Nat} (inside : cursor < 2 ^ 64) (counts : List Nat) :
    (layRanges nodeId cursor counts).map (·.interval) = Interval.endToEnd cursor counts ↔
      cursor + counts.dropLast.sum < 2 ^ 64 := by
  induction counts generalizing nodeId cursor with
  | nil => exact ⟨fun _ => inside, fun _ => rfl⟩
  | cons count counts induction =>
    cases counts with
    | nil => exact ⟨fun _ => inside, fun _ => rfl⟩
    | cons next counts =>
      have total : cursor + (count :: next :: counts).dropLast.sum =
          cursor + count + (next :: counts).dropLast.sum := by
        rw [List.dropLast_cons_cons, List.sum_cons, Nat.add_assoc]
      have head : (⟨nodeId % 2 ^ 8, cursor, count⟩ : ContiguousRange).interval =
        ⟨cursor, count⟩ := rfl
      rw [total, layRanges, Interval.endToEnd, List.map_cons, head, List.cons_inj_right]
      by_cases fits : cursor + count < 2 ^ 64
      · rw [wrap64, Nat.mod_eq_of_lt fits]
        exact induction fits
      · constructor
        · intro same
          have start : wrap64 (cursor + count) = cursor + count :=
            congrArg Interval.start (List.cons.inj same).1
          have bound : wrap64 (cursor + count) < 2 ^ 64 :=
            Nat.mod_lt _ (by decide)
          omega
        · intro small
          omega

/-- Laid ranges partition their stretch if no cursor wraps and every count is a positive
multiple of `H`. -/
theorem partition_layRanges_iff (H : Nat) (counts : List Nat) : Partition H (layRanges 0 0 counts) ↔
      (∀ count ∈ counts, 0 < count ∧ H ∣ count) ∧ counts.dropLast.sum < 2 ^ 64 := by
  have laid := @layRanges_iff 0 0 (by decide) counts
  have inCounts : ∀ range ∈ layRanges 0 0 counts, range.count ∈ counts := by
    intro range member
    rw [← map_count_layRanges 0 0 counts]
    exact List.mem_map_of_mem member
  rw [Nat.zero_add] at laid
  constructor
  · intro partition
    have consecutive := partition.consecutive
    rw [map_count_layRanges] at consecutive
    refine ⟨?_, laid.mp consecutive⟩
    intro count member
    rw [← map_count_layRanges 0 0 counts] at member
    rcases List.mem_map.mp member with ⟨range, inRanges, rfl⟩
    exact ⟨partition.nonempty range inRanges, (partition.aligned range inRanges).2⟩
  · rintro ⟨good, small⟩
    have consecutive := laid.mpr small
    refine ⟨?_, ?_, ?_, fun range member => (good _ (inCounts range member)).1⟩
    · rw [map_count_layRanges, consecutive]
    · intro index
      rw [map_count_layRanges, consecutive, Interval.coverage_endToEnd]
      simp
    · intro range member
      refine ⟨?_, (good _ (inCounts range member)).2⟩
      apply Interval.dvd_start_endToEnd (Nat.dvd_zero H) (fun count inside => (good count inside).2)
        range.interval
      rw [← consecutive]
      exact List.mem_map_of_mem member

/-! ## The count of a node -/

theorem roundUp_eq (size count : Nat) :
    roundUp size count = wrap64 (count + size - 1) / size * size := by
  apply Nat.mod_eq_of_lt
  calc wrap64 (count + size - 1) / size * size ≤ wrap64 (count + size - 1) :=
        Nat.div_mul_le_self _ _
    _ < 2 ^ 64 := Nat.mod_lt _ (by decide)

theorem roundUp_spec {size count : Nat} (positive : 0 < size) (fits : count + size - 1 < 2 ^ 64) :
    size ∣ roundUp size count ∧ count ≤ roundUp size count ∧ roundUp size count < count + size := by
  rw [roundUp_eq, wrap64, Nat.mod_eq_of_lt fits]
  have split := Nat.div_add_mod (count + size - 1) size
  have rest := Nat.mod_lt (count + size - 1) positive
  rw [Nat.mul_comm size] at split
  exact ⟨Nat.dvd_mul_left _ _, by omega, by omega⟩

def Commensurable (H Q : BitVec 32) : Prop :=
  H.toNat ∣ max 1 Q.toNat ∨ max 1 Q.toNat ∣ H.toNat

instance (H Q : BitVec 32) : Decidable (Commensurable H Q) :=
  inferInstanceAs (Decidable (_ ∨ _))

/-- Whole hypercubes stay whole when they are rounded up to quanta. -/
theorem Commensurable.dvd_roundUp {H Q : BitVec 32} (commensurable : Commensurable H Q)
    {count : Nat} (whole : H.toNat ∣ count) (fits : count + max 1 Q.toNat - 1 < 2 ^ 64) :
    H.toNat ∣ roundUp (max 1 Q.toNat) count := by
  have rounded := roundUp_spec (show 0 < max 1 Q.toNat by omega) fits
  rcases commensurable with dvd | dvd
  · exact dvd.trans rounded.1
  · have multiple : max 1 Q.toNat ∣ roundUp (max 1 Q.toNat) count - count :=
      Nat.dvd_sub rounded.1 (dvd.trans whole)
    have same : roundUp (max 1 Q.toNat) count - count = 0 :=
      Nat.eq_zero_of_dvd_of_lt multiple (by omega)
    rwa [show roundUp (max 1 Q.toNat) count = count by omega]

/-- One hypercube, rounded up to quanta, is whole hypercubes only if the two are
commensurable. -/
theorem Commensurable.of_dvd_roundUp {H Q : BitVec 32}
    (whole : H.toNat ∣ roundUp (max 1 Q.toNat) H.toNat) : Commensurable H Q := by
  have boundH := H.isLt
  have boundQ := Q.isLt
  have rounded := @roundUp_spec (max 1 Q.toNat) H.toNat (by omega) (by omega)
  have difference : H.toNat ∣ roundUp (max 1 Q.toNat) H.toNat - H.toNat :=
    Nat.dvd_sub whole dvd_rfl
  rcases Nat.lt_or_ge H.toNat (max 1 Q.toNat) with less | large
  · -- The quantum is the larger one: a hypercube is rounded up to one quantum.
    rcases rounded.1 with ⟨quanta, product⟩
    match quanta with
    | 0 =>
      rw [Nat.mul_zero] at product
      rw [Commensurable, show H.toNat = 0 by omega]
      exact .inr (Nat.dvd_zero _)
    | 1 =>
      rw [product, Nat.mul_one] at whole
      exact .inl whole
    | more + 2 =>
      have twice := Nat.mul_le_mul_left (max 1 Q.toNat) (Nat.le_add_left 2 more)
      omega
  · -- What is added is less than a quantum, and so less than a hypercube.
    right
    have same := Nat.eq_zero_of_dvd_of_lt difference (by omega)
    rw [show H.toNat = roundUp (max 1 Q.toNat) H.toNat by omega]
    exact rounded.1

theorem max_one_toNat (Q : BitVec 32) : max 1 Q.toNat = if 1 < Q then Q.toNat else 1 := by
  have less : 1 < Q ↔ 1 < Q.toNat := BitVec.lt_def
  split
  · next rounds => exact Nat.max_eq_right (less.mp rounds).le
  · next keeps => exact Nat.max_eq_left (Nat.le_of_not_lt (mt less.mpr keeps))

theorem ite_roundUp {Q : BitVec 32} {count : Nat} (bound : count < 2 ^ 64) :
    (if 1 < Q then roundUp Q.toNat count else count) = roundUp (max 1 Q.toNat) count := by
  rw [max_one_toNat]
  split
  · rfl
  · rw [roundUp_eq, Nat.add_sub_cancel, Nat.div_one, Nat.mul_one, wrap64, Nat.mod_eq_of_lt bound]

theorem ite_div_mul (Q : BitVec 32) (count : Nat) :
    (if 1 < Q then count / Q.toNat * Q.toNat else count) =
      count / max 1 Q.toNat * max 1 Q.toNat := by
  rw [max_one_toNat]
  split
  · rfl
  · rw [Nat.div_one, Nat.mul_one]

section Node

variable (arithmetic : DoubleArithmetic Double) (scheduler : ChunkScheduler Double)
  (wEst : Nat) (H Q : BitVec 32) (headroomPct : Double)

def extended (windows : Nat) : Nat :=
  (arithmetic.toUInt64 (arithmetic.ceil (arithmetic.mul
    (arithmetic.ofNat (wrap64 (windows * H.toNat))) (arithmetic.add (arithmetic.ofNat 1)
      (arithmetic.div headroomPct (arithmetic.ofNat 100)))))).toNat

def DebugWhole : Prop :=
  scheduler.capWindows = 0 ∨ 0 < scheduler.debugCap ∧ H.toNat ∣ scheduler.debugCap

variable {arithmetic scheduler wEst H Q headroomPct}

theorem DebugWhole.applyDebugWindowCap (debug : DebugWhole scheduler H) {count : Nat}
    (positive : 0 < count) (whole : H.toNat ∣ count) :
    0 < scheduler.applyDebugWindowCap count ∧ H.toNat ∣ scheduler.applyDebugWindowCap count ∧
      scheduler.applyDebugWindowCap count ≤ count := by
  rw [ChunkScheduler.applyDebugWindowCap]
  split
  · exact ⟨positive, whole, le_rfl⟩
  · next armed =>
      have cap := debug.resolve_left armed
      refine ⟨lt_min positive cap.1, ?_, Nat.min_le_left _ _⟩
      rcases Nat.le_total count scheduler.debugCap with binds | binds
      · rwa [Nat.min_eq_left binds]
      · rw [Nat.min_eq_right binds]
        exact cap.2

theorem nodeCount_exact (debug : DebugWhole scheduler H)
    (exact : arithmetic.less (arithmetic.ofNat 0) headroomPct = false)
    (commensurable : Commensurable H Q) (hypercubes : 0 < H.toNat) {windows : Nat}
    (some : 0 < windows) (fits : windows * H.toNat + max 1 Q.toNat ≤ 2 ^ 64) :
    let count := scheduler.nodeCount arithmetic wEst H Q headroomPct windows
    0 < count ∧ H.toNat ∣ count ∧ count ≤ windows * H.toNat + max 1 Q.toNat := by
  intro count
  have bound : windows * H.toNat < 2 ^ 64 := by omega
  have asked : wrap64 (windows * H.toNat) = windows * H.toNat := Nat.mod_eq_of_lt bound
  have isCount : count = scheduler.applyDebugWindowCap
      (roundUp (max 1 Q.toNat) (windows * H.toNat)) := by
    simp only [count, nodeCount, exact, asked, Bool.false_eq_true, if_false, ite_roundUp bound]
  have positive := Nat.mul_pos some hypercubes
  have rounded := @roundUp_spec (max 1 Q.toNat) (windows * H.toNat) (by omega) (by omega)
  have capped := debug.applyDebugWindowCap (by omega)
    (commensurable.dvd_roundUp (Nat.dvd_mul_left H.toNat windows) (by omega))
  rw [isCount]
  exact ⟨capped.1, capped.2.1, by omega⟩

theorem nodeCount_headroom (debug : DebugWhole scheduler H)
    (headroom : arithmetic.less (arithmetic.ofNat 0) headroomPct = true)
    (commensurable : Commensurable H Q) (hypercubes : 0 < H.toNat)
    (holds : max 1 Q.toNat ≤ 2 * wEst * H.toNat) (inside : 2 * wEst * H.toNat < 2 ^ 64)
    {windows : Nat} (some : 0 < extended arithmetic H headroomPct windows)
    (fits : extended arithmetic H headroomPct windows + H.toNat + max 1 Q.toNat ≤ 2 ^ 64) :
    let count := scheduler.nodeCount arithmetic wEst H Q headroomPct windows
    0 < count ∧ H.toNat ∣ count ∧ count ≤ 2 * wEst * H.toNat := by
  intro count
  have aligned := @roundUp_spec H.toNat (extended arithmetic H headroomPct windows) hypercubes
    (by omega)
  have asked : wrap64 (2 * wEst * H.toNat) = 2 * wEst * H.toNat := Nat.mod_eq_of_lt inside
  have isCount : count = scheduler.applyDebugWindowCap
      (if 2 * wEst * H.toNat <
          roundUp (max 1 Q.toNat) (roundUp H.toNat (extended arithmetic H headroomPct windows))
        then 2 * wEst * H.toNat / max 1 Q.toNat * max 1 Q.toNat
        else roundUp (max 1 Q.toNat)
          (roundUp H.toNat (extended arithmetic H headroomPct windows))) := by
    simp only [extended] at aligned ⊢
    simp only [count, nodeCount, headroom, asked, if_true,
      ite_roundUp (show roundUp _ _ < 2 ^ 64 from Nat.mod_lt _ (by decide)), ite_div_mul,
      Nat.mul_div_cancel _ hypercubes]
    rfl
  generalize roundUp H.toNat (extended arithmetic H headroomPct windows) = hypercubeCount
    at aligned isCount
  have rounded := @roundUp_spec (max 1 Q.toNat) hypercubeCount (by omega) (by omega)
  have whole := commensurable.dvd_roundUp aligned.1 (by omega)
  rw [isCount]
  split
  · have quanta := Nat.div_pos holds (show 0 < max 1 Q.toNat by omega)
    have most := Nat.div_mul_le_self (2 * wEst * H.toNat) (max 1 Q.toNat)
    have wholeCap : H.toNat ∣ 2 * wEst * H.toNat / max 1 Q.toNat * max 1 Q.toNat := by
      rcases commensurable with dvd | dvd
      · exact Dvd.dvd.mul_left dvd _
      · rw [Nat.div_mul_cancel (Dvd.dvd.mul_left dvd _)]
        exact Nat.dvd_mul_left _ _
    have capped := debug.applyDebugWindowCap (Nat.mul_pos quanta (by omega)) wholeCap
    exact ⟨capped.1, capped.2.1, by omega⟩
  · have capped := debug.applyDebugWindowCap (by omega) whole
    exact ⟨capped.1, capped.2.1, by omega⟩

end Node

/-! ## Both splits -/

def smSplit (smCounts : List (BitVec 32)) (targetRels H : BitVec 32) : List Nat :=
  let numNodes := smCounts.length % 2 ^ 32
  if numNodes = 0 ∨ H = 0 then []
  else (smCounts.take numNodes).map
    (smWindows (wEst numNodes targetRels H) (smTotal numNodes smCounts))

def throughputSplit (arithmetic : DoubleArithmetic Double) (throughputWeights : List Double)
    (targetRels H : BitVec 32) : List Nat :=
  let numNodes := throughputWeights.length % 2 ^ 32
  let tTotal := throughputWeights.foldl arithmetic.add (arithmetic.ofNat 0)
  if numNodes = 0 ∨ H = 0 then []
  else if arithmetic.lessEq tTotal (arithmetic.ofNat 0) then
    smSplit (List.replicate numNodes 1) targetRels H
  else (throughputWeights.take numNodes).map
    (throughputWindows arithmetic (wEst numNodes targetRels H) tTotal)

/-- The hypercubes and the quanta are commensurable, the debug cap is whole hypercubes, the
headroom cap holds a quantum, and nothing leaves 64 bits. -/
structure KeepsHypercubes (arithmetic : DoubleArithmetic Double)
    (scheduler : ChunkScheduler Double) (wEst : Nat) (H Q : BitVec 32)
    (headroomPct : Double) (split : List Nat) : Prop where
  commensurable : Commensurable H Q
  debug : DebugWhole scheduler H
  exact : arithmetic.less (arithmetic.ofNat 0) headroomPct = false →
    (split.map fun windows => windows * H.toNat + max 1 Q.toNat).sum < 2 ^ 64
  headroom : arithmetic.less (arithmetic.ofNat 0) headroomPct = true →
    max 1 Q.toNat ≤ 2 * wEst * H.toNat ∧ split.length * (2 * wEst * H.toNat) < 2 ^ 64 ∧
      ∀ windows ∈ split, 0 < extended arithmetic H headroomPct windows ∧
        extended arithmetic H headroomPct windows + H.toNat + max 1 Q.toNat ≤ 2 ^ 64

/-- A node without multiprocessors still gets a window. -/
theorem smWindows_zero (wEst : Nat) {sTotal : Nat} (positive : 0 < sTotal)
    (bound : sTotal ≤ 2 ^ 64) : smWindows wEst sTotal 0 = 1 := by
  have none : wrap64 (wEst * (0 : BitVec 32).toNat + sTotal - 1) / sTotal = 0 := by
    rw [show (0 : BitVec 32).toNat = 0 from rfl, Nat.mul_zero, Nat.zero_add, wrap64,
      Nat.mod_eq_of_lt (by omega)]
    exact Nat.div_eq_of_lt (by omega)
  simp only [smWindows, none, if_true]

theorem smSplit_positive {smCounts : List (BitVec 32)} {targetRels H : BitVec 32} {windows : Nat}
    (member : windows ∈ smSplit smCounts targetRels H) : 0 < windows ∧ 0 < H.toNat := by
  rw [smSplit] at member
  split at member
  · cases member
  · next some =>
      rcases List.mem_map.mp member with ⟨sm, -, rfl⟩
      have nonzero : H.toNat ≠ 0 := fun zero => some (.inr (BitVec.eq_of_toNat_eq zero))
      refine ⟨?_, Nat.pos_of_ne_zero nonzero⟩
      simp only [smWindows]
      split
      · exact Nat.one_pos
      · next windows => exact Nat.pos_of_ne_zero windows

theorem throughputSplit_positive {arithmetic : DoubleArithmetic Double}
    {throughputWeights : List Double} {targetRels H : BitVec 32} {windows : Nat}
    (member : windows ∈ throughputSplit arithmetic throughputWeights targetRels H) :
    0 < windows ∧ 0 < H.toNat := by
  simp only [throughputSplit] at member
  split at member
  · cases member
  · next some =>
      split at member
      · exact smSplit_positive member
      · rcases List.mem_map.mp member with ⟨weight, -, rfl⟩
        have nonzero : H.toNat ≠ 0 := fun zero => some (.inr (BitVec.eq_of_toNat_eq zero))
        exact ⟨Nat.le_max_left _ _, Nat.pos_of_ne_zero nonzero⟩

section Ranges

variable (arithmetic : DoubleArithmetic Double) (scheduler : ChunkScheduler Double)
  (targetRels H Q : BitVec 32) (headroomPct : Double)

theorem partition_of_keepsHypercubes {wEst : Nat} {split : List Nat}
    (keeps : KeepsHypercubes arithmetic scheduler wEst H Q headroomPct split)
    (positive : ∀ windows ∈ split, 0 < windows ∧ 0 < H.toNat) :
    Partition H.toNat (layRanges 0 0
      (split.map (scheduler.nodeCount arithmetic wEst H Q headroomPct))) := by
  rw [partition_layRanges_iff, List.forall_mem_map]
  have prefixSum := (List.dropLast_sublist (split.map
    (scheduler.nodeCount arithmetic wEst H Q headroomPct))).sum_le_sum fun _ _ => Nat.zero_le _
  cases isExact : arithmetic.less (arithmetic.ofNat 0) headroomPct with
  | false =>
    have total := keeps.exact isExact
    have node : ∀ windows ∈ split, _ := fun windows member =>
      @nodeCount_exact _ _ _ wEst _ _ _ keeps.debug isExact keeps.commensurable
      (positive windows member).2 _ (positive windows member).1
        ((List.single_le_sum (fun _ _ => Nat.zero_le _) _
          (List.mem_map_of_mem member)).trans total.le)
    refine ⟨fun windows member => ⟨(node windows member).1, (node windows member).2.1⟩, ?_⟩
    have most := List.sum_le_sum fun windows member => (node windows member).2.2
    exact (prefixSum.trans most).trans_lt total
  | true =>
    rcases keeps.headroom isExact with ⟨holds, total, extension⟩
    have node : ∀ windows ∈ split, _ := fun windows member =>
      nodeCount_headroom keeps.debug isExact keeps.commensurable (positive windows member).2
        holds ((Nat.le_mul_of_pos_left _ (List.length_pos_of_mem member)).trans_lt total)
        (extension windows member).1 (extension windows member).2
    refine ⟨fun windows member => ⟨(node windows member).1, (node windows member).2.1⟩, ?_⟩
    have most := List.sum_le_card_nsmul (split.map
      (scheduler.nodeCount arithmetic wEst H Q headroomPct)) (2 * wEst * H.toNat)
        (List.forall_mem_map.mpr fun windows member => (node windows member).2.2)
    rw [List.length_map, smul_eq_mul] at most
    exact (prefixSum.trans most).trans_lt total

theorem computeContiguousRanges_eq (smCounts : List (BitVec 32)) :
    scheduler.computeContiguousRanges arithmetic smCounts targetRels H Q headroomPct =
      layRanges 0 0 ((smSplit smCounts targetRels H).map (scheduler.nodeCount arithmetic
        (wEst (smCounts.length % 2 ^ 32) targetRels H) H Q headroomPct)) := by
  simp only [computeContiguousRanges, smSplit]
  split
  · rfl
  · rw [List.map_map]
    rfl

private theorem computeThroughputRanges_eq (throughputWeights : List Double) :
    scheduler.computeThroughputRanges arithmetic throughputWeights targetRels H Q headroomPct =
      layRanges 0 0 ((throughputSplit arithmetic throughputWeights targetRels H).map
        (scheduler.nodeCount arithmetic (wEst (throughputWeights.length % 2 ^ 32) targetRels H)
          H Q headroomPct)) := by
  simp only [computeThroughputRanges, throughputSplit]
  split
  · rfl
  · split
    · rw [computeContiguousRanges_eq, List.length_replicate, Nat.mod_mod]
    · rw [List.map_map]
      rfl

/-- The ranges of both overloads partition their stretch into hypercubes when the
hypercubes and the quanta are commensurable. When they are not, a node without any share
breaks the partition: its one window is no whole number of both. -/
theorem contiguous_ranges : (∀ smCounts, KeepsHypercubes arithmetic scheduler
        (wEst (smCounts.length % 2 ^ 32) targetRels H) H Q headroomPct
        (smSplit smCounts targetRels H) →
      Partition H.toNat
        (scheduler.computeContiguousRanges arithmetic smCounts targetRels H Q headroomPct)) ∧
    (∀ throughputWeights, KeepsHypercubes arithmetic scheduler
        (wEst (throughputWeights.length % 2 ^ 32) targetRels H) H Q headroomPct
        (throughputSplit arithmetic throughputWeights targetRels H) →
      Partition H.toNat
        (scheduler.computeThroughputRanges arithmetic throughputWeights targetRels H Q
          headroomPct)) ∧
    (H ≠ 0 → scheduler.capWindows = 0 → arithmetic.less (arithmetic.ofNat 0) headroomPct = false →
      Partition H.toNat
        (scheduler.computeContiguousRanges arithmetic [0, 1] targetRels H Q headroomPct) →
      Commensurable H Q) := by
  refine ⟨?_, ?_, ?_⟩
  · intro smCounts keeps
    rw [computeContiguousRanges_eq]
    exact partition_of_keepsHypercubes _ _ _ _ _ keeps fun _ => smSplit_positive
  · intro throughputWeights keeps
    rw [computeThroughputRanges_eq]
    exact partition_of_keepsHypercubes _ _ _ _ _ keeps fun _ => throughputSplit_positive
  · intro nonzero inert exact partition
    rw [computeContiguousRanges_eq, partition_layRanges_iff, List.forall_mem_map] at partition
    have member : 1 ∈ smSplit [0, 1] targetRels H := by
      have some : ¬ ([0, 1] : List (BitVec 32)).length % 2 ^ 32 = 0 := by decide
      simp only [smSplit, some, nonzero, or_self, if_false]
      refine List.mem_map.mpr ⟨0, List.mem_cons_self, ?_⟩
      exact smWindows_zero _ (by decide) (by decide)
    have whole := (partition.1 1 member).2
    have bound := H.isLt
    simp only [nodeCount, exact, ChunkScheduler.applyDebugWindowCap, inert, if_true,
      Bool.false_eq_true, if_false, Nat.one_mul] at whole
    rw [show wrap64 H.toNat = H.toNat from Nat.mod_eq_of_lt (by omega),
      ite_roundUp (by omega)] at whole
    exact Commensurable.of_dvd_roundUp whole

end Ranges

/-- Two hypercubes make up a quantum, and the headroom is a tenth. -/
theorem contiguous_ranges_headroom : Partition 16
    ((create 1 0 16 32 0).computeContiguousRanges rationals [3, 1] 0 16 32 10) :=
  (contiguous_ranges rationals (create 1 0 16 32 0) 0 16 32 10).1 [3, 1]
    { commensurable := by decide
      debug := .inl rfl
      exact := fun exact => absurd exact (by decide +kernel)
      headroom := fun _ => by decide +kernel }

/-- One node, hypercubes of 16 and quanta of 24: its 64 a-values are rounded up to 72. -/
theorem contiguous_ranges_quantum : ¬ ∀ (scheduler : ChunkScheduler ℚ) (H Q : BitVec 32),
    Partition H.toNat
      (scheduler.computeContiguousRanges rationals [1] 0 H Q 0) := by
  intro every
  have partition := every (create 1 0 16 24 0) 16 24
  have ranges : (create 1 0 16 24 0).computeContiguousRanges rationals [1] 0 16 24 0 =
      [⟨0, 0, 72⟩] := by
    decide +kernel
  rw [ranges] at partition
  have aligned := (partition.aligned _ List.mem_cons_self).2
  exact absurd aligned (by decide)

end ChunkScheduler

end CudaMpqs
