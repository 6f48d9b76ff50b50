import CudaMpqs.Foundation.Transition
import CudaMpqs.Spmm.GpuAutotuner

/-! # The dynamic program of the tuner

A block has a path in the table exactly when every block before it has a candidate with a
finite time on it. -/

namespace CudaMpqs.GPUAutoTuner

open Binary64 Transition

variable (tuning : Tuning) (blocks : List AtomicBlock)

def Tuning.Timed (b k : Nat) : Prop :=
  ∃ block conf, blocks[b]? = some block ∧ tuning.configs[k]? = some conf ∧
    untimed tuning block conf = false

structure Tuning.Segment (j i k : Nat) : Prop where
  nonempty : j < i
  inside : i ≤ blocks.length
  size : tuning.offSize blocks j i k = false
  timed : ∀ b, j ≤ b → b < i → tuning.Timed blocks b k

def Tuning.Covered (n : Nat) : Prop := ∀ b < n, ∃ k, tuning.Timed blocks b k

def Table.Reached (table : Table) (i : Nat) : Prop := i = 0 ∨ (table.path i).isSome

/-- A path leads to a segment and to a block that is reached, and what has no path costs
infinitely much. -/
structure Tuning.Sound (table : Table) : Prop where
  start : table.dp 0 = .finite 0
  entry : ∀ i, 0 < i → (table.path i = none ∧ table.dp i = .infinity false) ∨
    ∃ j k, table.path i = some (j, k) ∧ tuning.Segment blocks j i k ∧ table.Reached j

def Table.Bounded (table : Table) : Prop :=
  ∀ i, table.Reached i → Within 44 (2 * i) (table.dp i)

def Tuning.Complete (n : Nat) (table : Table) : Prop :=
  ∀ i ≤ n, ∀ j k, tuning.Segment blocks j i k → table.Reached j → table.Reached i

variable {tuning blocks} {table : Table} {b i j k n : Nat}

/-! ## Times -/

theorem benchmarkTime_within {block : AtomicBlock} {conf : KernelConfig} {measured : ℚ}
    (bound : |measured| ≤ 2 ^ 44) (kept : untimed tuning block conf = false) :
    Within 44 1 (benchmarkTime tuning block conf measured) := by
  rw [benchmarkTime, kept, if_neg Bool.false_ne_true]
  split
  · apply round_within (by norm_num) (by norm_num)
    rw [abs_of_pos (by norm_num)]
    norm_num
  · exact ⟨measured, rfl, by rwa [Nat.cast_one, one_mul]⟩

theorem kernelOverheadMs_within : Within 44 1 kernelOverheadMs := by
  apply round_within (by norm_num) (by norm_num)
  rw [abs_of_pos (by norm_num)]
  norm_num

theorem time_of_timed (timed : tuning.Timed blocks b k) :
    ∃ t, tuning.time blocks b k = some t ∧ Within 44 1 t := by
  rcases timed with ⟨block, conf, isBlock, isConf, kept⟩
  refine ⟨_, ?_, benchmarkTime_within (tuning.measured_le b k) kept⟩
  rw [Tuning.time, isBlock, isConf]
  rfl

theorem timed_of_time {t : Binary64} (isTime : tuning.time blocks b k = some t)
    (finite : t ≠ .infinity false) : tuning.Timed blocks b k := by
  rcases Option.bind_eq_some_iff.mp isTime with ⟨block, isBlock, rest⟩
  rcases Option.bind_eq_some_iff.mp rest with ⟨conf, isConf, isValue⟩
  refine ⟨block, conf, isBlock, isConf, ?_⟩
  by_contra isUntimed
  rw [Bool.not_eq_false] at isUntimed
  apply finite
  rw [← Option.some_inj.mp isValue, benchmarkTime, if_pos isUntimed]

theorem pruned_of_timed {block : AtomicBlock} {conf : KernelConfig}
    (kept : untimed tuning block conf = false) : pruned tuning block conf = false :=
  (Bool.or_eq_false_iff.mp kept).1

theorem addTime_of_timed {sum : Binary64} {units : Nat} (timed : tuning.Timed blocks b k)
    (within : Within 44 units sum) (few : units + 1 < 2 ^ 53) :
    ∃ total, tuning.addTime blocks k sum b = some total ∧ Within 44 (units + 1) total := by
  rcases time_of_timed timed with ⟨t, isTime, bound⟩
  refine ⟨sum.add t, ?_, within.add few (by norm_num) bound⟩
  rw [Tuning.addTime, isTime, Option.bind_eq_bind, Option.bind_some, if_neg bound.ne_infinity]

theorem timed_of_addTime {sum total : Binary64}
    (added : tuning.addTime blocks k sum b = some total) : tuning.Timed blocks b k := by
  rcases Option.bind_eq_some_iff.mp added with ⟨t, isTime, isTotal⟩
  split at isTotal
  · cases isTotal
  · next finite => exact timed_of_time isTime finite

theorem foldlM_addTime_of_timed (bs : List Nat) {units : Nat} {sum : Binary64}
    (timed : ∀ b ∈ bs, tuning.Timed blocks b k) (within : Within 44 units sum)
    (few : units + bs.length < 2 ^ 53) :
    ∃ total, bs.foldlM (tuning.addTime blocks k) sum = some total ∧
      Within 44 (units + bs.length) total := by
  induction bs generalizing units sum with
  | nil => exact ⟨sum, rfl, within⟩
  | cons b bs induction =>
    rw [List.length_cons] at few ⊢
    rcases addTime_of_timed (timed b List.mem_cons_self) within (by omega) with
      ⟨added, isAdded, addedWithin⟩
    rcases induction (fun b member => timed b (List.mem_cons_of_mem _ member)) addedWithin
      (by omega) with ⟨total, isTotal, totalWithin⟩
    refine ⟨total, ?_, by rwa [Nat.add_assoc, Nat.add_comm 1] at totalWithin⟩
    rw [List.foldlM_cons, isAdded]
    exact isTotal

theorem timed_of_foldlM_addTime (bs : List Nat) {sum total : Binary64}
    (run : bs.foldlM (tuning.addTime blocks k) sum = some total) :
    ∀ b ∈ bs, tuning.Timed blocks b k := by
  induction bs generalizing sum with
  | nil => nofun
  | cons b bs induction =>
    rw [List.foldlM_cons] at run
    rcases Option.bind_eq_some_iff.mp run with ⟨added, isAdded, rest⟩
    exact List.forall_mem_cons.mpr ⟨timed_of_addTime isAdded, induction rest⟩

theorem mem_blocksOf (nonempty : j < i) : b ∈ List.range' j (i - j) ↔ j ≤ b ∧ b < i := by
  rw [List.mem_range'_1]
  omega

theorem Tuning.Segment.execTime (segment : tuning.Segment blocks j i k)
    (few : blocks.length < 2 ^ 52) :
    ∃ time, tuning.execTime blocks j i k = some time ∧ Within 44 (i - j) time := by
  have inside := segment.inside
  have zero : Within 44 0 (.finite 0) := ⟨0, rfl, by rw [abs_zero, Nat.cast_zero, zero_mul]⟩
  have fold := foldlM_addTime_of_timed (List.range' j (i - j)) (fun b member => by
    rcases (mem_blocksOf segment.nonempty).mp member with ⟨above, below⟩
    exact segment.timed b above below) zero (by rw [List.length_range']; omega)
  rwa [List.length_range', Nat.zero_add] at fold

/-! ## One relaxation -/

theorem relax_cases (nonempty : j < i) (inside : i ≤ blocks.length) (table : Table) (k : Nat) :
    tuning.relax blocks i j table k = table ∨
      ∃ time, tuning.Segment blocks j i k ∧ tuning.execTime blocks j i k = some time ∧
        (((table.dp j).add time).add kernelOverheadMs).less (table.dp i) = true ∧
        tuning.relax blocks i j table k =
          table.write i (((table.dp j).add time).add kernelOverheadMs) (j, k) := by
  unfold Tuning.relax
  split
  · exact .inl rfl
  · next sized =>
      split
      · exact .inl rfl
      · next time isTime =>
          dsimp only
          split
          · next less =>
              refine .inr ⟨time, ⟨nonempty, inside, Bool.eq_false_iff.mpr sized, ?_⟩, isTime,
                less, rfl⟩
              intro b above below
              exact timed_of_foldlM_addTime _ isTime b
                ((mem_blocksOf nonempty).mpr ⟨above, below⟩)
          · exact .inl rfl

variable {other : Nat}

theorem write_path_of_ne {cost : Binary64} {step : Nat × Nat} (different : other ≠ i) :
    (table.write i cost step).path other = table.path other :=
  Function.update_of_ne different _ _

theorem write_dp_of_ne {cost : Binary64} {step : Nat × Nat} (different : other ≠ i) :
    (table.write i cost step).dp other = table.dp other :=
  Function.update_of_ne different _ _

@[simp] theorem write_path_self (cost : Binary64) (step : Nat × Nat) :
    (table.write i cost step).path i = some step := Function.update_self _ _ _

@[simp] theorem write_dp_self (cost : Binary64) (step : Nat × Nat) :
    (table.write i cost step).dp i = cost := Function.update_self _ _ _

theorem reached_write {cost : Binary64} {step : Nat × Nat} :
    (table.write i cost step).Reached other ↔ other = i ∨ table.Reached other := by
  unfold Table.Reached
  by_cases own : other = i
  · subst own
    simp
  · rw [write_path_of_ne own]
    simp only [own, false_or]

theorem relax_reached (nonempty : j < i) (inside : i ≤ blocks.length)
    (reached : table.Reached other) : (tuning.relax blocks i j table k).Reached other := by
  rcases relax_cases nonempty inside table k with same | ⟨time, -, -, -, written⟩
  · rwa [same]
  · rw [written]
    exact reached_write.mpr (.inr reached)

theorem reached_of_relax (nonempty : j < i) (inside : i ≤ blocks.length) (different : other ≠ i)
    (reached : (tuning.relax blocks i j table k).Reached other) : table.Reached other := by
  rcases relax_cases nonempty inside table k with same | ⟨time, -, -, -, written⟩
  · rwa [same] at reached
  · rw [written] at reached
    exact (reached_write.mp reached).resolve_left different

theorem reached_of_less (sound : tuning.Sound blocks table) {time cost : Binary64}
    (less : (((table.dp j).add time).add kernelOverheadMs).less cost = true) :
    table.Reached j := by
  rcases Nat.eq_zero_or_pos j with zero | positive
  · exact .inl zero
  · rcases sound.entry j positive with ⟨-, infinite⟩ | ⟨_, _, isPath, -⟩
    · rw [infinite, infinity_add_not_less] at less
      cases less
    · exact .inr (by rw [isPath]; rfl)

theorem relax_sound (nonempty : j < i) (inside : i ≤ blocks.length)
    (sound : tuning.Sound blocks table) :
    tuning.Sound blocks (tuning.relax blocks i j table k) := by
  rcases relax_cases nonempty inside table k with same | ⟨time, segment, -, less, written⟩
  · rwa [same]
  · rw [written]
    constructor
    · rw [write_dp_of_ne (by omega), sound.start]
    · intro other positive
      by_cases own : other = i
      · subst own
        exact .inr ⟨j, k, write_path_self _ _, segment,
          reached_write.mpr (.inr (reached_of_less sound less))⟩
      · rw [write_path_of_ne own, write_dp_of_ne own]
        rcases sound.entry other positive with unset | ⟨j', k', isPath, segment', reached⟩
        · exact .inl unset
        · exact .inr ⟨j', k', isPath, segment', reached_write.mpr (.inr reached)⟩

theorem cost_within (few : blocks.length < 2 ^ 52) (bounded : table.Bounded)
    (segment : tuning.Segment blocks j i k) (reached : table.Reached j) {time : Binary64}
    (isTime : tuning.execTime blocks j i k = some time) :
    Within 44 (2 * i) (((table.dp j).add time).add kernelOverheadMs) := by
  have nonempty := segment.nonempty
  have inside := segment.inside
  rcases segment.execTime few with ⟨_, isTime', timeWithin⟩
  rw [isTime, Option.some_inj] at isTime'
  rw [← isTime'] at timeWithin
  have sum := (bounded j reached).add (by omega) (by norm_num) timeWithin
  have whole := sum.add (by omega) (by norm_num) kernelOverheadMs_within
  exact whole.mono (by omega)

theorem relax_bounded (nonempty : j < i) (inside : i ≤ blocks.length)
    (few : blocks.length < 2 ^ 52) (sound : tuning.Sound blocks table)
    (bounded : table.Bounded) : (tuning.relax blocks i j table k).Bounded := by
  rcases relax_cases nonempty inside table k with same | ⟨time, segment, isTime, less, written⟩
  · rwa [same]
  · rw [written]
    intro other reached
    by_cases own : other = i
    · subst own
      rw [write_dp_self]
      exact cost_within few bounded segment (reached_of_less sound less) isTime
    · rw [write_dp_of_ne own]
      exact bounded other ((reached_write.mp reached).resolve_left own)

theorem relax_reaches (few : blocks.length < 2 ^ 52) (sound : tuning.Sound blocks table)
    (bounded : table.Bounded) (segment : tuning.Segment blocks j i k)
    (reached : table.Reached j) : (tuning.relax blocks i j table k).Reached i := by
  rcases segment.execTime few with ⟨time, isTime, -⟩
  have cost := cost_within few bounded segment reached isTime
  rw [Tuning.relax, segment.size, if_neg Bool.false_ne_true, isTime]
  dsimp only
  split
  · exact reached_write.mpr (.inl rfl)
  · next notLess =>
      have nonempty := segment.nonempty
      rcases sound.entry i (by omega) with ⟨-, infinite⟩ | ⟨_, _, isPath, -⟩
      · rw [infinite, cost.less_infinity] at notLess
        exact absurd rfl notLess
      · exact .inr (by rw [isPath]; rfl)

/-! ## All relaxations of a block -/

theorem relaxAll_eq (table : Table) : tuning.relaxAll blocks i table =
    run (fun table j => run (tuning.relax blocks i j) table (List.range tuning.configs.length))
      table (List.range i) := rfl

theorem relaxAll_sound (inside : i ≤ blocks.length) (sound : tuning.Sound blocks table) :
    tuning.Sound blocks (tuning.relaxAll blocks i table) := by
  rw [relaxAll_eq]
  apply run_invariant_mem _ sound
  intro table j before sound
  apply run_invariant _ sound
  intro table k sound
  exact relax_sound (List.mem_range.mp before) inside sound

theorem relaxAll_bounded (inside : i ≤ blocks.length) (few : blocks.length < 2 ^ 52)
    (sound : tuning.Sound blocks table) (bounded : table.Bounded) :
    (tuning.relaxAll blocks i table).Bounded := by
  have both : tuning.Sound blocks (tuning.relaxAll blocks i table) ∧
      (tuning.relaxAll blocks i table).Bounded := by
    rw [relaxAll_eq]
    apply @run_invariant_mem _ _ _ (fun table => tuning.Sound blocks table ∧ table.Bounded) _ _ _
      ⟨sound, bounded⟩
    intro table j before both
    apply @run_invariant _ _ _ (fun table => tuning.Sound blocks table ∧ table.Bounded) _ _ both
    intro table k both
    have nonempty := List.mem_range.mp before
    exact ⟨relax_sound nonempty inside both.1, relax_bounded nonempty inside few both.1 both.2⟩
  exact both.2

theorem relaxAll_reached_iff (inside : i ≤ blocks.length) (different : other ≠ i) :
    (tuning.relaxAll blocks i table).Reached other ↔ table.Reached other := by
  rw [relaxAll_eq]
  refine @run_invariant_mem _ _ _ (fun later : Table =>
    later.Reached other ↔ table.Reached other) _ ?_ table Iff.rfl
  intro later j before same
  refine @run_invariant _ _ _ (fun later : Table =>
    later.Reached other ↔ table.Reached other) ?_ _ same _
  intro later k same
  have nonempty := List.mem_range.mp before
  rw [← same]
  exact ⟨reached_of_relax nonempty inside different, relax_reached nonempty inside⟩

theorem Tuning.Segment.lt_length_configs (segment : tuning.Segment blocks j i k) :
    k < tuning.configs.length := by
  rcases segment.timed j le_rfl segment.nonempty with ⟨_, _, -, isConf, -⟩
  exact (List.getElem?_eq_some_iff.mp isConf).1

theorem relaxAll_reaches (few : blocks.length < 2 ^ 52) (sound : tuning.Sound blocks table)
    (bounded : table.Bounded) (segment : tuning.Segment blocks j i k)
    (reached : table.Reached j) : (tuning.relaxAll blocks i table).Reached i := by
  have inside := segment.inside
  rw [relaxAll_eq]
  -- What the relaxations keep until the one of the segment.
  let keeps := fun later : Table =>
    (tuning.Sound blocks later ∧ later.Bounded) ∧ later.Reached j
  have kept : ∀ later, ∀ j' ∈ List.range i, ∀ k', keeps later →
      keeps (tuning.relax blocks i j' later k') := by
    intro later j' before k' ⟨⟨sound, bounded⟩, reached⟩
    have nonempty := List.mem_range.mp before
    exact ⟨⟨relax_sound nonempty inside sound, relax_bounded nonempty inside few sound bounded⟩,
      relax_reached nonempty inside reached⟩
  apply @run_reaches _ _ _ keeps (fun later => later.Reached i) _ j _ _
    (List.mem_range.mpr segment.nonempty) _ table ⟨⟨sound, bounded⟩, reached⟩
  · intro later j' before keeping
    exact run_invariant (fun later k' => kept later j' before k') keeping _
  · intro later j' before already
    apply @run_invariant _ _ _ (fun later : Table => later.Reached i) _ _ already
    exact fun later k' => relax_reached (List.mem_range.mp before) inside
  · intro later keeping
    apply @run_reaches _ _ _ keeps (fun later => later.Reached i) _ k _ _
      (List.mem_range.mpr segment.lt_length_configs) _ later keeping
    · intro later k' _
      exact kept later j (List.mem_range.mpr segment.nonempty) k'
    · intro later k' _
      exact relax_reached segment.nonempty inside
    · intro later keeping
      exact relax_reaches few keeping.1.1 keeping.1.2 segment keeping.2

/-! ## The table -/

theorem start_sound : tuning.Sound blocks Table.start :=
  ⟨rfl, fun _ positive => .inl ⟨rfl, if_neg (Nat.ne_of_gt positive)⟩⟩

theorem start_bounded : Table.start.Bounded := by
  intro i reached
  rcases reached with rfl | reached
  · exact ⟨0, rfl, by rw [abs_zero, Nat.mul_zero, Nat.cast_zero, zero_mul]⟩
  · cases reached

theorem solve_sound : tuning.Sound blocks (tuning.solve blocks) := by
  apply @run_invariant_mem _ _ _ (tuning.Sound blocks) _ _ _ start_sound
  intro table i member sound
  rw [List.mem_range'_1] at member
  exact relaxAll_sound (by omega) sound

theorem solve_complete (few : blocks.length < 2 ^ 52) :
    (tuning.solve blocks).Bounded ∧ tuning.Complete blocks blocks.length (tuning.solve blocks) := by
  have upTo : ∀ n ≤ blocks.length, ∀ table, table = (List.range' 1 n).foldl
      (fun table i => tuning.relaxAll blocks i table) Table.start →
      tuning.Sound blocks table ∧ table.Bounded ∧ tuning.Complete blocks n table := by
    intro n
    induction n with
    | zero =>
      rintro - table rfl
      refine ⟨start_sound, start_bounded, ?_⟩
      intro i none j k segment
      exact absurd segment.nonempty (by omega)
    | succ n induction =>
      rintro inside table rfl
      rcases induction (by omega) _ rfl with ⟨sound, bounded, complete⟩
      rw [List.range'_concat, List.foldl_append, Nat.one_mul, Nat.add_comm 1]
      refine ⟨relaxAll_sound inside sound, relaxAll_bounded inside few sound bounded, ?_⟩
      intro i within j k segment reached
      have nonempty := segment.nonempty
      have before := (relaxAll_reached_iff inside (by omega : j ≠ n + 1)).mp reached
      rcases Nat.lt_or_eq_of_le within with earlier | rfl
      · exact (relaxAll_reached_iff inside (by omega)).mpr
          (complete i (by omega) j k segment before)
      · exact relaxAll_reaches few sound bounded segment before
  exact (upTo blocks.length le_rfl _ rfl).2

theorem segment_of_timed (timed : tuning.Timed blocks b k) : tuning.Segment blocks b (b + 1) k := by
  rcases timed with ⟨block, conf, isBlock, isConf, kept⟩
  constructor
  · exact Nat.lt_succ_self b
  · exact (List.getElem?_eq_some_iff.mp isBlock).1
  · rw [Tuning.offSize, isConf, Nat.add_sub_cancel, isBlock]
    have left := pruned_of_timed kept
    simp only [pruned, Bool.or_eq_false_iff, Bool.and_eq_false_iff] at left
    change (conf.id == .m4rm && (block.endRow + 2 ^ 32 - block.startRow) % 2 ^ 32 != 8) = false
    rcases left.1.1.1.1.1.2 with other | eight
    · rw [other, Bool.false_and]
    · rw [eight.2, Bool.and_false]
  · intro other above below
    obtain rfl : other = b := by omega
    exact ⟨block, conf, isBlock, isConf, kept⟩

theorem covered_of_reached (sound : tuning.Sound blocks table) (reached : table.Reached n) :
    tuning.Covered blocks n := by
  induction n using Nat.strongRecOn with
  | ind n induction =>
    intro b below
    rcases sound.entry n (by omega) with ⟨unset, -⟩ | ⟨j, k, -, segment, before⟩
    · rcases reached with zero | set
      · omega
      · rw [unset] at set
        cases set
    · rcases Nat.lt_or_ge b j with earlier | within
      · exact induction j segment.nonempty before b earlier
      · exact ⟨k, segment.timed b within below⟩

theorem reached_of_covered (complete : tuning.Complete blocks blocks.length table)
    (inside : n ≤ blocks.length) (covered : tuning.Covered blocks n) : table.Reached n := by
  induction n with
  | zero => exact .inl rfl
  | succ n induction =>
    have before := induction (by omega) fun b below => covered b (by omega)
    rcases covered n (Nat.lt_succ_self n) with ⟨k, timed⟩
    exact complete (n + 1) inside n k (segment_of_timed timed) before

end CudaMpqs.GPUAutoTuner
