import CudaMpqs.Foundation.Interval
import CudaMpqs.Matrix.MarkowitzRound

/-! # How many merges a launch executes

Candidates of a plan can be executed together when they share no row and the workspace
has room for all of them. The largest number of such candidates is the largest number
of merges that an interleaving executes. -/

namespace CudaMpqs.BatchMerge

open Combine Function Transition PackedRow RowJoin

variable {rows : Nat} {launch : Launch rows}

def mergedLength (launch : Launch rows) (thread : launch.Thread) : Nat :=
  match launch.device.table launch.context (launch.candidate thread).r1,
    launch.device.table launch.context (launch.candidate thread).r2 with
  | some left, some right => (join launch.context.mont left right).entries.length
  | _, _ => 0

structure RowsApart (left right : MergeCandidate rows) : Prop where
  separate : Separate left right
  second : left.r2 ≠ right.r2

structure Together (launch : Launch rows) (chosen : Finset launch.Thread) : Prop where
  apart : ∀ thread ∈ chosen, ∀ other ∈ chosen, thread ≠ other →
    RowsApart (launch.candidate thread) (launch.candidate other)
  mergeable : ∀ thread ∈ chosen, ∃ left right,
    Mergeable (launch.device.table launch.context) (launch.candidate thread) left right
  slots : launch.device.counter.relations.toNat + chosen.card ≤ launch.context.maxRows.toNat
  entries : launch.device.counter.factors.toNat + ∑ thread ∈ chosen, mergedLength launch thread ≤
    launch.context.maxEntries.toNat

theorem mergedLength_eq {thread : launch.Thread} {left right : PackedRow}
    (mergeable : Mergeable (launch.device.table launch.context) (launch.candidate thread)
      left right) :
    mergedLength launch thread = (join launch.context.mont left right).entries.length := by
  rw [mergedLength, mergeable.first, mergeable.second]

/-! ## One thread after the other -/

structure Reserving (launch : Launch rows) (holders : Finset launch.Thread)
    (state : KernelState launch) : Prop where
  rowPtr : state.memory.rowPtr = launch.device.rowPtr
  workspace : state.memory.workspace = launch.device.workspace
  relations : state.memory.counter.relations.toNat =
    launch.device.counter.relations.toNat + holders.card
  factors : state.memory.counter.factors.toNat =
    launch.device.counter.factors.toNat + ∑ thread ∈ holders, mergedLength launch thread
  locks : ∀ row, (∀ thread ∈ holders,
    row ≠ (launch.candidate thread).r1 ∧ row ≠ (launch.candidate thread).r2) →
      state.memory.locks row = 0
  waiting : ∀ thread ∉ holders, state.threads thread = .start
  reserved : ∀ thread ∈ holders, (state.threads thread).job.isSome

theorem reserving_start (launch : Launch rows) : Reserving launch ∅ (kernelStart launch) where
  rowPtr := rfl
  workspace := rfl
  relations := by simp [kernelStart]
  factors := by simp [kernelStart]
  locks _ _ := rfl
  waiting _ _ := rfl
  reserved _ member := absurd member (Finset.notMem_empty _)

theorem run_reserve {state : KernelState launch} {thread : launch.Thread} {left right : PackedRow}
    {reserved : DualCounter}
    (rowPtr : state.memory.rowPtr = launch.device.rowPtr)
    (workspace : state.memory.workspace = launch.device.workspace)
    (waiting : state.threads thread = .start)
    (firstFree : state.memory.locks (launch.candidate thread).r1 = 0)
    (secondFree : state.memory.locks (launch.candidate thread).r2 = 0)
    (mergeable : Mergeable (launch.device.table launch.context) (launch.candidate thread)
      left right)
    (reserves : atomicReserveDual state.memory.counter
      (BitVec.ofNat 32 (join launch.context.mont left right).entries.length)
      launch.context.maxRows launch.context.maxEntries = some reserved) :
    ∃ job, run kernelStep state (List.replicate 6 thread) =
      ⟨{ state.memory with
          counter := reserved
          locks := update (update state.memory.locks (launch.candidate thread).r1 (thread + 1))
            (launch.candidate thread).r2 (thread + 1) },
        update state.threads thread (.writing job 0)⟩ := by
  rcases mergeable with ⟨different, first, second, fits⟩
  rcases Option.map_eq_some_iff.mp first with ⟨ptr1, isPtr1, rfl⟩
  rcases Option.map_eq_some_iff.mp second with ⟨ptr2, isPtr2, rfl⟩
  have merges : mergeRows launch.context.mont
      (resolve launch.context launch.device.workspace ptr1)
      (resolve launch.context launch.device.workspace ptr2) =
        some (join launch.context.mont (resolve launch.context launch.device.workspace ptr1)
          (resolve launch.context launch.device.workspace ptr2)) := by
    rw [mergeRows_eq, if_pos fits]
  refine ⟨⟨ptr1, ptr2, join launch.context.mont
    (resolve launch.context launch.device.workspace ptr1)
    (resolve launch.context launch.device.workspace ptr2),
    state.memory.counter.relations.toNat, state.memory.counter.factors.toNat⟩, ?_⟩
  simp [List.replicate, run, kernelStep, act, waiting, rowPtr, workspace, firstFree, secondFree,
    update_of_ne different.symm, isPtr1, isPtr2, merges, reserves]

theorem Together.subset {chosen fewer : Finset launch.Thread} (together : Together launch chosen)
    (subset : fewer ⊆ chosen) : Together launch fewer where
  apart thread member other member' := together.apart thread (subset member) other (subset member')
  mergeable thread member := together.mergeable thread (subset member)
  slots := by
    have fewerCard := Finset.card_le_card subset
    have slots := together.slots
    omega
  entries := by
    have fewerEntries := Finset.sum_le_sum_of_subset (f := mergedLength launch) subset
    have entries := together.entries
    omega

/-- The next of the chosen threads finds its rows free, and room in the workspace. -/
theorem Reserving.reserve {holders : Finset launch.Thread} {state : KernelState launch}
    (reserving : Reserving launch holders state) {thread : launch.Thread}
    (fresh : thread ∉ holders) (together : Together launch (insert thread holders)) :
    Reserving launch (insert thread holders) (run kernelStep state (List.replicate 6 thread)) := by
  rcases together.mergeable thread (Finset.mem_insert_self _ _) with ⟨left, right, mergeable⟩
  have slots := together.slots
  have entries := together.entries
  have relations := reserving.relations
  have factors := reserving.factors
  have bound := launch.context.maxEntries.isLt
  rw [Finset.card_insert_of_notMem fresh] at slots
  rw [Finset.sum_insert fresh, mergedLength_eq mergeable] at entries
  have length : (BitVec.ofNat 32 (join launch.context.mont left right).entries.length).toNat =
      (join launch.context.mont left right).entries.length := by
    rw [BitVec.toNat_ofNat]
    exact Nat.mod_eq_of_lt (by omega)
  have advanced : (state.memory.counter.relations + 1).toNat =
      state.memory.counter.relations.toNat + 1 := by
    have limit := launch.context.maxRows.isLt
    rw [BitVec.toNat_add]
    exact Nat.mod_eq_of_lt (by simp; omega)
  have added : (state.memory.counter.factors +
      BitVec.ofNat 32 (join launch.context.mont left right).entries.length).toNat =
        state.memory.counter.factors.toNat +
          (join launch.context.mont left right).entries.length := by
    rw [BitVec.toNat_add, length]
    exact Nat.mod_eq_of_lt (by omega)
  have reserves : atomicReserveDual state.memory.counter
      (BitVec.ofNat 32 (join launch.context.mont left right).entries.length)
      launch.context.maxRows launch.context.maxEntries =
        some ⟨state.memory.counter.relations + 1, state.memory.counter.factors +
          BitVec.ofNat 32 (join launch.context.mont left right).entries.length⟩ := by
    unfold atomicReserveDual
    rw [if_neg]
    rw [not_or, BitVec.not_le, BitVec.not_lt, BitVec.lt_def, BitVec.le_def, added]
    omega
  have apart : ∀ other ∈ holders,
      RowsApart (launch.candidate thread) (launch.candidate other) := by
    intro other member
    refine together.apart _ (Finset.mem_insert_self _ _) _ (Finset.mem_insert_of_mem member) ?_
    rintro rfl
    exact fresh member
  have firstFree := reserving.locks (launch.candidate thread).r1 fun other member =>
    ⟨(apart other member).separate.first, (apart other member).separate.second⟩
  have secondFree := reserving.locks (launch.candidate thread).r2 fun other member =>
    ⟨(apart other member).separate.third, (apart other member).second⟩
  rcases run_reserve reserving.rowPtr reserving.workspace (reserving.waiting thread fresh)
    firstFree secondFree mergeable reserves with ⟨job, runs⟩
  rw [runs]
  constructor
  · exact reserving.rowPtr
  · exact reserving.workspace
  · rw [Finset.card_insert_of_notMem fresh]
    exact advanced.trans (by omega)
  · rw [Finset.sum_insert fresh, mergedLength_eq mergeable]
    exact added.trans (by omega)
  · intro row free
    have own := free thread (Finset.mem_insert_self _ _)
    dsimp only
    rw [update_of_ne own.2, update_of_ne own.1]
    exact reserving.locks row fun other member => free other (Finset.mem_insert_of_mem member)
  · intro other outside
    rw [Finset.mem_insert, not_or] at outside
    exact (update_of_ne outside.1 _ _).trans (reserving.waiting other outside.2)
  · intro other member
    dsimp only
    by_cases isOwn : other = thread
    · rw [isOwn, update_self]
      rfl
    · rw [update_of_ne isOwn]
      exact reserving.reserved other (Finset.mem_of_mem_insert_of_ne member isOwn)

theorem exists_reserving {chosen : Finset launch.Thread} (together : Together launch chosen) :
    ∃ schedule, Reserving launch chosen (run kernelStep (kernelStart launch) schedule) := by
  induction chosen using Finset.induction_on with
  | empty => exact ⟨[], reserving_start launch⟩
  | insert thread holders fresh induction =>
    rcases induction (together.subset (Finset.subset_insert _ _)) with ⟨schedule, reserving⟩
    refine ⟨schedule ++ List.replicate 6 thread, ?_⟩
    rw [run_append]
    exact reserving.reserve fresh together

/-! ## Executed merges -/

def succeeded (state : KernelState launch) : Nat :=
  launch.candidates.length - state.memory.abortCount

section Launched

variable {state : KernelState launch} {order : List launch.Thread}

theorem Launched.toFinset_order (launched : Launched launch state order) :
    order.toFinset = Finset.univ.filter fun thread => (state.threads thread).job.isSome := by
  ext thread
  simp [launched.executed thread]

theorem Launched.succeeded_eq (launched : Launched launch state order) :
    succeeded state = order.length := by
  have counted := Finset.card_filter_add_card_filter_not (s := Finset.univ)
    fun thread => (state.threads thread).job = none
  rw [Finset.card_univ, Fintype.card_fin, ← launched.aborts] at counted
  have executed : (Finset.univ.filter fun thread => ¬ (state.threads thread).job = none) =
      order.toFinset := by
    rw [launched.toFinset_order]
    simp only [← ne_eq, Option.isSome_iff_ne_none]
  rw [executed, List.toFinset_card_of_nodup launched.nodup] at counted
  rw [succeeded]
  omega

/-- The executed candidates could be executed together. -/
theorem Launched.together (launched : Launched launch state order)
    (valid : launch.device.Valid launch.context)
    (separate : launch.candidates.Pairwise Separate) : Together launch order.toFinset := by
  have executed : ∀ thread ∈ order.toFinset, ∃ job, (state.threads thread).job = some job :=
    fun thread member => Option.isSome_iff_exists.mp
      ((launched.executed thread).mp (List.mem_toFinset.mp member))
  have relations := launched.valid.relations_le
  have factors := launched.valid.factors_le
  constructor
  · intro thread member other member' different
    refine ⟨separate_of_ne separate different, ?_⟩
    have symmetric : Std.Symm fun earlier later : launch.Thread =>
        (launch.candidate earlier).r2 ≠ (launch.candidate later).r2 := ⟨fun _ _ => Ne.symm⟩
    exact (launched.once.imp And.right).forall (List.mem_toFinset.mp member)
      (List.mem_toFinset.mp member') different
  · intro thread member
    rcases launched.mergeable_first separate (List.mem_toFinset.mp member) with
      ⟨left, right, mergeable, -⟩
    exact ⟨left, right, mergeable⟩
  · rw [Finset.card_eq_sum_ones]
    let place := fun thread : launch.Thread =>
      (state.threads thread).job.elim (Interval.mk 0 1) fun job => ⟨job.slot, 1⟩
    have ones : ∀ thread ∈ order.toFinset, 1 = (place thread).count := by
      intro thread _
      simp only [place]
      cases (state.threads thread).job <;> rfl
    rw [Finset.sum_congr rfl ones]
    apply Interval.sum_count_le valid.relations_le
    · intro thread member
      rcases executed thread member with ⟨job, isJob⟩
      have fresh := launched.fresh isJob
      have inside := launched.inside isJob
      simp only [place, isJob, Option.elim_some]
      omega
    · intro thread member other member' different
      rcases executed thread member with ⟨job, isJob⟩
      rcases executed other member' with ⟨job', isJob'⟩
      have apart := (launched.apart isJob isJob' different).1
      simp only [place, isJob, isJob', Option.elim_some, Interval.Apart]
      omega
  · let place := fun thread : launch.Thread => (state.threads thread).job.elim (Interval.mk 0 0)
      fun job => ⟨job.offset, job.row.entries.length⟩
    have lengths : ∀ thread ∈ order.toFinset,
        mergedLength launch thread = (place thread).count := by
      intro thread member
      rcases executed thread member with ⟨job, isJob⟩
      rcases launched.mergeable_first separate (List.mem_toFinset.mp member) with
        ⟨left, right, mergeable, merged⟩
      simp only [place, isJob, Option.elim_some]
      rw [mergedLength_eq mergeable, merged isJob]
    rw [Finset.sum_congr rfl lengths]
    apply Interval.sum_count_le valid.factors_le
    · intro thread member
      rcases executed thread member with ⟨job, isJob⟩
      have fresh := launched.fresh isJob
      have inside := launched.inside isJob
      simp only [place, isJob, Option.elim_some]
      omega
    · intro thread member other member' different
      rcases executed thread member with ⟨job, isJob⟩
      rcases executed other member' with ⟨job', isJob'⟩
      have apart := (launched.apart isJob isJob' different).2
      simpa only [place, isJob, isJob', Option.elim_some, Interval.Apart] using apart

end Launched

/-- Every interleaving executes at most `limit` merges if and only if at most `limit`
candidates can be executed together. -/
theorem succeeded_le_iff (reached : Reached launch.context launch.device)
    (separate : launch.candidates.Pairwise Separate) (limit : Nat) :
    (∀ schedule, (runKernel launch schedule).Finished →
      succeeded (runKernel launch schedule) ≤ limit) ↔
        ∀ chosen, Together launch chosen → chosen.card ≤ limit := by
  constructor
  · intro bounded chosen together
    rcases exists_reserving together with ⟨schedule, reserving⟩
    rcases exists_finish (run kernelStep _ schedule) with ⟨rest, finished⟩
    rw [← run_append] at finished
    rcases executeMerges_launched launch reached _ finished with ⟨order, launched⟩
    have few := bounded _ finished
    rw [launched.succeeded_eq, ← List.toFinset_card_of_nodup launched.nodup] at few
    refine (Finset.card_le_card fun thread member => ?_).trans few
    rw [List.mem_toFinset, launched.executed, runKernel, run_append]
    exact job_run (reserving.reserved thread member) rest
  · intro bounded schedule finished
    rcases executeMerges_launched launch reached schedule finished with ⟨order, launched⟩
    rw [launched.succeeded_eq, ← List.toFinset_card_of_nodup launched.nodup]
    exact bounded _ (launched.together reached.valid separate)

/-! ## Weight-2 plans -/

theorem SeparatePlan.planWeight2Column {plan : Plan rows} (separate : SeparatePlan plan)
    (device : Device rows) (colRows : Nat → List (Fin rows)) (c : Nat) :
    SeparatePlan (planWeight2Column device colRows plan c) := by
  unfold BatchMerge.planWeight2Column
  split
  · exact separate
  split
  · rename_i r1 r2 rest containing
    split
    · exact separate
    · rename_i free
      rw [Bool.or_eq_true, not_or] at free
      have unused : ∀ {row new}, plan.rowUsed row = true → ¬ plan.rowUsed new = true →
          row ≠ new := by
        rintro row new used free rfl
        exact free used
      have marked : ∀ row, plan.rowUsed row = true →
          update (update plan.rowUsed r1 true) r2 true row = true := by
        intro row used
        rw [update_apply, update_apply, used]
        simp
      have own : ∀ candidate ∈ [(⟨r1, r2, c⟩ : MergeCandidate rows)],
          update (update plan.rowUsed r1 true) r2 true candidate.r1 = true ∧
            update (update plan.rowUsed r1 true) r2 true candidate.r2 = true := by
        intro candidate member
        rw [List.mem_singleton.mp member, update_self, update_apply, update_self]
        simp
      refine ⟨List.pairwise_append.mpr ⟨separate.separate, List.pairwise_singleton _ _, ?_⟩, ?_, ?_⟩
      · intro candidate member single isSingle
        rw [List.mem_singleton.mp isSingle]
        have first := separate.firstUsed candidate member
        have second := separate.secondUsed candidate member
        exact ⟨unused first free.1, unused first free.2, unused second free.1⟩
      · intro candidate member
        rcases List.mem_append.mp member with old | new
        · exact marked _ (separate.firstUsed candidate old)
        · exact (own candidate new).1
      · intro candidate member
        rcases List.mem_append.mp member with old | new
        · exact marked _ (separate.secondUsed candidate old)
        · exact (own candidate new).2
  · exact separate

theorem separate_planWeight2Merges (matrix : PackedCsr rows) (device : Device rows) :
    (planWeight2Merges matrix device).Pairwise Separate := by
  have keeps : ∀ (columns : List Nat) (plan : Plan rows), SeparatePlan plan →
      SeparatePlan (columns.foldl
        (planWeight2Column device (buildInvertedIndex matrix device)) plan) := by
    intro columns
    induction columns with
    | nil => exact fun plan separate => separate
    | cons c columns induction =>
      exact fun plan separate => induction _ (separate.planWeight2Column device _ c)
  exact (keeps _ _ ⟨.nil, by simp [emptyPlan], by simp [emptyPlan]⟩).separate

end CudaMpqs.BatchMerge
