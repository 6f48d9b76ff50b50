import CudaMpqs.Matrix.SingletonPass

/-! # The singleton loop on the GPU

The host launches passes until one removes nothing. The rows of the greatest part
without singleton columns survive all of them, and are left when the loop converges. -/

namespace CudaMpqs.SingletonPass

open Function Peeling Transition

variable {Row : Type}

structure LoopState (Row : Type) where
  memory : Memory Row
  totalRemoved : Nat
  iteration : Nat

section Passes

variable [DecidableEq Row]

def singletonPass (cols : Row → List Nat) (state : LoopState Row) (schedule : List Row) :
    LoopState Row :=
  let memory := (runKernel cols state.memory schedule).memory
  ⟨memory, state.totalRemoved + memory.removedCount, state.iteration + 1⟩

def singletonLoop (cols : Row → List Nat) : List (List Row) → LoopState Row → LoopState Row
  | [], state => state
  | schedule :: later, state =>
    let after := singletonPass cols state schedule
    if after.memory.removedCount = 0 then after else singletonLoop cols later after

def Synchronized (cols : Row → List Nat) : List (List Row) → LoopState Row → Prop
  | [], _ => True
  | schedule :: later, state =>
    (runKernel cols state.memory schedule).Finished ∧
      ((singletonPass cols state schedule).memory.removedCount ≠ 0 →
        Synchronized cols later (singletonPass cols state schedule))

end Passes

section Start

variable [Fintype Row]

def loopStart (cols : Row → List Nat) : LoopState Row where
  memory := ⟨fun _ => true, computeColWeights cols fun _ => true, 0⟩
  totalRemoved := 0
  iteration := 0

structure Reduced (cols : Row → List Nat) (state : LoopState Row) : Prop where
  weights : state.memory.colWeight = computeColWeights cols state.memory.rowAlive
  core : ∀ core, SingletonFree (fun r c => c ∈ cols r) core → core ⊆ survivors state.memory.rowAlive
  removed : state.totalRemoved + (survivors state.memory.rowAlive).card = Fintype.card Row

theorem reduced_loopStart (cols : Row → List Nat) : Reduced cols (loopStart cols) where
  weights := rfl
  core _ _ _ _ := mem_survivors.mpr rfl
  removed := by
    have all : survivors (loopStart cols).memory.rowAlive = Finset.univ :=
      Finset.eq_univ_of_forall fun _ => mem_survivors.mpr rfl
    rw [all]
    exact Nat.zero_add _

end Start

def kMaxIter : Nat := 100

section Runs

variable [DecidableEq Row] [Fintype Row]

instance Synchronized.decidable (cols : Row → List Nat) :
    ∀ (schedules : List (List Row)) (state : LoopState Row),
      Decidable (Synchronized cols schedules state)
  | [], _ => inferInstanceAs (Decidable True)
  | schedule :: later, state =>
    have := Synchronized.decidable cols later (singletonPass cols state schedule)
    inferInstanceAs (Decidable (_ ∧ (_ → _)))

structure Passes (cols : Row → List Nat) where
  schedules : List (List Row)
  length : schedules.length = kMaxIter
  synchronized : Synchronized cols schedules (loopStart cols)

def Passes.final {cols : Row → List Nat} (passes : Passes cols) : LoopState Row :=
  singletonLoop cols passes.schedules (loopStart cols)

def Passes.Converged {cols : Row → List Nat} (passes : Passes cols) : Prop :=
  passes.final.memory.removedCount = 0

variable {cols : Row → List Nat} {start : Memory Row} {r : Row}

/-! ## Loops -/

structure Shrunk (cols : Row → List Nat) (state after : LoopState Row) : Prop where
  reduced : Reduced cols after
  subset : survivors after.memory.rowAlive ⊆ survivors state.memory.rowAlive
  idle : after.memory.removedCount = 0 →
    SingletonFree (fun r c => c ∈ cols r) (survivors after.memory.rowAlive)

theorem Reduced.singletonPass {state : LoopState Row} (reduced : Reduced cols state)
    (nodup : ∀ r, (cols r).Nodup) {schedule : List Row}
    (finished : (runKernel cols state.memory schedule).Finished) :
    Shrunk cols state (singletonPass cols state schedule) := by
  have passed := (passing_run cols reduced.weights schedule).passed finished reduced.weights nodup
  refine ⟨⟨passed.weights, ?_, ?_⟩, passed.subset, passed.idle⟩
  · exact fun core free => passed.core core (reduced.core core free) free
  · have before := reduced.removed
    have now := passed.removed
    change state.totalRemoved + (runKernel cols state.memory schedule).memory.removedCount +
      (survivors (runKernel cols state.memory schedule).memory.rowAlive).card = _
    omega

theorem Reduced.singletonLoop (nodup : ∀ r, (cols r).Nodup) (schedules : List (List Row))
    {state : LoopState Row} (reduced : Reduced cols state)
    (synchronized : Synchronized cols schedules state)
    (unfinished : schedules = [] → state.memory.removedCount ≠ 0) :
    Shrunk cols state (singletonLoop cols schedules state) := by
  induction schedules generalizing state with
  | nil => exact ⟨reduced, Finset.Subset.rfl, fun none => absurd none (unfinished rfl)⟩
  | cons schedule later induction =>
    have shrunk := reduced.singletonPass nodup synchronized.1
    rw [SingletonPass.singletonLoop]
    split
    next => exact shrunk
    next some =>
        have rest := induction shrunk.reduced (synchronized.2 some) fun _ => some
        exact ⟨rest.reduced, rest.subset.trans shrunk.subset, rest.idle⟩

theorem Passes.shrunk (passes : Passes cols) (nodup : ∀ r, (cols r).Nodup) :
    Shrunk cols (loopStart cols) passes.final := by
  refine Reduced.singletonLoop nodup passes.schedules (reduced_loopStart cols)
    passes.synchronized fun none => ?_
  have length := passes.length
  rw [none] at length
  cases length

theorem Passes.isCore (passes : Passes cols) (nodup : ∀ r, (cols r).Nodup)
    (converged : passes.Converged) :
    IsCore (fun r c => c ∈ cols r) Finset.univ (survivors passes.final.memory.rowAlive) :=
  have shrunk := passes.shrunk nodup
  ⟨⟨Finset.subset_univ _, shrunk.idle converged⟩, fun core part => shrunk.reduced.core core part.2⟩

/-! ## Passes that reach the core -/

def Settled (state : KernelState Row) : Prop :=
  ∀ r, state.threads r = .start ∨ state.threads r = .exited true

theorem exists_peel (nodup : ∀ r, (cols r).Nodup) (order : List Row) {state : KernelState Row}
    (passing : Passing cols start state)
    (weights : start.colWeight = computeColWeights cols start.rowAlive) (settled : Settled state)
    (peels : Peels (fun r c => c ∈ cols r) (survivors state.memory.rowAlive) order) :
    ∃ schedule, Settled (run (kernelStep cols) state schedule) ∧
      survivors (run (kernelStep cols) state schedule).memory.rowAlive =
        peel (survivors state.memory.rowAlive) order := by
  induction order generalizing state with
  | nil => exact ⟨[], settled, rfl⟩
  | cons r order induction =>
    rcases peels with ⟨⟨member, c, present, only⟩, peels⟩
    have alive := mem_survivors.mp member
    have isStart : state.threads r = .start := by
      refine (settled r).resolve_right fun isExited => ?_
      rw [passing.alive r, isExited] at alive
      simp [Phase.removed] at alive
    have weight : state.memory.colWeight c = 1 := by
      rw [passing.colWeight_of_idle fun r => (settled r).imp_right fun isExited => ⟨_, isExited⟩,
        computeColWeights_eq nodup, Finset.card_eq_one]
      refine ⟨r, Finset.eq_singleton_iff_unique_mem.mpr
        ⟨Finset.mem_filter.mpr ⟨member, present⟩, fun other isOther => ?_⟩⟩
      rcases Finset.mem_filter.mp isOther with ⟨inside, otherPresent⟩
      exact only other inside otherPresent
    have dooms : Dooms cols r state.memory (state.threads r) := by
      rw [isStart]
      exact ⟨alive, c, present, weight⟩
    rcases exists_kill dooms with ⟨schedule, killed⟩
    have after := passing.run weights schedule
    have settledAfter : Settled (run (kernelStep cols) state schedule) := by
      intro other
      rw [killed, update_apply]
      split
      next => exact Or.inr rfl
      next => exact settled other
    have erased : survivors (run (kernelStep cols) state schedule).memory.rowAlive =
        (survivors state.memory.rowAlive).erase r := by
      ext other
      rw [Finset.mem_erase, mem_survivors, mem_survivors, after.alive, passing.alive, killed,
        update_apply]
      split
      next isOwn => simp [isOwn, Phase.removed]
      next different => simp [different]
    rw [← erased] at peels
    rcases induction after settledAfter peels with ⟨later, laterSettled, left⟩
    refine ⟨schedule ++ later, ?_⟩
    rw [run_append, left, erased]
    exact ⟨laterSettled, rfl⟩

theorem exists_core_pass (nodup : ∀ r, (cols r).Nodup)
    (weights : start.colWeight = computeColWeights cols start.rowAlive) :
    ∃ schedule, (runKernel cols start schedule).Finished ∧
      IsCore (fun r c => c ∈ cols r) (survivors start.rowAlive)
        (survivors (runKernel cols start schedule).memory.rowAlive) := by
  rcases exists_peels (fun r c => c ∈ cols r) (survivors start.rowAlive) with
    ⟨order, peels, isCore⟩
  rcases exists_peel nodup order (passing_start weights) weights (fun _ => Or.inl rfl) peels with
    ⟨first, settled, left⟩
  rcases exists_finish cols (run (kernelStep cols) (kernelStart start) first) with
    ⟨later, finished⟩
  have between := passing_run cols weights first
  rw [← run_append] at finished
  have passing := passing_run cols weights (first ++ later)
  have same : survivors (runKernel cols start (first ++ later)).memory.rowAlive =
      peel (survivors start.rowAlive) order := by
    apply Finset.Subset.antisymm
    · intro r member
      change r ∈ peel (survivors (kernelStart start).memory.rowAlive) order
      rw [← left]
      by_contra dead
      rw [mem_survivors, passing.alive r, Bool.and_eq_true] at member
      change r ∉ survivors (runKernel cols start first).memory.rowAlive at dead
      rw [mem_survivors, between.alive r, member.1] at dead
      rcases settled r with isStart | isExited
      · exact dead (by rw [show (runKernel cols start first).threads r = _ from isStart]; rfl)
      · have remains : (runKernel cols start (first ++ later)).threads r = .exited true := by
          unfold runKernel
          rw [run_append]
          exact @run_invariant _ _ (kernelStep cols)
            (fun state => state.threads r = .exited true) (fun _ => exited_step) _ isExited later
        rw [remains] at member
        cases member.2
    · exact (passing.passed finished weights nodup).core _ isCore.1.1 isCore.1.2
  exact ⟨first ++ later, finished, same ▸ isCore⟩

private theorem exists_schedules (count : Nat) (state : LoopState Row) :
    ∃ schedules : List (List Row), schedules.length = count ∧
      Synchronized cols schedules state := by
  induction count generalizing state with
  | zero => exact ⟨[], rfl, trivial⟩
  | succ count induction =>
    rcases exists_finish cols (kernelStart state.memory) with ⟨schedule, finished⟩
    rcases induction (singletonPass cols state schedule) with ⟨later, length, synchronized⟩
    exact ⟨schedule :: later, congrArg (· + 1) length, finished, fun _ => synchronized⟩

theorem exists_core_passes (nodup : ∀ r, (cols r).Nodup) : ∃ passes : Passes cols,
    IsCore (fun r c => c ∈ cols r) Finset.univ (survivors passes.final.memory.rowAlive) := by
  have start := reduced_loopStart cols
  have all : survivors (loopStart cols).memory.rowAlive = Finset.univ :=
    Finset.eq_univ_of_forall fun _ => mem_survivors.mpr rfl
  rcases exists_core_pass nodup start.weights with ⟨schedule, finished, isCore⟩
  rcases exists_schedules 99 (singletonPass cols (loopStart cols) schedule) with
    ⟨later, length, synchronized⟩
  let passes : Passes cols :=
    ⟨schedule :: later, congrArg (· + 1) length, finished, fun _ => synchronized⟩
  have shrunk := start.singletonPass nodup finished
  have subset : survivors passes.final.memory.rowAlive ⊆
      survivors (singletonPass cols (loopStart cols) schedule).memory.rowAlive := by
    change survivors (singletonLoop cols (schedule :: later) _).memory.rowAlive ⊆ _
    rw [SingletonPass.singletonLoop]
    split
    next => exact Finset.Subset.rfl
    next some =>
        exact (Reduced.singletonLoop nodup later shrunk.reduced synchronized fun _ => some).subset
  have same := subset.antisymm ((passes.shrunk nodup).reduced.core _ isCore.1.2)
  rw [all] at isCore
  exact ⟨passes, same ▸ isCore⟩

end Runs

end CudaMpqs.SingletonPass
