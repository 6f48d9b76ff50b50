import Mathlib.Data.List.Basic

/-! # Threads on cells of their own

Each thread executes a list of updates, and loads and stores are steps of their own. Where no
two threads touch the same cell, every interleaving leaves what the updates of the owner of a
cell leave there. -/

namespace CudaMpqs.OwnedCells

open Function

variable {Thread Cell : Type} [DecidableEq Cell] {Value : Cell → Type}

abbrev Op (Value : Cell → Type) := (cell : Cell) × (Value cell → Value cell)

def apply (memory : (cell : Cell) → Value cell) (op : Op Value) : (cell : Cell) → Value cell :=
  update memory op.1 (op.2 (memory op.1))

def effect (program : List (Op Value)) (memory : (cell : Cell) → Value cell) :
    (cell : Cell) → Value cell :=
  program.foldl apply memory

inductive Phase (Value : Cell → Type) where
  | next (program : List (Op Value))
  | loaded (op : Op Value) (value : Value op.1) (program : List (Op Value))

def Phase.rest : Phase Value → List (Op Value)
  | .next program => program
  | .loaded op _ program => op :: program

structure State (Thread : Type) (Value : Cell → Type) where
  memory : (cell : Cell) → Value cell
  phase : Thread → Phase Value

def start (programs : Thread → List (Op Value)) (memory : (cell : Cell) → Value cell) :
    State Thread Value :=
  ⟨memory, fun thread => .next (programs thread)⟩

def step [DecidableEq Thread] (state : State Thread Value) (thread : Thread) : State Thread Value :=
  match state.phase thread with
  | .next [] => state
  | .next (op :: program) =>
    { state with phase := update state.phase thread (.loaded op (state.memory op.1) program) }
  | .loaded op value program =>
    { memory := update state.memory op.1 (op.2 value)
      phase := update state.phase thread (.next program) }

def run [DecidableEq Thread] (state : State Thread Value) (schedule : List Thread) :
    State Thread Value :=
  schedule.foldl step state

def State.Finished (state : State Thread Value) : Prop := ∀ thread, (state.phase thread).rest = []

def Owned (programs : Thread → List (Op Value)) : Prop :=
  ∀ thread other, thread ≠ other → ∀ op ∈ programs thread, ∀ op' ∈ programs other, op.1 ≠ op'.1

/-! ## Updates of one thread -/

theorem apply_of_ne {memory : (cell : Cell) → Value cell} {op : Op Value} {cell : Cell}
    (different : op.1 ≠ cell) : apply memory op cell = memory cell :=
  update_of_ne (Ne.symm different) _ _

theorem effect_congr (program : List (Op Value)) {memory memory' : (cell : Cell) → Value cell}
    {cell : Cell} (same : memory cell = memory' cell) :
    effect program memory cell = effect program memory' cell := by
  induction program generalizing memory memory' with
  | nil => exact same
  | cons op program induction =>
    apply induction
    by_cases touched : op.1 = cell
    · subst touched
      rw [apply, apply, update_self, update_self, same]
    · rw [apply_of_ne touched, apply_of_ne touched, same]

/-! ## Any interleaving -/

structure Follows (programs : Thread → List (Op Value)) (memory : (cell : Cell) → Value cell)
    (state : State Thread Value) : Prop where
  rest : ∀ thread, ∀ op ∈ (state.phase thread).rest, op ∈ programs thread
  loaded : ∀ {thread op value program}, state.phase thread = .loaded op value program →
    value = state.memory op.1
  touched : ∀ thread cell, (∃ op ∈ programs thread, op.1 = cell) →
    effect (state.phase thread).rest state.memory cell = effect (programs thread) memory cell
  untouched : ∀ cell, (∀ thread, ∀ op ∈ programs thread, op.1 ≠ cell) →
    state.memory cell = memory cell

variable {programs : Thread → List (Op Value)} {memory : (cell : Cell) → Value cell}

theorem follows_start (programs : Thread → List (Op Value)) (memory : (cell : Cell) → Value cell) :
    Follows programs memory (start programs memory) where
  rest _ _ member := member
  loaded isLoaded := nomatch isLoaded
  touched _ _ _ := rfl
  untouched _ _ := rfl

variable [DecidableEq Thread]

theorem Follows.step {state : State Thread Value} (owned : Owned programs)
    (follows : Follows programs memory state) (thread : Thread) :
    Follows programs memory (step state thread) := by
  unfold OwnedCells.step
  split
  next => exact follows
  next op program isPhase =>
      have phases : ∀ other, ((update state.phase thread
          (.loaded op (state.memory op.1) program)) other).rest = (state.phase other).rest := by
        intro other
        by_cases own : other = thread
        · rw [own, update_self, isPhase]
          rfl
        · rw [update_of_ne own]
      constructor
      · intro other
        rw [phases]
        exact follows.rest other
      · intro other op' value program' isLoaded
        by_cases own : other = thread
        · simp only [own, update_self] at isLoaded
          injection isLoaded with sameOp sameValue
          subst sameOp
          exact (eq_of_heq sameValue).symm
        · simp only [update_of_ne own] at isLoaded
          exact follows.loaded isLoaded
      · intro other cell isTouched
        rw [phases]
        exact follows.touched other cell isTouched
      · exact follows.untouched
  next op value program isPhase =>
      have isValue := follows.loaded isPhase
      subst isValue
      have inProgram : op ∈ programs thread :=
        follows.rest thread op (isPhase ▸ List.mem_cons_self)
      constructor
      · intro other op' member
        by_cases own : other = thread
        · subst own
          simp only [update_self, Phase.rest] at member
          exact follows.rest other op' (isPhase ▸ List.mem_cons_of_mem _ member)
        · simp only [update_of_ne own] at member
          exact follows.rest other op' member
      · intro other op' value' program' isLoaded
        by_cases own : other = thread
        · simp only [own, update_self] at isLoaded
          cases isLoaded
        · simp only [update_of_ne own] at isLoaded
          have member : op' ∈ programs other :=
            follows.rest other op' (isLoaded ▸ List.mem_cons_self)
          have kept := update_of_ne (owned other thread own op' member op inProgram)
            (op.2 (state.memory op.1)) state.memory
          exact (follows.loaded isLoaded).trans kept.symm
      · intro other cell isTouched
        by_cases own : other = thread
        · subst own
          have before := follows.touched other cell isTouched
          rw [isPhase] at before
          simp only [update_self]
          exact before
        · rcases isTouched with ⟨op', member, rfl⟩
          have different := owned other thread own op' member op inProgram
          rw [← follows.touched other op'.1 ⟨op', member, rfl⟩]
          simp only [update_of_ne own]
          exact effect_congr _ (update_of_ne different _ _)
      · intro cell untouched
        have kept := update_of_ne (untouched thread op inProgram).symm
          (op.2 (state.memory op.1)) state.memory
        exact kept.trans (follows.untouched cell untouched)

theorem follows_run (owned : Owned programs) (memory : (cell : Cell) → Value cell)
    (schedule : List Thread) : Follows programs memory (run (start programs memory) schedule) := by
  suffices all : ∀ state, Follows programs memory state →
      Follows programs memory (run state schedule) from all _ (follows_start programs memory)
  induction schedule with
  | nil => exact fun _ follows => follows
  | cons thread schedule induction =>
    exact fun state follows => induction _ (follows.step owned thread)

/-- After any interleaving a cell has what the updates of its owner leave there. -/
theorem run_touched (owned : Owned programs) {schedule : List Thread}
    (finished : (run (start programs memory) schedule).Finished) {thread : Thread} {cell : Cell}
    (touched : ∃ op ∈ programs thread, op.1 = cell) :
    (run (start programs memory) schedule).memory cell = effect (programs thread) memory cell := by
  have follows := (follows_run owned memory schedule).touched thread cell touched
  rwa [finished thread] at follows

theorem run_untouched (owned : Owned programs) (schedule : List Thread) {cell : Cell}
    (untouched : ∀ thread, ∀ op ∈ programs thread, op.1 ≠ cell) :
    (run (start programs memory) schedule).memory cell = memory cell :=
  (follows_run owned memory schedule).untouched cell untouched

/-! ## Termination -/

def Phase.steps : Phase Value → Nat
  | .next program => 2 * program.length
  | .loaded _ _ program => 2 * program.length + 1

theorem step_of_ne (state : State Thread Value) {thread other : Thread}
    (different : other ≠ thread) : (step state thread).phase other = state.phase other := by
  unfold OwnedCells.step
  split
  next => rfl
  next => exact update_of_ne different _ _
  next => exact update_of_ne different _ _

private theorem steps_step (state : State Thread Value) (thread : Thread) :
    ((step state thread).phase thread).steps = (state.phase thread).steps - 1 := by
  unfold OwnedCells.step
  split
  next isPhase => rw [isPhase]; rfl
  next op program isPhase =>
      dsimp only
      rw [update_self, isPhase, Phase.steps, Phase.steps, List.length_cons]
      omega
  next op value program isPhase =>
      dsimp only
      rw [update_self, isPhase, Phase.steps, Phase.steps, Nat.add_sub_cancel]

private theorem steps_run (state : State Thread Value) (schedule : List Thread) (thread : Thread) :
    ((run state schedule).phase thread).steps =
      (state.phase thread).steps - schedule.count thread := by
  induction schedule generalizing state with
  | nil => rfl
  | cons first schedule induction =>
    have rest := induction (step state first)
    refine rest.trans ?_
    by_cases own : first = thread
    · rw [own, steps_step, List.count_cons_self]
      omega
    · rw [step_of_ne state (Ne.symm own), List.count_cons_of_ne own]

/-- Every schedule that gives each thread its steps finishes. -/
theorem run_finished {schedule : List Thread}
    (enough : ∀ thread, 2 * (programs thread).length ≤ schedule.count thread) :
    (run (start programs memory) schedule).Finished := by
  intro thread
  have none : ((run (start programs memory) schedule).phase thread).steps = 0 :=
    (steps_run _ schedule thread).trans (Nat.sub_eq_zero_of_le (enough thread))
  cases isPhase : (run (start programs memory) schedule).phase thread with
  | next program =>
    rw [isPhase, Phase.steps] at none
    have empty : program.length = 0 := by omega
    exact List.length_eq_zero_iff.mp empty
  | loaded op value program =>
    rw [isPhase, Phase.steps] at none
    exact absurd none (Nat.succ_ne_zero _)

theorem exists_finished {threads : List Thread} (all : ∀ thread, thread ∈ threads)
    (programs : Thread → List (Op Value)) (memory : (cell : Cell) → Value cell) :
    ∃ schedule, (run (start programs memory) schedule).Finished := by
  refine ⟨threads.flatMap fun thread => List.replicate (2 * (programs thread).length) thread,
    run_finished fun thread => ?_⟩
  rw [← List.replicate_sublist_iff, List.flatMap]
  exact List.sublist_flatten_of_mem (List.mem_map.mpr ⟨thread, all thread, rfl⟩)

end CudaMpqs.OwnedCells
