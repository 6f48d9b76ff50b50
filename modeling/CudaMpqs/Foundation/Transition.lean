import Mathlib.Data.List.Infix
import Mathlib.Data.Prod.Lex
import Mathlib.Order.WellFounded

/-! # Runs of transition systems

What one step preserves, a whole run preserves. -/

namespace CudaMpqs.Transition

variable {State Input : Type}

def run (step : State → Input → State) (state : State) (inputs : List Input) : State :=
  inputs.foldl step state

@[simp] theorem run_nil (step : State → Input → State) (state : State) :
    run step state [] = state := rfl

@[simp] theorem run_cons (step : State → Input → State) (state : State)
    (input : Input) (inputs : List Input) :
    run step state (input :: inputs) = run step (step state input) inputs := rfl

theorem run_append (step : State → Input → State) (state : State) (left right : List Input) :
    run step state (left ++ right) = run step (run step state left) right :=
  List.foldl_append

theorem run_replicate (step : State → State) (state : State) (turns : Nat) :
    run (fun state (_ : Unit) => step state) state (List.replicate turns ()) =
      step^[turns] state := by
  induction turns generalizing state with
  | zero => rfl
  | succ turns induction => exact induction (step state)

theorem run_invariant {step : State → Input → State} {Invariant : State → Prop}
    (preserves : ∀ state input, Invariant state → Invariant (step state input))
    {state : State} (initial : Invariant state) (inputs : List Input) :
    Invariant (run step state inputs) := by
  induction inputs generalizing state with
  | nil => exact initial
  | cons input inputs induction => exact induction (preserves state input initial)

theorem run_invariant_mem {step : State → Input → State} {Invariant : State → Prop}
    {inputs : List Input}
    (preserves : ∀ state, ∀ input ∈ inputs, Invariant state → Invariant (step state input))
    {state : State} (initial : Invariant state) : Invariant (run step state inputs) := by
  induction inputs generalizing state with
  | nil => exact initial
  | cons input inputs induction =>
    apply induction
    · exact fun state later member => preserves state later (List.mem_cons_of_mem _ member)
    · exact preserves state input List.mem_cons_self initial

/-- A run reaches a goal that one of its inputs reaches and none of them leaves. -/
theorem run_reaches {step : State → Input → State} {Invariant Goal : State → Prop}
    {inputs : List Input} {input : Input}
    (preserves : ∀ state, ∀ input ∈ inputs, Invariant state → Invariant (step state input))
    (stays : ∀ state, ∀ input ∈ inputs, Goal state → Goal (step state input))
    (member : input ∈ inputs) (reaches : ∀ state, Invariant state → Goal (step state input))
    (state : State) (initial : Invariant state) : Goal (run step state inputs) := by
  rcases List.append_of_mem member with ⟨before, after, rfl⟩
  rw [run_append, run_cons]
  apply run_invariant_mem
  · exact fun state later found => stays state later
      (List.mem_append_right _ (List.mem_cons_of_mem _ found))
  · apply reaches
    exact run_invariant_mem (fun state earlier found => preserves state earlier
      (List.mem_append_left _ found)) initial

/-! ## Guarded runs -/

def Meets (step : State → Input → State) (guard : State → Input → Prop) : State → List Input → Prop
  | _, [] => True
  | state, input :: inputs =>
    guard state input ∧ Meets step guard (step state input) inputs

instance Meets.decidable (step : State → Input → State)
    (guard : State → Input → Prop)
    [∀ state input, Decidable (guard state input)] :
    ∀ (state : State) (inputs : List Input), Decidable (Meets step guard state inputs)
  | _, [] => inferInstanceAs (Decidable True)
  | state, input :: inputs =>
    have := Meets.decidable step guard (step state input) inputs
    inferInstanceAs (Decidable (_ ∧ _))

theorem meets_of_forall {step : State → Input → State} {guard : State → Input → Prop}
    (every : ∀ state input, guard state input) (state : State) (inputs : List Input) :
    Meets step guard state inputs := by
  induction inputs generalizing state with
  | nil => trivial
  | cons input inputs induction => exact ⟨every state input, induction (step state input)⟩

theorem meets_append (step : State → Input → State)
    (guard : State → Input → Prop) (state : State) (left right : List Input) :
    Meets step guard state (left ++ right) ↔ Meets step guard state left ∧
        Meets step guard (run step state left) right := by
  induction left generalizing state with
  | nil => simp [Meets]
  | cons input inputs induction =>
    simp only [List.cons_append, Meets, run_cons, induction, and_assoc]

theorem Meets.of_prefix {step : State → Input → State}
    {guard : State → Input → Prop} {state : State} {taken inputs : List Input}
    (meets : Meets step guard state inputs) (isPrefix : taken <+: inputs) :
    Meets step guard state taken := by
  rcases isPrefix with ⟨rest, rfl⟩
  exact ((meets_append step guard state taken rest).mp meets).1

theorem meets_and {step : State → Input → State}
    {left right : State → Input → Prop} {state : State} {inputs : List Input} :
    Meets step (fun state input => left state input ∧ right state input) state inputs ↔
      Meets step left state inputs ∧ Meets step right state inputs := by
  induction inputs generalizing state with
  | nil => simp [Meets]
  | cons input inputs induction =>
    simp only [Meets, induction]
    exact and_and_and_comm

/-- What a guarded step preserves, a guarded run preserves. -/
theorem Meets.invariant {step : State → Input → State}
    {guard : State → Input → Prop} {Invariant : State → Prop}
    (preserves : ∀ state input, guard state input → Invariant state → Invariant (step state input))
    {state : State} {inputs : List Input}
    (meets : Meets step guard state inputs) (initial : Invariant state) :
    Invariant (run step state inputs) := by
  induction inputs generalizing state with
  | nil => exact initial
  | cons input inputs induction =>
    exact induction meets.2 (preserves state input meets.1 initial)

/-- A property of steps that the invariant of guarded runs decides in favour of
the guard. -/
theorem Meets.iff_of_invariant {step : State → Input → State}
    {allowed guard Good : State → Input → Prop} {Invariant : State → Prop}
    (preserves : ∀ state input, allowed state input → guard state input →
      Invariant state → Invariant (step state input))
    (decides : ∀ state input, allowed state input → Invariant state →
      (guard state input ↔ Good state input))
    {state : State} {inputs : List Input}
    (meets : Meets step allowed state inputs) (initial : Invariant state) :
    Meets step guard state inputs ↔ Meets step Good state inputs := by
  induction inputs generalizing state with
  | nil => exact Iff.rfl
  | cons input inputs induction =>
    rw [Meets, Meets, ← decides state input meets.1 initial]
    exact and_congr_right fun guarded =>
      induction meets.2 (preserves state input meets.1 guarded initial)

/-- An input that decreases a well-founded measure until a goal holds reaches the
goal when it is repeated. -/
theorem exists_replicate_reaches {step : State → Input → State} {input : Input}
    {Invariant Goal : State → Prop} {Measure : Type} [Preorder Measure]
    [WellFoundedLT Measure] (measure : State → Measure)
    (preserves : ∀ state, Invariant state → Invariant (step state input))
    (decreases : ∀ state, Invariant state → ¬ Goal state →
      measure (step state input) < measure state)
    (state : State) (invariant : Invariant state) :
    ∃ repetitions, Goal (run step state (List.replicate repetitions input)) := by
  generalize bound : measure state = value
  induction value using WellFoundedLT.induction generalizing state with
  | ind value induction =>
    by_cases goal : Goal state
    · exact ⟨0, goal⟩
    · have smaller := decreases state invariant goal
      rw [bound] at smaller
      rcases induction _ smaller (step state input) (preserves state invariant) rfl with
        ⟨repetitions, reached⟩
      exact ⟨repetitions + 1, reached⟩

/-- A goal that some input brings nearer in every state is reached. -/
theorem exists_run_reaches {step : State → Input → State}
    {Invariant Goal : State → Prop} (measure : State → Nat)
    (progress : ∀ state, Invariant state → ¬ Goal state →
      ∃ input, measure (step state input) < measure state ∧ Invariant (step state input))
    (state : State) (invariant : Invariant state) :
    ∃ inputs, Goal (run step state inputs) ∧ Invariant (run step state inputs) := by
  generalize bound : measure state = value
  induction value using Nat.strong_induction_on generalizing state with
  | h value induction =>
    by_cases goal : Goal state
    · exact ⟨[], goal, invariant⟩
    · rcases progress state invariant goal with ⟨input, smaller, preserved⟩
      rw [bound] at smaller
      rcases induction _ smaller (step state input) preserved rfl with
        ⟨inputs, reached⟩
      exact ⟨input :: inputs, reached⟩

theorem remaining_lt_of_stage {stage stage' count count' : Nat} (less : stage < stage') :
    toLex (stage, count) < toLex (stage', count') :=
  Prod.Lex.toLex_lt_toLex.mpr (Or.inl less)

theorem remaining_lt_of_count {stage count count' : Nat} (less : count < count') :
    toLex (stage, count) < toLex (stage, count') :=
  Prod.Lex.toLex_lt_toLex.mpr (Or.inr ⟨rfl, less⟩)

/-- Threads that stay halted, and come nearer to it by each of their own steps, can all
be brought to halt. -/
theorem exists_run_halts {Thread Measure : Type} [Preorder Measure] [WellFoundedLT Measure]
    {step : State → Thread → State} {halted : State → Thread → Prop}
    (remaining : State → Thread → Measure)
    (stays : ∀ state thread other, halted state other → halted (step state thread) other)
    (nearer : ∀ state thread, ¬ halted state thread →
      remaining (step state thread) thread < remaining state thread)
    (state : State) (threads : List Thread) :
    ∃ schedule, ∀ thread ∈ threads, halted (run step state schedule) thread := by
  induction threads with
  | nil => exact ⟨[], nofun⟩
  | cons thread threads induction =>
    rcases induction with ⟨schedule, halts⟩
    rcases @exists_replicate_reaches _ _ step thread (fun _ => True) (halted · thread) _ _ _
      (remaining · thread) (fun _ _ => trivial) (fun state _ => nearer state thread)
      (run step state schedule) trivial with ⟨repetitions, own⟩
    refine ⟨schedule ++ List.replicate repetitions thread, ?_⟩
    intro other member
    rw [run_append]
    rcases List.mem_cons.mp member with rfl | member
    · exact own
    · exact run_invariant (fun state thread => stays state thread other) (halts other member) _

/-! ## Machines that emit -/

section Emission

variable {Output Other : Type}

def emitRun (step : State → Input → State × Option Output) (state : State) :
    List Input → State × List Output
  | [] => (state, [])
  | input :: inputs =>
    let next := step state input
    let rest := emitRun step next.1 inputs
    (rest.1, next.2.toList ++ rest.2)

/-- The states of a machine that emits are those of one that does not. -/
theorem emitRun_fst (step : State → Input → State × Option Output) (state : State)
    (inputs : List Input) :
    (emitRun step state inputs).1 = run (fun state input => (step state input).1) state inputs := by
  induction inputs generalizing state with
  | nil => rfl
  | cons input inputs induction => exact induction _

theorem emitRun_append (step : State → Input → State × Option Output)
    (state : State) (left right : List Input) :
    emitRun step state (left ++ right) = ((emitRun step (emitRun step state left).1 right).1,
        (emitRun step state left).2 ++ (emitRun step (emitRun step state left).1 right).2) := by
  induction left generalizing state with
  | nil => rfl
  | cons input inputs induction =>
    simp only [List.cons_append, emitRun, induction, List.append_assoc]

def Guarded (step : State → Input → State × Option Output)
    (guard : State → Input → Prop) : State → List Input → Prop
  | _, [] => True
  | state, input :: inputs =>
    guard state input ∧ Guarded step guard (step state input).1 inputs

instance Guarded.decidable (step : State → Input → State × Option Output)
    (guard : State → Input → Prop)
    [∀ state input, Decidable (guard state input)] :
    ∀ (state : State) (inputs : List Input), Decidable (Guarded step guard state inputs)
  | _, [] => inferInstanceAs (Decidable True)
  | state, input :: inputs =>
    have := Guarded.decidable step guard (step state input).1 inputs
    inferInstanceAs (Decidable (_ ∧ _))

theorem guarded_of_forall {step : State → Input → State × Option Output}
    {guard : State → Input → Prop} (always : ∀ state input, guard state input)
    {state : State} {inputs : List Input} : Guarded step guard state inputs := by
  induction inputs generalizing state with
  | nil => trivial
  | cons input inputs induction => exact ⟨always state input, induction⟩

private theorem guarded_append (step : State → Input → State × Option Output)
    (guard : State → Input → Prop) (state : State) (left right : List Input) :
    Guarded step guard state (left ++ right) ↔ Guarded step guard state left ∧
        Guarded step guard (emitRun step state left).1 right := by
  induction left generalizing state with
  | nil => simp [Guarded, emitRun]
  | cons input inputs induction =>
    simp only [List.cons_append, Guarded, emitRun, induction, and_assoc]

theorem Guarded.of_append {step : State → Input → State × Option Output}
    {guard : State → Input → Prop} {state : State} {taken inputs : List Input}
    (guarded : Guarded step guard state inputs) (isPrefix : taken <+: inputs) :
    Guarded step guard state taken := by
  rcases isPrefix with ⟨rest, rfl⟩
  exact ((guarded_append step guard state taken rest).mp guarded).1

/-- What one guarded step preserves of the state and the outputs so far, a
guarded run preserves. -/
theorem emitRun_invariant {step : State → Input → State × Option Output}
    {guard : State → Input → Prop} {Invariant : State → List Output → Prop}
    (preserves : ∀ state log input, guard state input → Invariant state log →
      Invariant (step state input).1 (log ++ (step state input).2.toList))
    {state : State} {log : List Output} (initial : Invariant state log)
    {inputs : List Input} (guarded : Guarded step guard state inputs) :
    Invariant (emitRun step state inputs).1 (log ++ (emitRun step state inputs).2) := by
  induction inputs generalizing state log with
  | nil => simpa [emitRun] using initial
  | cons input inputs induction =>
    have next := preserves state log input guarded.1 initial
    have rest := induction next guarded.2
    rw [emitRun, ← List.append_assoc]
    exact rest

theorem guarded_iff_outputs {step : State → Input → State × Option Output}
    {guard : State → Input → Prop} {Good : Output → Prop}
    (shows : ∀ state input, guard state input ↔ ∀ output ∈ (step state input).2, Good output)
    (state : State) (inputs : List Input) :
    Guarded step guard state inputs ↔ ∀ output ∈ (emitRun step state inputs).2, Good output := by
  induction inputs generalizing state with
  | nil => simp [Guarded, emitRun]
  | cons input inputs induction =>
    simp only [Guarded, emitRun, induction, shows, List.mem_append, Option.mem_toList,
      or_imp, forall_and, Option.mem_def]

structure Simulates (step : State → Input → State × Option Output)
    (abstract : Other → Input → Other × Option Output)
    (guard : Other → Input → Prop) (Allowed : Input → Prop)
    (Related : State → Other → Prop) : Prop where
  related : ∀ state other input, Allowed input → Related state other →
    guard other input → Related (step state input).1 (abstract other input).1
  emits : ∀ state other input, Allowed input → Related state other →
    guard other input → (step state input).2 = (abstract other input).2

variable {step : State → Input → State × Option Output}
  {abstract : Other → Input → Other × Option Output}
  {guard : Other → Input → Prop} {Allowed : Input → Prop}
  {Related : State → Other → Prop}

theorem Simulates.emitRun_eq (simulates : Simulates step abstract guard Allowed Related)
    {state : State} {other : Other} (related : Related state other)
    {inputs : List Input} (allowed : ∀ input ∈ inputs, Allowed input)
    (guarded : Guarded abstract guard other inputs) :
    (emitRun step state inputs).2 = (emitRun abstract other inputs).2 := by
  induction inputs generalizing state other with
  | nil => rfl
  | cons input inputs induction =>
    have inputAllowed := allowed input List.mem_cons_self
    have rest := induction
      (simulates.related state other input inputAllowed related guarded.1)
      (fun item member => allowed item (List.mem_cons_of_mem _ member))
      guarded.2
    simp only [emitRun]
    rw [simulates.emits state other input inputAllowed related guarded.1, rest]

/-- If an unguarded step always shows, agreement on every prefix means that
all steps are guarded. -/
theorem Simulates.guarded_of_emitRun_eq (simulates : Simulates step abstract guard Allowed Related)
    (shows : ∀ state other input, Allowed input → Related state other →
      ¬ guard other input → (step state input).2 ≠ (abstract other input).2)
    {state : State} {other : Other} (related : Related state other)
    {inputs : List Input} (allowed : ∀ input ∈ inputs, Allowed input)
    (agree : ∀ taken, taken <+: inputs →
      (emitRun step state taken).2 = (emitRun abstract other taken).2) :
    Guarded abstract guard other inputs := by
  induction inputs generalizing state other with
  | nil => trivial
  | cons input inputs induction =>
    have inputAllowed := allowed input List.mem_cons_self
    have sameFirst : (step state input).2 = (abstract other input).2 := by
      have first := agree [input] ⟨inputs, rfl⟩
      simp only [emitRun, List.append_nil] at first
      calc (step state input).2 = (step state input).2.toList.head? :=
            Option.head?_toList.symm
        _ = (abstract other input).2 := by rw [first, Option.head?_toList]
    have guarded : guard other input := by
      by_contra unguarded
      exact shows state other input inputAllowed related unguarded sameFirst
    refine ⟨guarded, induction (simulates.related state other input inputAllowed related guarded)
      (fun item member => allowed item (List.mem_cons_of_mem _ member)) ?_⟩
    intro taken isPrefix
    have longer := agree (input :: taken)
      (List.cons_prefix_cons.mpr ⟨rfl, isPrefix⟩)
    simp only [emitRun, sameFirst] at longer
    exact List.append_cancel_left longer

end Emission

end CudaMpqs.Transition
