import Mathlib.Data.BitVec
import CudaMpqs.Largeprimes.SlabFalseMatch
import CudaMpqs.Largeprimes.SlabLock

/-! # Where the partials of a dispatch go

`processAndCommit`: directory fetch, probe, `global_combine_kernel` and
`global_append_kernel` run one after the other on one stream. A partial of the
batch is combined, appended, dropped as a duplicate or counted as an overflow,
whatever the order of the threads, if and only if no thread may take a stored
word of its tag for a witness of its large prime that is none. -/

namespace CudaMpqs.SlabTable

open Combine Transition Function ThreadTotals

namespace Dispatch

variable {launch : Dispatch}

/-! ## The combine kernel -/

inductive CombineThread where
  | waiting
  /-- The partial has no match. -/
  | idle
  /-- The target lies outside the witness store. -/
  | outside
  | ruled (outcome : Outcome)
deriving DecidableEq

variable (launch) in
structure CombineState where
  outputs : List Relation
  counter : DualCounter
  overflow : Nat
  threads : launch.Thread → CombineThread

variable (launch) in
def combineStart : CombineState launch where
  outputs := launch.device.outputs
  counter := launch.device.outputCounter
  overflow := launch.device.outputOverflow
  threads _ := .waiting

def combineOutcome (counter : DualCounter) (thread : launch.Thread)
    (witness : Relation) : Outcome :=
  globalCombine launch.config.modulus launch.config.maxCombinedOutput
    launch.config.maxOutputFactors counter (input thread) witness

def combineStep (probe : ProbeState launch) (state : CombineState launch)
    (thread : launch.Thread) : CombineState launch :=
  match state.threads thread with
  | .waiting =>
    match probe.threads thread with
    | .matched _ target =>
      match launch.device.witnesses[target]? with
      | none => { state with threads := update state.threads thread .outside }
      | some witness =>
        let outcome := combineOutcome state.counter thread witness
        let ruled := update state.threads thread (.ruled outcome)
        match outcome with
        | .emitted row counter => { state with
            outputs := state.outputs ++ [row]
            counter := counter
            threads := ruled }
        | .overflow => { state with
            overflow := state.overflow + 1
            threads := ruled }
        | .tagCollision => { state with threads := ruled }
        | .duplicate => { state with threads := ruled }
    | _ => { state with threads := update state.threads thread .idle }
  | _ => state

def CombineThread.Done : CombineThread → Bool
  | .waiting => false
  | _ => true

def CombineState.Finished (state : CombineState launch) : Prop :=
  ∀ thread, (state.threads thread).Done

instance (state : CombineState launch) : Decidable state.Finished :=
  inferInstanceAs (Decidable (∀ thread, _))

def CombineThread.overflows : CombineThread → Bool
  | .ruled .overflow => true
  | _ => false

def CombineThread.Justified (probe : ProbeState launch) (state : CombineState launch)
    (thread : launch.Thread) : CombineThread → Prop
  | .waiting => True
  | .idle => ∀ slot target, probe.threads thread ≠ .matched slot target
  | .outside => ∃ slot target, probe.threads thread = .matched slot target ∧
      launch.device.witnesses[target]? = none
  | .ruled outcome => ∃ slot target witness counter, probe.threads thread = .matched slot target ∧
      launch.device.witnesses[target]? = some witness ∧
      combineOutcome counter thread witness = outcome ∧
      ∀ row reserved, outcome = .emitted row reserved → row ∈ state.outputs

structure CombineInvariant (probe : ProbeState launch) (state : CombineState launch) :
    Prop where
  threads : ∀ thread, (state.threads thread).Justified probe state thread
  overflow : state.overflow = launch.device.outputOverflow +
    total (fun phase => phase.overflows.toNat) state.threads

theorem CombineThread.Justified.mono {probe : ProbeState launch}
    {state next : CombineState launch} {thread : launch.Thread} {phase : CombineThread}
    (justified : phase.Justified probe state thread)
    (grows : ∀ row ∈ state.outputs, row ∈ next.outputs) :
    phase.Justified probe next thread := by
  cases phase with
  | ruled outcome =>
    rcases justified with ⟨slot, target, witness, counter, matched, found, rules, emits⟩
    exact ⟨slot, target, witness, counter, matched, found, rules,
      fun row reserved emitted => grows row (emits row reserved emitted)⟩
  | _ => exact justified

theorem CombineInvariant.advance {probe : ProbeState launch}
    {state next : CombineState launch} {thread : launch.Thread} {phase : CombineThread}
    (invariant : CombineInvariant probe state)
    (threads : next.threads = update state.threads thread phase)
    (waits : state.threads thread = .waiting)
    (own : phase.Justified probe next thread)
    (grows : ∀ row ∈ state.outputs, row ∈ next.outputs)
    (overflow : next.overflow = state.overflow + phase.overflows.toNat) :
    CombineInvariant probe next where
  threads other := by
    rw [threads]
    by_cases same : other = thread
    · rw [same, update_self]
      exact own
    · rw [update_of_ne same]
      exact (invariant.threads other).mono grows
  overflow := by
    have before := invariant.overflow
    have change := total_update (fun phase : CombineThread => phase.overflows.toNat)
      state.threads thread phase
    have none : CombineThread.waiting.overflows = false := rfl
    rw [waits, none, Bool.toNat_false] at change
    rw [threads, overflow, before]
    omega

theorem CombineInvariant.step {probe : ProbeState launch} {state : CombineState launch}
    (invariant : CombineInvariant probe state) (thread : launch.Thread) :
    CombineInvariant probe (combineStep probe state thread) := by
  unfold combineStep
  cases waits : state.threads thread with
  | waiting =>
    dsimp only
    split
    · rename_i slot target matched
      split
      · rename_i outside
        exact invariant.advance rfl waits ⟨slot, target, matched, outside⟩
          (fun _ member => member) rfl
      · rename_i witness found
        split
        · rename_i row counter emits
          refine invariant.advance rfl waits
            ⟨slot, target, witness, state.counter, matched, found, rfl, ?_⟩ ?_ ?_
          · intro row' reserved emitted
            rw [emits] at emitted
            injection emitted with same
            rw [← same]
            exact List.mem_append_right _ (List.mem_singleton_self row)
          · exact fun _ member => List.mem_append_left _ member
          · rw [emits]
            rfl
        · rename_i overflows
          refine invariant.advance rfl waits
            ⟨slot, target, witness, state.counter, matched, found, rfl, ?_⟩
            (fun _ member => member) ?_
          · intro row' reserved emitted
            rw [overflows] at emitted
            cases emitted
          · rw [overflows]
            rfl
        · rename_i collides
          refine invariant.advance rfl waits
            ⟨slot, target, witness, state.counter, matched, found, rfl, ?_⟩
            (fun _ member => member) ?_
          · intro row' reserved emitted
            rw [collides] at emitted
            cases emitted
          · rw [collides]
            rfl
        · rename_i duplicates
          refine invariant.advance rfl waits
            ⟨slot, target, witness, state.counter, matched, found, rfl, ?_⟩
            (fun _ member => member) ?_
          · intro row' reserved emitted
            rw [duplicates] at emitted
            cases emitted
          · rw [duplicates]
            rfl
    · rename_i unmatched
      exact invariant.advance rfl waits unmatched (fun _ member => member) rfl
  | _ => exact invariant

theorem CombineInvariant.run (probe : ProbeState launch) (schedule : List launch.Thread) :
    CombineInvariant probe (run (combineStep probe) (combineStart launch) schedule) := by
  refine run_invariant (fun _ thread invariant => invariant.step thread) ?_ schedule
  constructor
  · exact fun _ => trivial
  · have none : total (fun phase : CombineThread => phase.overflows.toNat)
        (combineStart launch).threads = 0 := Finset.sum_eq_zero fun _ _ => rfl
    rw [none]
    rfl

theorem exists_combine_finish (probe : ProbeState launch) :
    ∃ schedule, (run (combineStep probe) (combineStart launch) schedule).Finished := by
  have moves : ∀ (state : CombineState launch) (thread : launch.Thread),
      state.threads thread = .waiting → ∃ phase : CombineThread, phase.Done ∧
        (combineStep probe state thread).threads = update state.threads thread phase := by
    intro state thread waits
    unfold combineStep
    rw [waits]
    dsimp only
    split
    · split
      · exact ⟨.outside, rfl, rfl⟩
      · split <;> exact ⟨_, rfl, rfl⟩
    · exact ⟨.idle, rfl, rfl⟩
  have progress : ∀ state : CombineState launch, True → ¬ state.Finished → ∃ thread,
      total (fun phase => (!phase.Done).toNat) (combineStep probe state thread).threads <
        total (fun phase : CombineThread => (!phase.Done).toNat) state.threads ∧ True := by
    intro state _ unfinished
    rcases not_forall.mp unfinished with ⟨thread, running⟩
    have waits : state.threads thread = .waiting := by
      cases phase : state.threads thread with
      | waiting => rfl
      | _ =>
        rw [phase] at running
        exact absurd rfl running
    rcases moves state thread waits with ⟨phase, done, threads⟩
    refine ⟨thread, ?_, trivial⟩
    rw [threads]
    apply total_update_lt
    rw [waits, done]
    exact Nat.one_pos
  rcases exists_run_reaches
    (fun state : CombineState launch =>
      total (fun phase : CombineThread => (!phase.Done).toNat) state.threads)
    progress (combineStart launch) trivial with ⟨schedule, finished, -⟩
  exact ⟨schedule, finished⟩

/-! ## A dispatch -/

structure Schedules (launch : Dispatch) where
  probe : List (launch.Thread × Bool)
  combine : List launch.Thread
  append : List launch.Thread

variable (schedules : Schedules launch)

def probed : ProbeState launch := run probeStep (probeStart launch) schedules.probe

def combined : CombineState launch :=
  run (combineStep (probed schedules)) (combineStart launch) schedules.combine

def appended : AppendState launch :=
  run (appendStep (probed schedules).status) (appendStart (probed schedules).slabs)
    schedules.append

def Finished : Prop :=
  (probed schedules).Finished ∧ (combined schedules).Finished ∧ (appended schedules).Finished

instance : Decidable (Finished schedules) := inferInstanceAs (Decidable (_ ∧ _ ∧ _))

def after : DeviceState where
  directory := (appended schedules).directory
  payloadSlabs := (appended schedules).slabs
  globalRowAllocator := (appended schedules).allocator
  witnesses := (appended schedules).witnesses
  witnessCounter := (appended schedules).counter
  outputs := (combined schedules).outputs
  outputCounter := (combined schedules).counter
  slabOverflow := (appended schedules).slabOverflow
  witnessOverflow := (appended schedules).witnessOverflow
  outputOverflow := (combined schedules).overflow

end Dispatch

inductive Reachable (config : LargePrimeConfig) : DeviceState → Prop
  | initiate : Reachable config initiate
  | dispatch {launch : Dispatch} {schedules : launch.Schedules} :
      launch.config = config → Reachable config launch.device →
      Dispatch.Finished schedules → Reachable config (Dispatch.after schedules)
  | resetOutput {device : DeviceState} :
      Reachable config device → Reachable config device.resetOutput

namespace Dispatch

variable {launch : Dispatch} {schedules : Schedules launch}

theorem tableInvariant_after (table : TableInvariant launch.device)
    (finished : Finished schedules) : TableInvariant (after schedules) := by
  have invariant := AppendInvariant.run table (probed schedules).status
    (probed schedules).slabs schedules.append
  have byDirectory : ∀ entry, 0 < dirCount ((after schedules).directory entry) →
      Owns (appended schedules) entry (dirRow ((after schedules).directory entry)) :=
    fun _ used => Or.inl ⟨used, rfl⟩
  constructor
  · intro entry
    by_contra isLocked
    rcases invariant.locks.holder entry (Nat.le_of_not_lt isLocked) with
      ⟨thread, -, holding⟩
    have exited := finished.2.2 thread
    change ((appended schedules).threads thread).Holding = true at holding
    cases phase : (appended schedules).threads thread with
    | exited fate =>
      rw [phase] at holding
      cases holding
    | _ =>
      rw [phase] at exited
      cases exited
  · exact invariant.count_le
  · exact fun entry used => invariant.rows.row_lt (byDirectory entry used)
  · intro entry entry' used used' same
    apply invariant.rows.bucket_unique (byDirectory entry used)
    rw [same]
    exact byDirectory entry' used'
  · exact Nat.le_of_add_right_le invariant.tally.allocated
  · exact invariant.tally.store
  · exact invariant.tally.narrow

end Dispatch

theorem Reachable.tableInvariant {config : LargePrimeConfig} {device : DeviceState}
    (reachable : Reachable config device) : TableInvariant device := by
  induction reachable with
  | initiate => exact TableInvariant.initiate
  | dispatch _ _ finished table => exact Dispatch.tableInvariant_after table finished
  | resetOutput _ table =>
    exact ⟨table.unlocked, table.count_le, table.row_lt, table.row_injective,
      table.allocator_le, table.store, table.narrow⟩

namespace Dispatch

variable {launch : Dispatch} (schedules : Schedules launch)

/-! ## The fate of a partial -/

inductive Fate where
  | combined (target : Nat)
  | duplicate (target : Nat)
  | appended (index row slot : Nat)
  | outputOverflow
  | witnessOverflow
  | slabOverflow
  | discarded
deriving DecidableEq

def combineFate (target : Nat) : CombineThread → Fate
  | .ruled (.emitted _ _) => .combined target
  | .ruled .duplicate => .duplicate target
  | .ruled .overflow => .outputOverflow
  | _ => .discarded

def appendFate : AppendFate → Fate
  | .appended index row slot => .appended index row slot
  | .witnessOverflow => .witnessOverflow
  | .slabOverflow => .slabOverflow
  | .skipped => .discarded

def fate (thread : launch.Thread) : Fate :=
  match (probed schedules).threads thread with
  | .matched _ target => combineFate target ((combined schedules).threads thread)
  | _ => appendFate ((appended schedules).fate thread)

/-- The fate leaves the partial combined with a stored witness of its large prime, in
the store and its bucket's row, dropped as a relation that is stored already, or
among the overflows. -/
def Accounted (thread : launch.Thread) : Fate → Prop
  | .combined target => ∃ witness ∈ launch.device.witnesses[target]?,
      witness.largePrime = (input thread).largePrime ∧
        combineRow launch.config.modulus (input thread) witness ∈ (after schedules).outputs
  | .duplicate target => ∃ witness ∈ launch.device.witnesses[target]?,
      witness.largePrime = (input thread).largePrime ∧ witness.sqrtQ = (input thread).sqrtQ
  | .appended index row slot => (after schedules).witnesses[index]? = some (input thread) ∧
      slot < dirCount ((after schedules).directory (hash thread)) ∧
      dirRow ((after schedules).directory (hash thread)) = row ∧
      (after schedules).payloadSlabs row slot = payload (tag thread) index
  | .discarded => False
  | _ => True

def threadsWith (isFate : Fate) : Finset launch.Thread :=
  Finset.univ.filter fun thread => fate schedules thread = isFate

/-- Every partial is accounted for, and every overflow is counted. -/
structure Accounts : Prop where
  thread : ∀ thread, Accounted schedules thread (fate schedules thread)
  outputOverflow : (after schedules).outputOverflow =
    launch.device.outputOverflow + (threadsWith schedules .outputOverflow).card
  witnessOverflow : (after schedules).witnessOverflow =
    launch.device.witnessOverflow + (threadsWith schedules .witnessOverflow).card
  slabOverflow : (after schedules).slabOverflow =
    launch.device.slabOverflow + (threadsWith schedules .slabOverflow).card

section Fates

variable {schedules}

theorem probe_settled (finished : Finished schedules) (thread : launch.Thread) :
    (∃ slot target, (probed schedules).threads thread = .matched slot target) ∨
      ∃ status, (probed schedules).threads thread = .passed status := by
  have settled := finished.1 thread
  cases phase : (probed schedules).threads thread with
  | matched slot target => exact Or.inl ⟨slot, target, rfl⟩
  | passed status => exact Or.inr ⟨status, rfl⟩
  | _ =>
    rw [phase] at settled
    cases settled

theorem append_exited (finished : Finished schedules) (thread : launch.Thread) :
    (appended schedules).threads thread = .exited ((appended schedules).fate thread) := by
  have exited := finished.2.2 thread
  unfold AppendState.fate
  cases phase : (appended schedules).threads thread with
  | exited fate => rfl
  | _ =>
    rw [phase] at exited
    cases exited

theorem append_kept (table : TableInvariant launch.device) (finished : Finished schedules)
    (thread : launch.Thread) :
    Kept (probed schedules).status (appended schedules) thread
      ((appended schedules).fate thread) := by
  have justified := (AppendInvariant.run table (probed schedules).status
    (probed schedules).slabs schedules.append).threads thread
  change ((appended schedules).threads thread).Justified _ (appended schedules) thread
    at justified
  rw [append_exited finished thread] at justified
  exact justified

theorem append_skipped_iff (table : TableInvariant launch.device)
    (finished : Finished schedules) (thread : launch.Thread) :
    (appended schedules).fate thread = .skipped ↔
      ∃ slot target, (probed schedules).threads thread = .matched slot target := by
  have kept := append_kept table finished thread
  rcases probe_settled finished thread with ⟨slot, target, matched⟩ | ⟨status, passed⟩
  · have idle : ¬ Appends (probed schedules).status thread := by
      unfold Appends ProbeState.status
      rw [matched]
      rintro (impossible | impossible) <;> cases impossible
    constructor
    · exact fun _ => ⟨slot, target, matched⟩
    · intro _
      cases isFate : (appended schedules).fate thread with
      | skipped => rfl
      | appended index row slot' =>
        rw [isFate] at kept
        exact absurd kept.1 idle
      | _ =>
        rw [isFate] at kept
        exact absurd kept idle
  · have justified := (ProbeInvariant.run schedules.probe).threads thread
    change ((probed schedules).threads thread).Justified (probed schedules) thread
      at justified
    rw [passed] at justified
    have appends : Appends (probed schedules).status thread := by
      unfold Appends ProbeState.status
      rw [passed]
      exact justified.symm.imp And.left id
    constructor
    · intro skipped
      rw [skipped] at kept
      exact absurd appends kept
    · rintro ⟨slot, target, matched⟩
      rw [passed] at matched
      cases matched

variable {thread : launch.Thread}

theorem combine_done (finished : Finished schedules) {slot target : Nat}
    (matched : (probed schedules).threads thread = .matched slot target) :
    (launch.device.witnesses[target]? = none ∧ (combined schedules).threads thread = .outside) ∨
      ∃ witness counter outcome, launch.device.witnesses[target]? = some witness ∧
        combineOutcome counter thread witness = outcome ∧
        (combined schedules).threads thread = .ruled outcome ∧
        ∀ row reserved, outcome = .emitted row reserved → row ∈ (combined schedules).outputs := by
  have justified := (CombineInvariant.run (probed schedules) schedules.combine).threads thread
  change ((combined schedules).threads thread).Justified (probed schedules)
    (combined schedules) thread at justified
  have done := finished.2.1 thread
  cases phase : (combined schedules).threads thread with
  | waiting =>
    rw [phase] at done
    cases done
  | idle =>
    rw [phase] at justified
    exact absurd matched (justified slot target)
  | outside =>
    rw [phase] at justified
    rcases justified with ⟨slot', target', matched', outside⟩
    rw [matched] at matched'
    cases matched'
    exact Or.inl ⟨outside, rfl⟩
  | ruled outcome =>
    rw [phase] at justified
    rcases justified with ⟨slot', target', witness, counter, matched', found, rules, emits⟩
    rw [matched] at matched'
    cases matched'
    exact Or.inr ⟨witness, counter, outcome, found, rules, rfl, emits⟩

theorem combineOutcome_tagCollision_iff (counter : DualCounter) (thread : launch.Thread)
    (witness : Relation) : combineOutcome counter thread witness = .tagCollision ↔
      witness.largePrime.setWidth 64 ≠ (input thread).largePrime.setWidth 64 := by
  unfold combineOutcome globalCombine
  constructor
  · intro collides same
    rw [if_neg (not_not.mpr same.symm)] at collides
    split at collides
    · cases collides
    · dsimp only at collides
      split at collides <;> cases collides
  · intro different
    rw [if_pos different.symm]

theorem combineOutcome_duplicate {counter : DualCounter} {witness : Relation}
    (duplicate : combineOutcome counter thread witness = .duplicate) :
    witness.sqrtQ = (input thread).sqrtQ := by
  unfold combineOutcome globalCombine at duplicate
  split at duplicate
  · cases duplicate
  · split at duplicate
    · rename_i same
      exact same.symm
    · dsimp only at duplicate
      split at duplicate <;> cases duplicate

theorem largePrime_eq_of_setWidth (table : TableInvariant launch.device) {witness : Relation}
    (stored : witness ∈ launch.device.witnesses)
    (same : witness.largePrime.setWidth 64 = (input thread).largePrime.setWidth 64) :
    witness.largePrime = (input thread).largePrime := by
  apply BitVec.eq_of_toNat_eq
  have words := congrArg BitVec.toNat same
  have batchFits := launch.batch.largePrime_lt (input thread) (List.get_mem _ _)
  rwa [BitVec.toNat_setWidth, BitVec.toNat_setWidth,
    Nat.mod_eq_of_lt (table.narrow witness stored), Nat.mod_eq_of_lt batchFits] at words

/-! ## The law -/

theorem fate_of_matched {slot target : Nat}
    (matched : (probed schedules).threads thread = .matched slot target) :
    fate schedules thread = combineFate target ((combined schedules).threads thread) := by
  rw [fate, matched]

theorem fate_of_passed {status : SlpStatus}
    (passed : (probed schedules).threads thread = .passed status) :
    fate schedules thread = appendFate ((appended schedules).fate thread) := by
  rw [fate, passed]

/-- A matched partial is accounted for if its target is a witness of its large
prime. -/
theorem accounted_of_matched (table : TableInvariant launch.device) (finished : Finished schedules)
    {slot target : Nat} (matched : (probed schedules).threads thread = .matched slot target) :
    Accounted schedules thread (fate schedules thread) ↔ TrueTarget thread target := by
  rw [fate_of_matched matched]
  rcases combine_done finished matched with
    ⟨outside, phase⟩ | ⟨witness, counter, outcome, found, rules, phase, emits⟩
  · rw [phase, TrueTarget, outside]
    constructor
    · exact False.elim
    · rintro ⟨witness, member, -⟩
      cases member
  · rw [phase]
    have stored := List.mem_of_getElem? found
    have truly : TrueTarget thread target ↔
        witness.largePrime.setWidth 64 = (input thread).largePrime.setWidth 64 := by
      rw [TrueTarget, found]
      constructor
      · rintro ⟨witness', member, same⟩
        cases member
        exact same
      · exact fun same => ⟨witness, rfl, same⟩
    have collides := combineOutcome_tagCollision_iff counter thread witness
    rw [rules] at collides
    rw [truly]
    have agrees : outcome ≠ .tagCollision →
        witness.largePrime.setWidth 64 = (input thread).largePrime.setWidth 64 :=
      fun other => by_contra fun different => other (collides.mpr different)
    cases outcome with
    | tagCollision =>
      constructor
      · exact False.elim
      · exact fun same => absurd same (collides.mp rfl)
    | duplicate =>
      constructor
      · exact fun _ => agrees nofun
      · exact fun same => ⟨witness, found, largePrime_eq_of_setWidth table stored same,
          combineOutcome_duplicate rules⟩
    | overflow =>
      constructor
      · exact fun _ => agrees nofun
      · exact fun _ => trivial
    | emitted row reserved =>
      constructor
      · exact fun _ => agrees nofun
      · intro same
        refine ⟨witness, found, largePrime_eq_of_setWidth table stored same, ?_⟩
        rw [← emitted_row rules]
        exact emits row reserved rfl

theorem accounted_of_passed (table : TableInvariant launch.device) (finished : Finished schedules)
    {status : SlpStatus} (passed : (probed schedules).threads thread = .passed status) :
    Accounted schedules thread (fate schedules thread) := by
  rw [fate_of_passed passed]
  have kept := append_kept table finished thread
  cases isFate : (appended schedules).fate thread with
  | skipped =>
    rcases (append_skipped_iff table finished thread).mp isFate with
      ⟨slot, target, matched⟩
    rw [passed] at matched
    cases matched
  | appended index row slot =>
    rw [isFate] at kept
    rcases kept with ⟨-, stored, inside, isRow, word⟩
    rw [bucket_eq] at inside isRow
    exact ⟨stored, inside, isRow, word⟩
  | witnessOverflow => trivial
  | slabOverflow => trivial

/-! ## Counting the overflows -/

theorem fate_eq_outputOverflow_iff (finished : Finished schedules) (thread : launch.Thread) :
    fate schedules thread = .outputOverflow ↔
      ((combined schedules).threads thread).overflows = true := by
  rcases probe_settled finished thread with ⟨slot, target, matched⟩ | ⟨status, passed⟩
  · rw [fate_of_matched matched]
    cases phase : (combined schedules).threads thread with
    | ruled outcome =>
      cases outcome with
      | overflow => exact ⟨fun _ => rfl, fun _ => rfl⟩
      | _ => exact ⟨nofun, nofun⟩
    | _ => exact ⟨nofun, nofun⟩
  · have justified := (CombineInvariant.run (probed schedules) schedules.combine).threads
      thread
    change ((combined schedules).threads thread).Justified (probed schedules)
      (combined schedules) thread at justified
    rw [fate_of_passed passed]
    cases phase : (combined schedules).threads thread with
    | ruled outcome =>
      rw [phase] at justified
      rcases justified with ⟨slot, target, witness, counter, matched, -⟩
      rw [passed] at matched
      cases matched
    | _ =>
      cases (appended schedules).fate thread <;> exact ⟨nofun, nofun⟩

theorem appendFate_injective : Injective appendFate := by
  intro left right same
  cases left <;> cases right <;> cases same <;> rfl

private theorem combineFate_ne_appendFate {isFate : AppendFate} (real : isFate ≠ .skipped)
    (target : Nat) (phase : CombineThread) :
    combineFate target phase ≠ appendFate isFate := by
  intro same
  apply real
  cases phase with
  | ruled outcome => cases outcome <;> cases isFate <;> cases same <;> rfl
  | _ => cases isFate <;> cases same <;> rfl

theorem fate_eq_appendFate_iff (table : TableInvariant launch.device)
    (finished : Finished schedules) (thread : launch.Thread) {isFate : AppendFate}
    (real : isFate ≠ .skipped) :
    fate schedules thread = appendFate isFate ↔ (appended schedules).fate thread = isFate := by
  rcases probe_settled finished thread with ⟨slot, target, matched⟩ | ⟨status, passed⟩
  · have skipped := (append_skipped_iff table finished thread).mpr ⟨slot, target, matched⟩
    rw [skipped, fate_of_matched matched]
    constructor
    · exact fun same => absurd same (combineFate_ne_appendFate real _ _)
    · exact fun same => absurd same.symm real
  · rw [fate_of_passed passed]
    exact appendFate_injective.eq_iff

theorem total_eq_card_threadsWith {Phase : Type} {threads : launch.Thread → Phase}
    {selects : Phase → Bool} {isFate : Fate}
    (selected : ∀ thread, fate schedules thread = isFate ↔ selects (threads thread) = true) :
    total (fun phase => (selects phase).toNat) threads = (threadsWith schedules isFate).card := by
  rw [total_eq_card, threadsWith]
  congr 1
  apply Finset.filter_congr
  intro thread _
  rw [selected]

section

variable (table : TableInvariant launch.device) (finished : Finished schedules)

include table finished

theorem fate_eq_witnessOverflow_iff (thread : launch.Thread) :
    fate schedules thread = .witnessOverflow ↔
      ((appended schedules).threads thread).witnessOverflows = true := by
  have real : AppendFate.witnessOverflow ≠ .skipped := nofun
  rw [append_exited finished thread]
  refine (fate_eq_appendFate_iff table finished thread real).trans ?_
  cases (appended schedules).fate thread with
  | witnessOverflow => exact ⟨fun _ => rfl, fun _ => rfl⟩
  | _ => exact ⟨nofun, nofun⟩

private theorem fate_eq_slabOverflow_iff (thread : launch.Thread) :
    fate schedules thread = .slabOverflow ↔
      ((appended schedules).threads thread).slabOverflows = true := by
  have real : AppendFate.slabOverflow ≠ .skipped := nofun
  rw [append_exited finished thread]
  refine (fate_eq_appendFate_iff table finished thread real).trans ?_
  cases (appended schedules).fate thread with
  | slabOverflow => exact ⟨fun _ => rfl, fun _ => rfl⟩
  | _ => exact ⟨nofun, nofun⟩

private theorem accounts_iff_thread : Accounts schedules ↔
      ∀ thread, Accounted schedules thread (fate schedules thread) := by
  have tally := (AppendInvariant.run table (probed schedules).status
    (probed schedules).slabs schedules.append).tally
  refine ⟨Accounts.thread, fun accounted => ⟨accounted, ?_, ?_, ?_⟩⟩
  · rw [← total_eq_card_threadsWith (fate_eq_outputOverflow_iff finished)]
    exact (CombineInvariant.run (probed schedules) schedules.combine).overflow
  · rw [← total_eq_card_threadsWith (fate_eq_witnessOverflow_iff table finished)]
    exact tally.witnessOverflow
  · rw [← total_eq_card_threadsWith (fate_eq_slabOverflow_iff table finished)]
    exact tally.slabOverflow

theorem accounts_of_matchesTruly (truly : ∀ thread : launch.Thread, MatchesTruly thread) :
    Accounts schedules := by
  rw [accounts_iff_thread table finished]
  intro thread
  rcases probe_settled finished thread with ⟨slot, target, matched⟩ | ⟨status, passed⟩
  · rw [accounted_of_matched table finished matched]
    exact (ProbeInvariant.run schedules.probe).trueTarget matched (truly thread)
  · exact accounted_of_passed table finished passed

end

theorem not_accounts_of_discarded (discarded : fate schedules thread = .discarded) :
    ¬ Accounts schedules := by
  intro accounts
  have accounted := accounts.thread thread
  rw [discarded] at accounted
  exact accounted

end Fates

theorem exists_finished (table : TableInvariant launch.device) {probe : List (launch.Thread × Bool)}
    (finished : (run probeStep (probeStart launch) probe).Finished) :
    ∃ combine append, Finished (⟨probe, combine, append⟩ : Schedules launch) := by
  rcases exists_combine_finish (run probeStep (probeStart launch) probe) with
    ⟨combine, combineFinished⟩
  rcases (AppendInvariant.start table (run probeStep (probeStart launch) probe).status
    (run probeStep (probeStart launch) probe).slabs).exists_finish with
    ⟨append, appendFinished⟩
  exact ⟨combine, append, finished, combineFinished, appendFinished⟩

/-- The kernels can finish, and they account for every partial of the batch in every
order of the threads if and only if every partial matches truly. -/
theorem accounts_iff_matchesTruly (launch : Dispatch)
    (reachable : Reachable launch.config launch.device) :
    (∃ schedules : Schedules launch, Finished schedules) ∧
      ((∀ schedules : Schedules launch, Finished schedules → Accounts schedules) ↔
        ∀ thread : launch.Thread, MatchesTruly thread) := by
  have table := reachable.tableInvariant
  constructor
  · rcases exists_probe_finish (probeStart launch) with ⟨probe, probeFinished⟩
    rcases exists_finished table probeFinished with ⟨combine, append, finished⟩
    exact ⟨_, finished⟩
  constructor
  · intro accounts thread probing slot inRow word _ first
    rcases first.happens probing inRow with ⟨probe, found, probeFinished, matched⟩
    rcases exists_finished table probeFinished with ⟨combine, append, finished⟩
    exact (accounted_of_matched table finished matched).mp
      ((accounts _ finished).thread thread)
  · exact fun truly schedules finished => accounts_of_matchesTruly table finished truly

/-! ## A purged slot

Two partials with the large prime 14680063 meet, and the slot of the first is
cleared. The zero it leaves carries the tag of 524287, of the same bucket. -/

def purgingConfig : LargePrimeConfig where
  logWitnessCapacity := 18
  maxCombinedOutput := 2 ^ 15
  hashBits := 18
  purgeAfterMatch := true
  modulus := UInt512.ofUInt32 1000003
  hashBits_le := by decide

def partialOf (root : BitVec 32) (largePrime : BitVec 128) : Relation where
  sqrtQ := UInt512.ofUInt32 root
  sign := 1
  val2Exp := 0
  largePrime := largePrime
  charBits := 0
  factors := [(3, 1)]

def singlePartial (device : DeviceState) (root : BitVec 32) (largePrime : BitVec 128)
    (fits : largePrime.toNat < 2 ^ 64) : Dispatch where
  config := purgingConfig
  device := device
  batch := {
    rows := [partialOf root largePrime]
    largePrime_lt := by
      intro row member
      rw [List.mem_singleton.mp member]
      exact fits }

def inTurn (device : DeviceState) (root : BitVec 32) (largePrime : BitVec 128)
    (fits : largePrime.toNat < 2 ^ 64) :
    Schedules (singlePartial device root largePrime fits) where
  probe := List.replicate 17 (⟨0, Nat.one_pos⟩, false)
  combine := [⟨0, Nat.one_pos⟩]
  append := List.replicate 5 ⟨0, Nat.one_pos⟩

def firstWitness : DeviceState :=
  after (inTurn initiate 1001 14680063 (by decide))

def purgedWitness : DeviceState :=
  after (inTurn firstWitness 2002 14680063 (by decide))

theorem reachable_firstWitness : Reachable purgingConfig firstWitness :=
  Reachable.dispatch rfl Reachable.initiate (by decide +kernel)

theorem reachable_purgedWitness : Reachable purgingConfig purgedWitness :=
  Reachable.dispatch rfl reachable_firstWitness (by decide +kernel)

/-- The second partial with 14680063 meets its witness. -/
theorem accounts_iff_matchesTruly_firstWitness :
    (∀ thread : (singlePartial firstWitness 2002 14680063 (by decide)).Thread,
        MatchesTruly thread) ∧
      ∀ schedules : Schedules (singlePartial firstWitness 2002 14680063 (by decide)),
        Finished schedules → Accounts schedules := by
  have truly : ∀ thread : (singlePartial firstWitness 2002 14680063 (by decide)).Thread,
      MatchesTruly thread := by decide +kernel
  exact ⟨truly, (accounts_iff_matchesTruly _ reachable_firstWitness).2.mpr truly⟩

/-- A partial with a fresh large prime is discarded. -/
theorem discards_freshPartial : Reachable purgingConfig purgedWitness ∧
      (∀ witness ∈ purgedWitness.witnesses, witness.largePrime ≠ 524287) ∧
      Finished (inTurn purgedWitness 3003 524287 (by decide)) ∧
      fate (inTurn purgedWitness 3003 524287 (by decide)) ⟨0, Nat.one_pos⟩ = .discarded ∧
      ¬ Accounts (inTurn purgedWitness 3003 524287 (by decide)) := by
  have discarded : fate (inTurn purgedWitness 3003 524287 (by decide)) ⟨0, Nat.one_pos⟩ =
      .discarded := by decide +kernel
  exact ⟨reachable_purgedWitness, by decide +kernel, by decide +kernel, discarded,
    not_accounts_of_discarded discarded⟩

end Dispatch

end CudaMpqs.SlabTable
