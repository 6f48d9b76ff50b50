import Mathlib.Algebra.Order.BigOperators.Group.Finset
import Mathlib.Data.Fintype.BigOperators
import CudaMpqs.Foundation.Peeling
import CudaMpqs.Foundation.ThreadTotals

/-! # Singleton passes on the GPU

`singleton_pass_kernel` and `singleton_pass_packed_kernel`: one thread per row reads
the weights of its columns, and with a weight of one among them it kills its row and
takes the row out of the weights. The host launches passes until one removes nothing. -/

namespace CudaMpqs.SingletonPass

open Function Peeling ThreadTotals Transition

variable {Row : Type}

/-! ## Threads -/

structure Memory (Row : Type) where
  rowAlive : Row → Bool
  colWeight : Nat → Nat
  removedCount : Nat

inductive Phase where
  | start
  | scanning (unread : List Nat)
  | doomed
  | subtracting (rest : List Nat)
  | exited (hasSingleton : Bool)
deriving DecidableEq

structure KernelState (Row : Type) where
  memory : Memory Row
  threads : Row → Phase

def kernelStart (memory : Memory Row) : KernelState Row where
  memory := { memory with removedCount := 0 }
  threads _ := .start

def Phase.Exited : Phase → Bool
  | .exited _ => true
  | _ => false

def KernelState.Finished (state : KernelState Row) : Prop :=
  ∀ r, (state.threads r).Exited = true

def standing (cols : Row → List Nat) (r : Row) (aliveAtStart : Bool) : Phase → List Nat
  | .subtracting rest => if aliveAtStart then rest else []
  | .exited true => []
  | _ => if aliveAtStart then cols r else []

def Phase.hasSingleton : Phase → Bool
  | .doomed => true
  | .subtracting _ => true
  | .exited hasSingleton => hasSingleton
  | _ => false

def Phase.removed : Phase → Bool
  | .subtracting _ => true
  | .exited hasSingleton => hasSingleton
  | _ => false

def Phase.counted : Phase → Bool
  | .exited hasSingleton => hasSingleton
  | _ => false

def Phase.Passed (cols : Row → List Nat) (r : Row) (c : Nat) : Phase → Prop
  | .scanning unread => c ∈ cols r ∧ c ∉ unread
  | .exited _ => c ∈ cols r
  | _ => False

def Phase.remaining : Phase → Nat ×ₗ Nat
  | .start => toLex (4, 0)
  | .scanning unread => toLex (3, unread.length)
  | .doomed => toLex (2, 0)
  | .subtracting rest => toLex (1, rest.length)
  | .exited _ => toLex (0, 0)

section Threads

variable [DecidableEq Row]

def act (cols : Row → List Nat) (r : Row) (memory : Memory Row) : Phase → Memory Row × Phase
  | .start =>
    if memory.rowAlive r then (memory, .scanning (cols r)) else (memory, .exited false)
  | .scanning (c :: unread) =>
    if memory.colWeight c = 1 then (memory, .doomed) else (memory, .scanning unread)
  | .scanning [] => (memory, .exited false)
  | .doomed =>
    ({ memory with rowAlive := update memory.rowAlive r false }, .subtracting (cols r))
  | .subtracting (c :: rest) =>
    ({ memory with colWeight := update memory.colWeight c (memory.colWeight c - 1) },
      .subtracting rest)
  | .subtracting [] =>
    ({ memory with removedCount := memory.removedCount + 1 }, .exited true)
  | .exited hasSingleton => (memory, .exited hasSingleton)

def kernelStep (cols : Row → List Nat) (state : KernelState Row) (r : Row) : KernelState Row where
  memory := (act cols r state.memory (state.threads r)).1
  threads := update state.threads r (act cols r state.memory (state.threads r)).2

def runKernel (cols : Row → List Nat) (memory : Memory Row) (schedule : List Row) :
    KernelState Row :=
  run (kernelStep cols) (kernelStart memory) schedule

inductive Acts (cols : Row → List Nat) (r : Row) (memory : Memory Row) :
    Phase → Memory Row → Phase → Prop where
  | enter (alive : memory.rowAlive r = true) :
      Acts cols r memory .start memory (.scanning (cols r))
  | skip (dead : memory.rowAlive r = false) : Acts cols r memory .start memory (.exited false)
  | read {c : Nat} {unread : List Nat} (notOne : memory.colWeight c ≠ 1) :
      Acts cols r memory (.scanning (c :: unread)) memory (.scanning unread)
  | find {c : Nat} {unread : List Nat} (isOne : memory.colWeight c = 1) :
      Acts cols r memory (.scanning (c :: unread)) memory .doomed
  | survive : Acts cols r memory (.scanning []) memory (.exited false)
  | kill : Acts cols r memory .doomed
      { memory with rowAlive := update memory.rowAlive r false } (.subtracting (cols r))
  | subtract {c : Nat} {rest : List Nat} : Acts cols r memory (.subtracting (c :: rest))
      { memory with colWeight := update memory.colWeight c (memory.colWeight c - 1) }
      (.subtracting rest)
  | count : Acts cols r memory (.subtracting [])
      { memory with removedCount := memory.removedCount + 1 } (.exited true)
  | idle {hasSingleton : Bool} :
      Acts cols r memory (.exited hasSingleton) memory (.exited hasSingleton)

theorem acts (cols : Row → List Nat) (r : Row) (memory : Memory Row) (phase : Phase) :
    Acts cols r memory phase (act cols r memory phase).1 (act cols r memory phase).2 := by
  cases phase with
  | start =>
    simp only [act]
    split
    next alive => exact .enter alive
    next dead => exact .skip (Bool.eq_false_of_not_eq_true dead)
  | scanning unread =>
    cases unread with
    | nil => exact .survive
    | cons c unread =>
      simp only [act]
      split
      next isOne => exact .find isOne
      next notOne => exact .read notOne
  | doomed => exact .kill
  | subtracting rest =>
    cases rest with
    | nil => exact .count
    | cons c rest => exact .subtract
  | exited hasSingleton => exact .idle

variable {cols : Row → List Nat} {r : Row} {memory memory' : Memory Row}
  {phase phase' : Phase}

section

variable (acts : Acts cols r memory phase memory' phase')

include acts

theorem Acts.rowAlive (other : Row) :
    memory'.rowAlive other = if other = r then memory.rowAlive r && (phase.removed ||
      !phase'.removed) else memory.rowAlive other := by
  by_cases isOwn : other = r
  · subst isOwn
    cases acts <;> simp [Phase.removed]
  · rw [if_neg isOwn]
    cases acts with
    | kill => exact update_of_ne isOwn _ _
    | _ => rfl

theorem Acts.removed (removed : phase.removed = true) : phase'.removed = true := by
  cases acts with
  | subtract => rfl
  | count => rfl
  | idle => exact removed
  | _ => cases removed

theorem Acts.hasSingleton (hasSingleton : phase.hasSingleton = true) :
    phase'.hasSingleton = true := by
  cases acts with
  | kill => rfl
  | subtract => rfl
  | count => rfl
  | idle => exact hasSingleton
  | _ => cases hasSingleton

theorem Acts.removedCount :
    memory'.removedCount + phase.counted.toNat = memory.removedCount + phase'.counted.toNat := by
  cases acts <;> simp [Phase.counted]

theorem Acts.remaining_lt (running : phase.Exited ≠ true) : phase'.remaining < phase.remaining := by
  cases acts with
  | read | subtract => exact remaining_lt_of_count (Nat.lt_succ_self _)
  | idle => exact absurd rfl running
  | _ => exact remaining_lt_of_stage (by decide)

end

theorem exited_step {state : KernelState Row} {other : Row} {hasSingleton : Bool} (r : Row)
    (exited : state.threads other = .exited hasSingleton) :
    (kernelStep cols state r).threads other = .exited hasSingleton := by
  change update state.threads r _ other = _
  by_cases isOwn : other = r
  · subst isOwn
    rw [update_self, exited]
    rfl
  · rwa [update_of_ne isOwn]

theorem remaining_step (state : KernelState Row) (r : Row)
    (running : ¬ (state.threads r).Exited = true) :
    ((kernelStep cols state r).threads r).remaining < (state.threads r).remaining := by
  change (update state.threads r _ r).remaining < _
  rw [update_self]
  exact (acts cols r state.memory (state.threads r)).remaining_lt running

/-- The thread cannot exit without killing its row. -/
def Dooms (cols : Row → List Nat) (r : Row) (memory : Memory Row) : Phase → Prop
  | .start => memory.rowAlive r = true ∧ ∃ c ∈ cols r, memory.colWeight c = 1
  | .scanning unread => ∃ c ∈ unread, memory.colWeight c = 1
  | phase => phase.hasSingleton = true

theorem Acts.dooms (acts : Acts cols r memory phase memory' phase')
    (dooms : Dooms cols r memory phase) : Dooms cols r memory' phase' := by
  cases acts with
  | enter => exact dooms.2
  | skip dead =>
    rw [dooms.1] at dead
    cases dead
  | read notOne =>
    rcases dooms with ⟨c, member, isOne⟩
    rcases List.mem_cons.mp member with rfl | member
    · exact absurd isOne notOne
    · exact ⟨c, member, isOne⟩
  | survive =>
    rcases dooms with ⟨c, member, -⟩
    cases member
  | idle => exact dooms
  | _ => rfl

theorem exists_kill {state : KernelState Row}
    (dooms : Dooms cols r state.memory (state.threads r)) :
    ∃ schedule, (run (kernelStep cols) state schedule).threads =
      update state.threads r (.exited true) := by
  let Alone (now : KernelState Row) : Prop :=
    Dooms cols r now.memory (now.threads r) ∧ ∀ other, other ≠ r →
      now.threads other = state.threads other
  have keeps : ∀ now, Alone now → Alone (kernelStep cols now r) := by
    rintro now ⟨dooms, others⟩
    refine ⟨?_, fun other different => ?_⟩
    · change Dooms cols r _ (update now.threads r _ r)
      rw [update_self]
      exact (acts cols r now.memory (now.threads r)).dooms dooms
    · change update now.threads r _ other = _
      rw [update_of_ne different]
      exact others other different
  have exits : ∀ now, Alone now → (now.threads r).Exited = true →
      now.threads = update state.threads r (.exited true) := by
    rintro now ⟨dooms, others⟩ exited
    funext other
    rw [update_apply]
    split
    next isOwn =>
        rw [isOwn]
        cases isPhase : now.threads r with
        | exited hasSingleton =>
          rw [isPhase] at dooms
          rw [show hasSingleton = true from dooms]
        | _ =>
          rw [isPhase] at exited
          cases exited
    next different => exact others other different
  rcases @exists_replicate_reaches _ _ (kernelStep cols) r Alone
    (fun now => now.threads = update state.threads r (.exited true)) _ _ _
    (fun now => (now.threads r).remaining) keeps
    (fun now alone open' => remaining_step now r fun exited => open' (exits now alone exited))
    state ⟨dooms, fun _ _ => rfl⟩ with ⟨repetitions, reached⟩
  exact ⟨_, reached⟩

end Threads

section Weights

variable [Fintype Row]

instance (state : KernelState Row) : Decidable state.Finished :=
  inferInstanceAs (Decidable (∀ _, _ = _))

/-- `compute_col_weights_kernel`: the weights of the alive rows, added in any order. -/
def computeColWeights (cols : Row → List Nat) (rowAlive : Row → Bool) (c : Nat) : Nat :=
  ∑ r, if rowAlive r then (cols r).count c else 0

def survivors (rowAlive : Row → Bool) : Finset Row := Finset.univ.filter (rowAlive · = true)

theorem mem_survivors {rowAlive : Row → Bool} {r : Row} :
    r ∈ survivors rowAlive ↔ rowAlive r = true := by
  simp [survivors]

structure Passing (cols : Row → List Nat) (start : Memory Row) (state : KernelState Row) :
    Prop where
  alive : ∀ r, state.memory.rowAlive r = (start.rowAlive r && !(state.threads r).removed)
  running : ∀ r, start.rowAlive r = false → state.threads r = .start ∨
    state.threads r = .exited false
  unread : ∀ r unread, state.threads r = .scanning unread → unread <:+ cols r
  weight : ∀ c, state.memory.colWeight c =
    ∑ r, (standing cols r (start.rowAlive r) (state.threads r)).count c
  removedCount : state.memory.removedCount = total (fun phase => phase.counted.toNat) state.threads
  core : ∀ core, core ⊆ survivors start.rowAlive →
    SingletonFree (fun r c => c ∈ cols r) core → ∀ r ∈ core, (state.threads r).hasSingleton = false
  quiet : (∀ r, (state.threads r).hasSingleton = false) → ∀ r c,
    start.rowAlive r = true → (state.threads r).Passed cols r c → start.colWeight c ≠ 1

variable {cols : Row → List Nat} {start : Memory Row} {state : KernelState Row}

theorem passing_start (weights : start.colWeight = computeColWeights cols start.rowAlive) :
    Passing cols start (kernelStart start) where
  alive r := by simp [kernelStart, Phase.removed]
  running r _ := Or.inl rfl
  unread r unread isPhase := nomatch isPhase
  weight c := by
    rw [show (kernelStart start).memory.colWeight = start.colWeight from rfl, weights,
      computeColWeights]
    refine Finset.sum_congr rfl fun r _ => ?_
    cases isAlive : start.rowAlive r <;> simp [kernelStart, standing]
  removedCount := by simp [kernelStart, total, Phase.counted]
  core core _ _ r _ := rfl
  quiet _ r c _ passed := passed.elim

theorem Passing.colWeight_of_quiet (passing : Passing cols start state)
    (weights : start.colWeight = computeColWeights cols start.rowAlive)
    (quiet : ∀ r, (state.threads r).hasSingleton = false) :
    state.memory.colWeight = start.colWeight := by
  funext c
  rw [passing.weight c, weights, computeColWeights]
  refine Finset.sum_congr rfl fun r _ => ?_
  have own := quiet r
  cases isPhase : state.threads r with
  | start | scanning => cases start.rowAlive r <;> simp [standing]
  | doomed | subtracting =>
    rw [isPhase] at own
    cases own
  | exited hasSingleton =>
    rw [isPhase] at own
    cases (show hasSingleton = false from own)
    cases start.rowAlive r <;> simp [standing]

theorem Passing.alive_of_running (passing : Passing cols start state) {r : Row}
    (notStart : state.threads r ≠ .start) (notExited : state.threads r ≠ .exited false) :
    start.rowAlive r = true := by
  by_contra dead
  rcases passing.running r (Bool.eq_false_of_not_eq_true dead) with isStart | isExited
  · exact notStart isStart
  · exact notExited isExited

theorem Passing.two_le_weight (passing : Passing cols start state) {core : Finset Row}
    (subset : core ⊆ survivors start.rowAlive)
    (free : SingletonFree (fun r c => c ∈ cols r) core) {r : Row} (member : r ∈ core) {c : Nat}
    (present : c ∈ cols r) : 2 ≤ state.memory.colWeight c := by
  rcases free.exists_other member present with ⟨other, inside, different, otherPresent⟩
  have counts : ∀ r ∈ core, c ∈ cols r →
      1 ≤ (standing cols r (start.rowAlive r) (state.threads r)).count c := by
    intro r member present
    have alive := mem_survivors.mp (subset member)
    have calm := passing.core core subset free r member
    rw [List.one_le_count_iff]
    cases isPhase : state.threads r with
    | start | scanning => simpa [standing, alive] using present
    | doomed | subtracting =>
      rw [isPhase] at calm
      cases calm
    | exited hasSingleton =>
      rw [isPhase] at calm
      cases (show hasSingleton = false from calm)
      simpa [standing, alive] using present
  classical
  rw [passing.weight c]
  calc 2 ≤ ∑ r ∈ {r, other},
        (standing cols r (start.rowAlive r) (state.threads r)).count c := by
        rw [Finset.sum_pair different.symm]
        exact Nat.add_le_add (counts r member present) (counts other inside otherPresent)
    _ ≤ _ := Finset.sum_le_sum_of_subset (Finset.subset_univ _)

theorem Passing.exited (passing : Passing cols start state) (finished : state.Finished) (r : Row) :
    state.threads r = .exited (start.rowAlive r && !state.memory.rowAlive r) := by
  have isExited := finished r
  have alive := passing.alive r
  have running := passing.running r
  generalize state.threads r = phase at *
  cases phase with
  | exited hasSingleton =>
    rw [alive]
    cases isAlive : start.rowAlive r
    · rcases running isAlive with isStart | isExited
      · cases isStart
      · simpa using isExited
    · cases hasSingleton <;> rfl
  | _ => cases isExited

theorem computeColWeights_eq (nodup : ∀ r, (cols r).Nodup) (rowAlive : Row → Bool) (c : Nat) :
    computeColWeights cols rowAlive c = ((survivors rowAlive).filter (c ∈ cols ·)).card := by
  rw [computeColWeights, survivors, Finset.filter_filter, Finset.card_filter]
  refine Finset.sum_congr rfl fun r _ => ?_
  rw [List.Nodup.count (nodup r)]
  by_cases alive : rowAlive r = true <;> simp [alive]

theorem Passing.colWeight_of_idle (passing : Passing cols start state)
    (idle : ∀ r, state.threads r = .start ∨ ∃ hasSingleton,
      state.threads r = .exited hasSingleton) :
    state.memory.colWeight = computeColWeights cols state.memory.rowAlive := by
  funext c
  rw [passing.weight c, computeColWeights]
  refine Finset.sum_congr rfl fun r _ => ?_
  rw [passing.alive r]
  rcases idle r with isStart | ⟨hasSingleton, isExited⟩
  · rw [isStart]
    cases start.rowAlive r <;> simp [standing, Phase.removed]
  · rw [isExited]
    cases hasSingleton <;> cases start.rowAlive r <;> simp [standing, Phase.removed]

end Weights

section Runs

variable [DecidableEq Row] [Fintype Row]
variable {cols : Row → List Nat} {start memory memory' : Memory Row}
  {state : KernelState Row} {threads : Row → Phase} {r : Row} {phase' : Phase}

section

variable (passing : Passing cols start ⟨memory, threads⟩)

include passing

theorem Passing.weight_advance (acts : Acts cols r memory (threads r) memory' phase') (c : Nat) :
    memory'.colWeight c + (standing cols r (start.rowAlive r) (threads r)).count c =
      memory.colWeight c + (standing cols r (start.rowAlive r) phase').count c := by
  have alive := passing.alive r
  have isAlive := @Passing.alive_of_running _ _ _ _ _ passing r
  have positive : (standing cols r (start.rowAlive r) (threads r)).count c ≤
      memory.colWeight c := by
    rw [show memory.colWeight c = _ from passing.weight c]
    exact Finset.single_le_sum (f := fun r =>
      (standing cols r (start.rowAlive r) (threads r)).count c) (fun _ _ => Nat.zero_le _)
      (Finset.mem_univ r)
  dsimp only at alive isAlive
  generalize threads r = phase at *
  cases acts with
  | subtract =>
    rename_i head rest
    have isAlive := isAlive nofun nofun
    simp only [standing, isAlive, if_true, List.count_cons] at positive ⊢
    by_cases isHead : c = head
    · subst isHead
      rw [update_self]
      simp only [beq_self_eq_true, if_true] at positive ⊢
      omega
    · rw [update_of_ne isHead]
      simp [Ne.symm isHead]
  | skip dead =>
    have dead : start.rowAlive r = false := by simpa [dead, Phase.removed] using alive
    simp [standing, dead]
  | count => simp [standing]
  | kill =>
    have isAlive := isAlive nofun nofun
    simp [standing, isAlive]
  | _ => rfl

theorem Passing.alive_advance (acts : Acts cols r memory (threads r) memory' phase') (other : Row) :
    memory'.rowAlive other =
      (start.rowAlive other && !(update threads r phase' other).removed) := by
  have aliveBefore : memory.rowAlive other = (start.rowAlive other && !(threads other).removed) :=
    passing.alive other
  rw [acts.rowAlive other, update_apply]
  split
  next isOwn =>
      rw [isOwn] at aliveBefore
      rw [isOwn, aliveBefore]
      have keeps := acts.removed
      cases before : (threads r).removed
      · simp
      · simp [keeps before]
  next => exact aliveBefore

theorem Passing.running_advance (acts : Acts cols r memory (threads r) memory' phase')
    (dead : start.rowAlive r = false) : phase' = .start ∨ phase' = .exited false := by
  have aliveBefore : memory.rowAlive r = (start.rowAlive r && !(threads r).removed) :=
    passing.alive r
  rcases passing.running r dead with isStart | isExited
  · dsimp only at isStart
    rw [isStart] at acts
    cases acts with
    | enter alive => simp [dead, alive] at aliveBefore
    | skip => exact Or.inr rfl
  · dsimp only at isExited
    rw [isExited] at acts
    cases acts
    exact Or.inr rfl

theorem Passing.unread_advance {unread : List Nat}
    (acts : Acts cols r memory (threads r) memory' (.scanning unread)) : unread <:+ cols r := by
  have before := passing.unread r
  dsimp only at before
  generalize threads r = phase at acts before
  cases acts with
  | enter => exact List.suffix_rfl
  | read => exact (List.suffix_cons _ _).trans (before _ rfl)

theorem Passing.core_advance (acts : Acts cols r memory (threads r) memory' phase')
    {core : Finset Row} (subset : core ⊆ survivors start.rowAlive)
    (free : SingletonFree (fun r c => c ∈ cols r) core) (member : r ∈ core) :
    phase'.hasSingleton = false := by
  have calm := passing.core core subset free r member
  have unread := passing.unread r
  have twoLe := fun c => @Passing.two_le_weight _ _ _ _ _ passing _ subset free _ member c
  dsimp only at calm unread twoLe
  generalize threads r = phase at acts calm unread
  cases acts with
  | find isOne =>
    have inRow := (unread _ rfl).subset List.mem_cons_self
    have := twoLe _ inRow
    omega
  | kill | subtract | count => cases calm
  | idle => exact calm
  | _ => rfl

theorem Passing.quiet_advance (weights : start.colWeight = computeColWeights cols start.rowAlive)
    (acts : Acts cols r memory (threads r) memory' phase')
    (quiet : ∀ r, (threads r).hasSingleton = false) {c : Nat} (alive : start.rowAlive r = true)
    (passed : phase'.Passed cols r c) : start.colWeight c ≠ 1 := by
  have colWeight : memory.colWeight = start.colWeight := passing.colWeight_of_quiet weights quiet
  have before := passing.quiet quiet r c alive
  have calm := quiet r
  have aliveBefore : memory.rowAlive r = (start.rowAlive r && !(threads r).removed) :=
    passing.alive r
  dsimp only at before
  generalize threads r = phase at acts before calm aliveBefore
  cases acts with
  | enter => exact absurd passed.1 passed.2
  | skip dead => simp [alive, dead, Phase.removed] at aliveBefore
  | @read head unread notOne =>
    by_cases isHead : c = head
    · rw [isHead, ← colWeight]
      exact notOne
    · exact before ⟨passed.1, fun inside =>
        (List.mem_cons.mp inside).elim isHead passed.2⟩
  | survive => exact before ⟨passed, List.not_mem_nil⟩
  | idle => exact before passed
  | count => cases calm
  | _ => exact passed.elim

theorem Passing.advance (weights : start.colWeight = computeColWeights cols start.rowAlive)
    (acts : Acts cols r memory (threads r) memory' phase') :
    Passing cols start ⟨memory', update threads r phase'⟩ := by
  constructor
  · exact passing.alive_advance acts
  · intro other dead
    dsimp only
    by_cases isOwn : other = r
    · subst isOwn
      rw [update_self]
      exact passing.running_advance acts dead
    · rw [update_of_ne isOwn]
      exact passing.running other dead
  · intro other unread isPhase
    dsimp only at isPhase
    by_cases isOwn : other = r
    · subst isOwn
      rw [update_self] at isPhase
      subst isPhase
      exact passing.unread_advance acts
    · rw [update_of_ne isOwn] at isPhase
      exact passing.unread other unread isPhase
  · intro c
    have change := sum_of_others
      (fun r => (standing cols r (start.rowAlive r) (threads r)).count c)
      (fun other => (standing cols other (start.rowAlive other)
        (update threads r phase' other)).count c) r
      fun other different => by rw [update_of_ne different]
    have weight : memory.colWeight c =
        ∑ r, (standing cols r (start.rowAlive r) (threads r)).count c := passing.weight c
    have own := passing.weight_advance acts c
    dsimp only at change ⊢
    rw [update_self] at change
    omega
  · have change := total_update (fun phase => phase.counted.toNat) threads r phase'
    have counted : memory.removedCount = _ := passing.removedCount
    have own := acts.removedCount
    dsimp only at change counted ⊢
    omega
  · intro core subset free other member
    dsimp only
    by_cases isOwn : other = r
    · subst isOwn
      rw [update_self]
      exact passing.core_advance acts subset free member
    · rw [update_of_ne isOwn]
      exact passing.core core subset free other member
  · intro quiet other c alive passed
    dsimp only at quiet passed
    have quietBefore : ∀ r, (threads r).hasSingleton = false := by
      intro own
      have after := quiet own
      by_cases isOwn : own = r
      · subst isOwn
        rw [update_self] at after
        by_contra found
        rw [acts.hasSingleton (Bool.eq_true_of_not_eq_false found)] at after
        cases after
      · rwa [update_of_ne isOwn] at after
    by_cases isOwn : other = r
    · subst isOwn
      rw [update_self] at passed
      exact passing.quiet_advance weights acts quietBefore alive passed
    · rw [update_of_ne isOwn] at passed
      exact passing.quiet quietBefore other c alive passed

end

theorem Passing.run (passing : Passing cols start state)
    (weights : start.colWeight = computeColWeights cols start.rowAlive) (schedule : List Row) :
    Passing cols start (run (kernelStep cols) state schedule) :=
  @run_invariant _ _ (kernelStep cols) (Passing cols start)
    (fun state r passing => passing.advance weights (acts cols r state.memory _)) _
    passing schedule

theorem passing_run (cols : Row → List Nat)
    (weights : start.colWeight = computeColWeights cols start.rowAlive) (schedule : List Row) :
    Passing cols start (runKernel cols start schedule) :=
  (passing_start weights).run weights schedule

theorem exists_finish (cols : Row → List Nat) (state : KernelState Row) :
    ∃ schedule, (run (kernelStep cols) state schedule).Finished := by
  have stays : ∀ (state : KernelState Row) (r other : Row), (state.threads other).Exited = true →
        ((kernelStep cols state r).threads other).Exited = true := by
    intro state r other exited
    cases isPhase : state.threads other with
    | exited hasSingleton =>
      rw [exited_step r isPhase]
      rfl
    | _ =>
      rw [isPhase] at exited
      cases exited
  rcases @exists_run_halts _ _ _ _ _ (kernelStep cols)
    (fun state r => (state.threads r).Exited = true) (fun state r => (state.threads r).remaining)
    stays remaining_step state Finset.univ.toList with ⟨schedule, finished⟩
  exact ⟨schedule, fun r => finished r (Finset.mem_toList.mpr (Finset.mem_univ r))⟩

structure Passed (cols : Row → List Nat) (start finish : Memory Row) : Prop where
  weights : finish.colWeight = computeColWeights cols finish.rowAlive
  subset : survivors finish.rowAlive ⊆ survivors start.rowAlive
  core : ∀ core, core ⊆ survivors start.rowAlive →
    SingletonFree (fun r c => c ∈ cols r) core → core ⊆ survivors finish.rowAlive
  removed : finish.removedCount + (survivors finish.rowAlive).card = (survivors start.rowAlive).card
  idle : finish.removedCount = 0 → SingletonFree (fun r c => c ∈ cols r)
    (survivors finish.rowAlive)

theorem Passing.passed (passing : Passing cols start state) (finished : state.Finished)
    (weights : start.colWeight = computeColWeights cols start.rowAlive)
    (nodup : ∀ r, (cols r).Nodup) : Passed cols start state.memory := by
  have exited := passing.exited finished
  have subset : survivors state.memory.rowAlive ⊆ survivors start.rowAlive := by
    intro r member
    rw [mem_survivors, passing.alive r, Bool.and_eq_true] at member
    exact mem_survivors.mpr member.1
  have removed : state.memory.removedCount + (survivors state.memory.rowAlive).card =
      (survivors start.rowAlive).card := by
    have counted : state.memory.removedCount =
        (survivors start.rowAlive \ survivors state.memory.rowAlive).card := by
      rw [passing.removedCount, total_eq_card]
      congr 1
      ext r
      rw [Finset.mem_filter, Finset.mem_sdiff, mem_survivors, mem_survivors, exited r]
      simp [Phase.counted]
    rw [counted, Finset.card_sdiff_add_card_eq_card subset]
  refine ⟨?_, subset, ?_, removed, ?_⟩
  · exact passing.colWeight_of_idle fun r => Or.inr ⟨_, exited r⟩
  · intro core inside free r member
    have calm := passing.core core inside free r member
    have alive := mem_survivors.mp (inside member)
    rw [exited r, alive] at calm
    simpa [mem_survivors, Phase.hasSingleton] using calm
  · intro none c one
    have same : survivors state.memory.rowAlive = survivors start.rowAlive :=
      Finset.eq_of_subset_of_card_le subset (by omega)
    rw [same] at one
    have weight := computeColWeights_eq nodup start.rowAlive c
    rcases Finset.card_pos.mp (one ▸ Nat.one_pos) with ⟨r, member⟩
    rcases Finset.mem_filter.mp member with ⟨alive, present⟩
    have quiet : ∀ r, (state.threads r).hasSingleton = false := by
      intro r
      rw [exited r]
      by_cases before : start.rowAlive r = true
      · have after := mem_survivors.mp (same ▸ mem_survivors.mpr before)
        simp [Phase.hasSingleton, after]
      · simp [Phase.hasSingleton, before]
    apply passing.quiet quiet r c (mem_survivors.mp alive)
    · rw [exited r]
      exact present
    · rw [weights, weight, one]

end Runs

end CudaMpqs.SingletonPass
