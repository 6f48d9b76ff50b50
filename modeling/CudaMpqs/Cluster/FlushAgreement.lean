import CudaMpqs.Foundation.Transition
import Mathlib.Data.Fintype.Card

/-! # Flush agreement at the end of a cluster sieve

The coordinator counts FLUSH_ACKs and heartbeat timeouts in one counter, and takes it
that all workers have flushed when the counter reaches the number of workers. -/

namespace CudaMpqs.FlushAgreement

open Transition

inductive Message (Batch : Type)
  | incrementalBatch (batch : Batch)
  | control
  | flushAck

def Message.isFlushAck {Batch : Type} : Message Batch → Bool
  | .flushAck => true
  | _ => false

def Message.batch? {Batch : Type} : Message Batch → Option Batch
  | .incrementalBatch batch => some batch
  | _ => none

/-- A worker's connection: what the coordinator has read of it, what is still on the
way, and what the coordinator holds of the worker. -/
structure Worker (Batch : Type) where
  read : List (Message Batch)
  unread : List (Message Batch)
  connected : Bool
  alive : Bool

namespace Worker

variable {Batch : Type}

def sent (worker : Worker Batch) : List (Message Batch) := worker.read ++ worker.unread

def flushed (worker : Worker Batch) : Bool := worker.read.any Message.isFlushAck

def receive (worker : Worker Batch) (message : Message Batch)
    (unread : List (Message Batch)) : Worker Batch :=
  { worker with read := worker.read ++ [message], unread := unread }

def AckLast (worker : Worker Batch) : Prop :=
  ∀ front back, worker.sent = front ++ .flushAck :: back → back = []

def DeadClosed (worker : Worker Batch) : Prop := worker.alive = false → worker.connected = false

end Worker

/-- Where Thread A stands: it drains the messages, has replayed the deferred batches, waits
for the flush behind STOP, or has finished, because of the flush or not. -/
inductive Place
  | receiving
  | sweeping
  | draining
  | finished (byFlush : Bool)
deriving DecidableEq

structure State (total : Nat) (Batch : Type) where
  workers : Fin total → Worker Batch
  deferred : List (Fin total × Batch)
  processed : List (Fin total × Batch)
  workersFlushed : Nat
  allWorkersFlushed : Bool
  place : Place

inductive Input (total : Nat) (Batch : Type)
  | send (w : Fin total) (message : Message Batch)
  | recv (w : Fin total)
  | connectionLost (w : Fin total)
  | replay
  | heartbeatTimeout (w : Fin total)
  | nextPass
  | stop
  | sourcesDone
  | flushed
  | deadline

variable {total : Nat} {Batch : Type}

def State.start (total : Nat) (Batch : Type) : State total Batch where
  workers _ := ⟨[], [], true, true⟩
  deferred := []
  processed := []
  workersFlushed := 0
  allWorkersFlushed := total == 0
  place := .receiving

def State.countFlushed (state : State total Batch) : State total Batch :=
  { state with
    workersFlushed := state.workersFlushed + 1
    allWorkersFlushed :=
      state.allWorkersFlushed || decide (total ≤ state.workersFlushed + 1) }

def State.setWorker (state : State total Batch) (w : Fin total) (worker : Worker Batch) :
    State total Batch :=
  { state with workers := Function.update state.workers w worker }

def State.handle (state : State total Batch) (w : Fin total) : Message Batch → State total Batch
  | .incrementalBatch batch =>
    if state.place = .receiving then
      { state with deferred := state.deferred ++ [(w, batch)] }
    else { state with processed := state.processed ++ [(w, batch)] }
  | .control => state
  | .flushAck => state.countFlushed

/-- An input that cannot happen in a state leaves it. FLUSH_ACK is the last message of a
worker; the messages of one connection keep their order; nothing is read from a
connection that is lost or closed. -/
def step (state : State total Batch) : Input total Batch → State total Batch
  | .send w message =>
    let worker := state.workers w
    if worker.sent.any Message.isFlushAck then state
    else state.setWorker w { worker with unread := worker.unread ++ [message] }
  | .recv w =>
    let worker := state.workers w
    if worker.connected = true ∧ (state.place = .receiving ∨ state.place = .draining) then
      match worker.unread with
      | [] => state
      | message :: unread =>
        (state.setWorker w (worker.receive message unread)).handle w message
    else state
  | .connectionLost w => state.setWorker w { state.workers w with connected := false }
  | .replay =>
    if state.place = .receiving then
      { state with
        processed := state.processed ++ state.deferred
        deferred := []
        place := .sweeping }
    else state
  | .heartbeatTimeout w =>
    if state.place = .sweeping ∧ (state.workers w).alive = true then
      (state.setWorker w
        { state.workers w with alive := false, connected := false }).countFlushed
    else state
  | .nextPass => if state.place = .sweeping then { state with place := .receiving } else state
  | .stop =>
    if state.place = .sweeping then
      { state with place := if state.allWorkersFlushed then .finished true else .draining }
    else state
  | .sourcesDone =>
    if state.place = .sweeping ∧ state.allWorkersFlushed = true then
      { state with place := .finished true }
    else state
  | .flushed =>
    if state.place = .draining ∧ state.allWorkersFlushed = true then
      { state with place := .finished true }
    else state
  | .deadline =>
    if state.place = .draining ∧ state.allWorkersFlushed = false then
      { state with place := .finished false }
    else state

/-! ## The agreement -/

def State.Accounted (state : State total Batch) (w : Fin total) : Prop :=
  (state.workers w).flushed = true ∨ (state.workers w).alive = false

instance (state : State total Batch) : DecidablePred state.Accounted :=
  fun _ => inferInstanceAs (Decidable (_ ∨ _))

def State.accounted (state : State total Batch) : Finset (Fin total) :=
  Finset.univ.filter state.Accounted

def State.CountedOnce (state : State total Batch) : Prop :=
  state.workersFlushed = state.accounted.card

def batches (messages : List (Message Batch)) : List Batch := messages.filterMap Message.batch?

def batchesFrom (w : Fin total) (entries : List (Fin total × Batch)) : List Batch :=
  entries.filterMap fun entry => if entry.1 = w then some entry.2 else none

structure Agreement (state : State total Batch) : Prop where
  countedOnce : state.CountedOnce
  accounted : state.allWorkersFlushed = true → ∀ w, state.Accounted w
  /-- A finish by the flush has read and processed all that a live worker sent. -/
  finished : state.place = .finished true → state.allWorkersFlushed = true ∧
    ∀ w, (state.workers w).alive = true → (state.workers w).unread = [] ∧
      batchesFrom w state.processed = batches (state.workers w).sent

def TimeoutBeforeAck (state : State total Batch) : Input total Batch → Prop
  | .heartbeatTimeout w =>
    state.place = .sweeping → (state.workers w).alive = true → (state.workers w).flushed = false
  | _ => True

/-! ## The invariant -/

structure Invariant (state : State total Batch) : Prop where
  countedOnce : state.CountedOnce
  flag : state.allWorkersFlushed = true → total ≤ state.workersFlushed
  dead : ∀ w, (state.workers w).DeadClosed
  ackLast : ∀ w, (state.workers w).AckLast
  taken : ∀ w, batchesFrom w (state.processed ++ state.deferred) = batches (state.workers w).read
  replayed : state.place ≠ .receiving → state.deferred = []
  finished : state.place = .finished true → state.allWorkersFlushed = true

theorem Invariant.start : Invariant (State.start total Batch) where
  countedOnce := by
    have none_ : (State.start total Batch).accounted = ∅ := by
      apply Finset.filter_eq_empty_iff.mpr
      rintro w _ (flushed | dead)
      · cases flushed
      · cases dead
    rw [State.CountedOnce, none_]
    rfl
  flag := fun flag => (beq_iff_eq.mp flag).le
  dead := fun w dead => nomatch dead
  ackLast := by
    intro w front back split
    cases front with
    | nil => cases split
    | cons => cases split
  taken := fun w => rfl
  replayed := fun elsewhere => absurd rfl elsewhere
  finished := fun finished => nomatch finished

/-! ## What one step does to the workers -/

section Steps

variable {state : State total Batch} {w : Fin total} {worker : Worker Batch}

@[simp] theorem workers_setWorker_self : (state.setWorker w worker).workers w = worker := by
  simp only [State.setWorker, Function.update_self]

theorem workers_setWorker_ne {other : Fin total} (differ : other ≠ w) :
    (state.setWorker w worker).workers other = state.workers other := by
  simp only [State.setWorker, Function.update_of_ne differ]

theorem forall_setWorker (holds : Fin total → Worker Batch → Prop)
    (changed : holds w worker) (others : ∀ other, holds other (state.workers other))
    (other : Fin total) : holds other ((state.setWorker w worker).workers other) := by
  by_cases same : other = w
  · rw [same, workers_setWorker_self]
    exact changed
  · rw [workers_setWorker_ne same]
    exact others other

theorem mem_accounted {other : Fin total} : other ∈ state.accounted ↔ state.Accounted other := by
  simp [State.accounted]

theorem accounted_setWorker_of_iff
    (same : worker.flushed = true ∨ worker.alive = false ↔ state.Accounted w) :
    (state.setWorker w worker).accounted = state.accounted := by
  ext other
  rw [mem_accounted, mem_accounted]
  by_cases here : other = w
  · rw [here, State.Accounted, workers_setWorker_self]
    exact same
  · rw [State.Accounted, workers_setWorker_ne here, State.Accounted]

theorem accounted_setWorker_insert (now : worker.flushed = true ∨ worker.alive = false) :
    (state.setWorker w worker).accounted = insert w state.accounted := by
  ext other
  rw [mem_accounted, Finset.mem_insert, mem_accounted]
  by_cases here : other = w
  · rw [here, State.Accounted, workers_setWorker_self]
    exact iff_of_true now (Or.inl rfl)
  · rw [State.Accounted, workers_setWorker_ne here, State.Accounted, or_iff_right here]

theorem batchesFrom_append (w : Fin total) (left right : List (Fin total × Batch)) :
    batchesFrom w (left ++ right) = batchesFrom w left ++ batchesFrom w right :=
  List.filterMap_append

theorem batches_append (left right : List (Message Batch)) :
    batches (left ++ right) = batches left ++ batches right :=
  List.filterMap_append

private theorem isFlushAck_iff {message : Message Batch} : message.isFlushAck = true ↔
    message = .flushAck := by
  cases message <;> simp [Message.isFlushAck]

theorem any_isFlushAck {messages : List (Message Batch)} :
    messages.any Message.isFlushAck = true ↔ .flushAck ∈ messages := by
  rw [List.any_eq_true]
  constructor
  · rintro ⟨message, member, isAck⟩
    rwa [← isFlushAck_iff.mp isAck]
  · exact fun member => ⟨_, member, rfl⟩

end Steps

namespace Invariant

variable {state : State total Batch} {w : Fin total}

theorem countFlushed_countedOnce {before after : State total Batch}
    (counted : before.CountedOnce) (same : after.workersFlushed = before.workersFlushed)
    (fresh : ¬ before.Accounted w) (insert_ : after.accounted = insert w before.accounted) :
    after.countFlushed.CountedOnce := by
  change after.workersFlushed + 1 = after.accounted.card
  rw [insert_, Finset.card_insert_of_notMem fun member => fresh (mem_accounted.mp member), same,
    counted]

theorem countFlushed_not_countedOnce {before after : State total Batch}
    (counted : before.CountedOnce) (same : after.workersFlushed = before.workersFlushed)
    (already : after.accounted = before.accounted) : ¬ after.countFlushed.CountedOnce := by
  change ¬ after.workersFlushed + 1 = after.accounted.card
  rw [already, same, counted]
  exact Nat.succ_ne_self _

theorem flag_countFlushed {after : State total Batch}
    (flag : after.allWorkersFlushed = true → total ≤ after.workersFlushed) :
    after.countFlushed.allWorkersFlushed = true → total ≤ after.countFlushed.workersFlushed := by
  intro all
  rcases Bool.or_eq_true_iff.mp all with before | now
  · exact (flag before).trans (Nat.le_succ _)
  · exact of_decide_eq_true now

theorem flushed_eq_false (invariant : Invariant state) {unread : List (Message Batch)}
    (next : (state.workers w).unread = .flushAck :: unread) :
    (state.workers w).flushed = false := by
  by_contra flushed
  have member := any_isFlushAck.mp (eq_true_of_ne_false flushed)
  rcases List.append_of_mem member with ⟨front, back, split⟩
  have last := invariant.ackLast w front (back ++ .flushAck :: unread) (by
    rw [Worker.sent, next, split, List.append_assoc, List.cons_append])
  exact List.append_ne_nil_of_right_ne_nil _ (List.cons_ne_nil _ _) last

theorem send (invariant : Invariant state) (message : Message Batch) :
    Invariant (step state (.send w message)) := by
  simp only [step]
  split
  next => exact invariant
  next open_ =>
    have none_ : Message.flushAck ∉ (state.workers w).sent := fun member =>
      open_ (any_isFlushAck.mpr member)
    constructor
    · refine invariant.countedOnce.trans (congrArg Finset.card (Eq.symm ?_))
      exact accounted_setWorker_of_iff Iff.rfl
    · exact invariant.flag
    · exact forall_setWorker (fun _ => Worker.DeadClosed) (invariant.dead w) invariant.dead
    · apply forall_setWorker (fun _ => Worker.AckLast) _ invariant.ackLast
      intro front back split
      rw [Worker.sent, ← List.append_assoc] at split
      rcases List.eq_nil_or_concat back with empty | ⟨rest, last, rfl⟩
      · exact empty
      · rw [List.concat_eq_append, ← List.cons_append, ← List.append_assoc] at split
        have front_ := (List.append_inj' split rfl).1
        exact absurd (by rw [Worker.sent, front_]; simp) none_
    · exact forall_setWorker (fun other worker =>
        batchesFrom other (state.processed ++ state.deferred) = batches worker.read)
        (invariant.taken w) invariant.taken
    · exact invariant.replayed
    · exact invariant.finished

theorem connectionLost (invariant : Invariant state) :
    Invariant (step state (.connectionLost w)) where
  countedOnce := by
    refine invariant.countedOnce.trans (congrArg Finset.card (Eq.symm ?_))
    exact accounted_setWorker_of_iff Iff.rfl
  flag := invariant.flag
  dead := forall_setWorker (fun _ => Worker.DeadClosed) (fun _ => rfl) invariant.dead
  ackLast := forall_setWorker (fun _ => Worker.AckLast) (invariant.ackLast w) invariant.ackLast
  taken := forall_setWorker (fun other worker =>
    batchesFrom other (state.processed ++ state.deferred) = batches worker.read)
    (invariant.taken w) invariant.taken
  replayed := invariant.replayed
  finished := invariant.finished

section Receive

variable {message : Message Batch} {unread : List (Message Batch)}

theorem sent_receive {worker : Worker Batch} (next : worker.unread = message :: unread) :
    (worker.receive message unread).sent = worker.sent := by
  rw [Worker.sent, Worker.sent, next, Worker.receive, List.append_assoc, List.singleton_append]

theorem flushed_receive (worker : Worker Batch) (message : Message Batch)
    (unread : List (Message Batch)) :
    (worker.receive message unread).flushed = (worker.flushed || message.isFlushAck) := by
  simp [Worker.receive, Worker.flushed]

theorem dead_receive (invariant : Invariant state) (other : Fin total) :
    ((state.setWorker w ((state.workers w).receive message unread)).workers other).DeadClosed := by
  apply forall_setWorker (fun _ => Worker.DeadClosed) _ invariant.dead
  exact invariant.dead w

theorem ackLast_receive (invariant : Invariant state)
    (next : (state.workers w).unread = message :: unread) (other : Fin total) :
    ((state.setWorker w ((state.workers w).receive message unread)).workers other).AckLast := by
  apply forall_setWorker (fun _ => Worker.AckLast) _ invariant.ackLast
  intro front back split
  exact invariant.ackLast w front back ((sent_receive next).symm.trans split)

theorem taken_receive (invariant : Invariant state) (other : Fin total) :
    batchesFrom other (state.processed ++ state.deferred) ++
        (if other = w then batches [message] else []) =
      batches ((state.setWorker w
        ((state.workers w).receive message unread)).workers other).read := by
  by_cases here : other = w
  · rw [if_pos here, here, workers_setWorker_self, invariant.taken, Worker.receive, batches_append]
  · rw [if_neg here, workers_setWorker_ne here, invariant.taken, List.append_nil]

theorem accounted_receive (other : message.isFlushAck = false) :
    (state.setWorker w ((state.workers w).receive message unread)).accounted = state.accounted := by
  apply accounted_setWorker_of_iff
  rw [flushed_receive, other, Bool.or_false]
  exact Iff.rfl

private theorem batchesFrom_singleton (w other : Fin total) (batch : Batch) :
    batchesFrom other [(w, batch)] =
      if other = w then batches [.incrementalBatch batch] else [] := by
  by_cases here : other = w
  · rw [if_pos here, here]
    simp [batchesFrom, batches, Message.batch?]
  · rw [if_neg here]
    simp [batchesFrom, Ne.symm here]

/-- The message that is read is of a worker that is alive. -/
theorem recv (invariant : Invariant state) : Invariant (step state (.recv w)) := by
  simp only [step]
  split
  next reads =>
    split
    next => exact invariant
    next message unread next_ =>
      have alive : (state.workers w).alive = true := by
        by_contra dead
        have closed := invariant.dead w (eq_false_of_ne_true dead)
        exact absurd (closed.symm.trans reads.1) Bool.false_ne_true
      have taken := @taken_receive _ _ _ w message unread invariant
      cases message with
      | incrementalBatch batch =>
        have counted : (state.setWorker w ((state.workers w).receive
            (.incrementalBatch batch) unread)).CountedOnce :=
          invariant.countedOnce.trans (congrArg Finset.card (accounted_receive rfl).symm)
        by_cases receiving : state.place = .receiving
        · rw [State.handle, if_pos (by exact receiving)]
          constructor
          · exact counted
          · exact invariant.flag
          · exact invariant.dead_receive
          · exact invariant.ackLast_receive next_
          · intro other
            refine Eq.trans ?_ (taken other)
            change batchesFrom other (state.processed ++ (state.deferred ++ [(w, batch)])) = _
            rw [← List.append_assoc, batchesFrom_append, batchesFrom_singleton]
          · exact fun elsewhere => absurd receiving elsewhere
          · exact invariant.finished
        · have none_ := invariant.replayed receiving
          rw [State.handle, if_neg (by exact receiving)]
          constructor
          · exact counted
          · exact invariant.flag
          · exact invariant.dead_receive
          · exact invariant.ackLast_receive next_
          · intro other
            refine Eq.trans ?_ (taken other)
            change batchesFrom other (state.processed ++ [(w, batch)] ++ state.deferred) = _
            rw [none_, List.append_nil, List.append_nil, batchesFrom_append,
              batchesFrom_singleton]
          · exact fun _ => none_
          · exact invariant.finished
      | control =>
        rw [State.handle]
        constructor
        · exact invariant.countedOnce.trans
            (congrArg Finset.card (accounted_receive rfl).symm)
        · exact invariant.flag
        · exact invariant.dead_receive
        · exact invariant.ackLast_receive next_
        · intro other
          refine Eq.trans ?_ (taken other)
          simp [State.setWorker, batches, Message.batch?]
        · exact invariant.replayed
        · exact invariant.finished
      | flushAck =>
        have fresh : ¬ state.Accounted w := by
          rintro (flushed | dead)
          · exact absurd ((invariant.flushed_eq_false next_).symm.trans flushed)
              Bool.false_ne_true
          · exact absurd (dead.symm.trans alive) Bool.false_ne_true
        rw [State.handle]
        constructor
        · refine countFlushed_countedOnce invariant.countedOnce ?_ fresh ?_
          · rfl
          · apply accounted_setWorker_insert
            left
            rw [flushed_receive]
            exact Bool.or_true _
        · exact flag_countFlushed invariant.flag
        · exact invariant.dead_receive
        · exact invariant.ackLast_receive next_
        · intro other
          refine Eq.trans ?_ (taken other)
          simp [State.setWorker, State.countFlushed, batches, Message.batch?]
        · exact invariant.replayed
        · intro finished
          exact Bool.or_eq_true_iff.mpr (Or.inl (invariant.finished finished))
  next => exact invariant

end Receive

theorem heartbeatTimeout (invariant : Invariant state)
    (before : TimeoutBeforeAck state (.heartbeatTimeout w)) :
    Invariant (step state (.heartbeatTimeout w)) := by
  simp only [step]
  split
  next fires =>
    have fresh : ¬ state.Accounted w := by
      rintro (flushed | dead)
      · exact absurd ((before fires.1 fires.2).symm.trans flushed) Bool.false_ne_true
      · exact absurd (dead.symm.trans fires.2) Bool.false_ne_true
    constructor
    · refine countFlushed_countedOnce invariant.countedOnce ?_ fresh ?_
      · rfl
      · exact accounted_setWorker_insert (Or.inr rfl)
    · exact flag_countFlushed invariant.flag
    · exact forall_setWorker (fun _ => Worker.DeadClosed) (fun _ => rfl) invariant.dead
    · exact forall_setWorker (fun _ => Worker.AckLast) (invariant.ackLast w) invariant.ackLast
    · exact forall_setWorker (fun other worker =>
        batchesFrom other (state.processed ++ state.deferred) = batches worker.read)
        (invariant.taken w) invariant.taken
    · exact invariant.replayed
    · intro finished
      exact Bool.or_eq_true_iff.mpr (Or.inl (invariant.finished finished))
  next => exact invariant

private theorem move (invariant : Invariant state) {place : Place}
    (replayed : place ≠ .receiving → state.deferred = [])
    (finished : place = .finished true → state.allWorkersFlushed = true) :
    Invariant { state with place := place } :=
  ⟨invariant.countedOnce, invariant.flag, invariant.dead, invariant.ackLast, invariant.taken,
    replayed, finished⟩

theorem step (invariant : Invariant state) (input : Input total Batch)
    (before : TimeoutBeforeAck state input) :
    Invariant (FlushAgreement.step state input) := by
  cases input with
  | send w message => exact invariant.send message
  | recv w => exact invariant.recv
  | connectionLost w => exact invariant.connectionLost
  | replay =>
    simp only [FlushAgreement.step]
    split
    next =>
      refine ⟨invariant.countedOnce, invariant.flag, invariant.dead, invariant.ackLast, ?_,
        fun _ => rfl, fun finished => nomatch finished⟩
      intro w
      rw [List.append_nil]
      exact invariant.taken w
    next => exact invariant
  | heartbeatTimeout w => exact invariant.heartbeatTimeout before
  | nextPass =>
    simp only [FlushAgreement.step]
    split
    next => exact invariant.move (fun elsewhere => absurd rfl elsewhere) nofun
    next => exact invariant
  | stop =>
    simp only [FlushAgreement.step]
    split
    next sweeping =>
      have none_ := invariant.replayed (by rw [sweeping]; exact Place.noConfusion)
      apply invariant.move (fun _ => none_)
      intro finished
      by_contra open_
      rw [if_neg open_] at finished
      cases finished
    next => exact invariant
  | sourcesDone =>
    simp only [FlushAgreement.step]
    split
    next done =>
      have none_ := invariant.replayed (by rw [done.1]; exact Place.noConfusion)
      exact invariant.move (fun _ => none_) fun _ => done.2
    next => exact invariant
  | flushed =>
    simp only [FlushAgreement.step]
    split
    next done =>
      have none_ := invariant.replayed (by rw [done.1]; exact Place.noConfusion)
      exact invariant.move (fun _ => none_) fun _ => done.2
    next => exact invariant
  | deadline =>
    simp only [FlushAgreement.step]
    split
    next passed =>
      have none_ := invariant.replayed (by rw [passed.1]; exact Place.noConfusion)
      exact invariant.move (fun _ => none_) nofun
    next => exact invariant

private theorem all_accounted (invariant : Invariant state) (flag : state.allWorkersFlushed = true)
    (w : Fin total) : state.Accounted w := by
  have enough := invariant.flag flag
  rw [invariant.countedOnce] at enough
  have all : state.accounted = Finset.univ := by
    apply Finset.eq_univ_of_card
    rw [Fintype.card_fin]
    exact le_antisymm (card_finset_fin_le _) enough
  rw [← mem_accounted, all]
  exact Finset.mem_univ w

theorem agreement (invariant : Invariant state) : Agreement state where
  countedOnce := invariant.countedOnce
  accounted := invariant.all_accounted
  finished finished := by
    have flag := invariant.finished finished
    refine ⟨flag, fun w alive => ?_⟩
    have flushed : (state.workers w).flushed = true :=
      (invariant.all_accounted flag w).resolve_right fun dead =>
        absurd (dead.symm.trans alive) Bool.false_ne_true
    rcases List.append_of_mem (any_isFlushAck.mp flushed) with ⟨front, back, split⟩
    have last := invariant.ackLast w front (back ++ (state.workers w).unread) (by
      rw [Worker.sent, split, List.append_assoc, List.cons_append])
    have unread := (List.append_eq_nil_iff.mp last).2
    have taken := invariant.taken w
    rw [invariant.replayed (by rw [finished]; exact Place.noConfusion), List.append_nil] at taken
    refine ⟨unread, ?_⟩
    rw [Worker.sent, unread, List.append_nil]
    exact taken

private theorem timeoutBeforeAck_iff (invariant : Invariant state) (input : Input total Batch) :
    TimeoutBeforeAck state input ↔ (FlushAgreement.step state input).CountedOnce := by
  constructor
  · exact fun before => (invariant.step input before).countedOnce
  · intro counted
    cases input with
    | heartbeatTimeout w =>
      intro sweeping alive
      by_contra flushed
      have isFlushed := eq_true_of_ne_false flushed
      rw [FlushAgreement.step, if_pos ⟨sweeping, alive⟩] at counted
      refine countFlushed_not_countedOnce invariant.countedOnce ?_ ?_ counted
      · rfl
      · exact accounted_setWorker_of_iff (iff_of_true (Or.inr rfl) (Or.inl isFlushed))
    | _ => exact trivial

end Invariant

/-- The steps of a run count every worker once just when no timeout comes behind a
FLUSH_ACK; and then every state of the run agrees. -/
theorem flushAgreement (inputs : List (Input total Batch)) :
    (Meets step TimeoutBeforeAck (State.start total Batch) inputs ↔
      Meets step (fun state input => (step state input).CountedOnce)
        (State.start total Batch) inputs) ∧
    (Meets step TimeoutBeforeAck (State.start total Batch) inputs →
      ∀ taken, taken <+: inputs → Agreement (run step (State.start total Batch) taken)) := by
  constructor
  · exact @Meets.iff_of_invariant _ _ step (fun _ _ => True) _ _ Invariant
      (fun _ input _ before invariant => invariant.step input before)
      (fun _ input _ invariant => invariant.timeoutBeforeAck_iff input) _ _
      (meets_of_forall (fun _ _ => trivial) _ _) Invariant.start
  · intro meets taken isPrefix
    have reached := @Meets.invariant _ _ _ _ Invariant
      (fun state input before invariant => Invariant.step invariant input before) _ _
      (meets.of_prefix isPrefix) Invariant.start
    exact reached.agreement

def silentWorker : List (Input 2 Nat) :=
  [.send 1 (.incrementalBatch 7), .recv 1, .replay, .heartbeatTimeout 1, .nextPass,
    .send 0 (.incrementalBatch 8), .send 0 .flushAck, .recv 0, .recv 0, .replay, .sourcesDone]

theorem flushAgreement_silentWorker : Agreement (run step (State.start 2 Nat) silentWorker) ∧
      (run step (State.start 2 Nat) silentWorker).place = .finished true ∧
      (run step (State.start 2 Nat) silentWorker).processed = [(1, 7), (0, 8)] := by
  have meets : Meets step TimeoutBeforeAck (State.start 2 Nat) silentWorker :=
    ⟨trivial, trivial, trivial, fun _ _ => by decide, trivial, trivial, trivial, trivial,
      trivial, trivial, trivial, trivial⟩
  exact ⟨(flushAgreement silentWorker).2 meets _ (List.prefix_refl _), by decide, by decide⟩

def silentBehindAck : List (Input 2 Nat) :=
  [.send 1 (.incrementalBatch 7), .send 0 .flushAck, .recv 0, .replay, .heartbeatTimeout 0,
    .sourcesDone]

/-- The one worker is counted twice, and the coordinator finishes with the batch of the
other one unread. -/
theorem not_agreement_silentBehindAck :
    (run step (State.start 2 Nat) silentBehindAck).place = .finished true ∧
      ((run step (State.start 2 Nat) silentBehindAck).workers 1).alive = true ∧
      batches ((run step (State.start 2 Nat) silentBehindAck).workers 1).unread = [7] ∧
      ¬ (run step (State.start 2 Nat) silentBehindAck).Accounted 1 ∧
      ¬ Agreement (run step (State.start 2 Nat) silentBehindAck) := by
  have unaccounted : ¬ (run step (State.start 2 Nat) silentBehindAck).Accounted 1 := by decide
  exact ⟨by decide, by decide, by decide, unaccounted,
    fun agreement => unaccounted (agreement.accounted (by decide) 1)⟩

end CudaMpqs.FlushAgreement
