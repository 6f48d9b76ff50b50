import CudaMpqs.Foundation.RingWindow
import CudaMpqs.Foundation.Transition
import Mathlib.Data.Nat.Bitwise

/-! # The ring between the sieve thread and the I/O thread

One producer calls `tryPush`, one consumer calls `tryPop` and `popBatch`. Every
load of `head_` or `tail_`, every begin and end of a slot access and every store is
a step of its own. -/

namespace CudaMpqs.SpscRing

open RingWindow Transition

inductive Producer (T : Type)
  | idle
  | loaded (item : T) (t : Nat)
  | claimed (item : T) (t next : Nat)
  | writing (item : T) (t next : Nat)
  | stored (item : T) (next : Nat)
deriving DecidableEq

inductive Consumer
  | idle
  | popLoaded (h : Nat)
  | popClaimed (h : Nat)
  | popReading (h : Nat)
  | popDone (h : Nat)
  | batchLoaded (maxN t : Nat)
  | batch (maxN t h count : Nat)
  | batchReading (maxN t h count : Nat)
deriving DecidableEq

/-- The ring and its two threads; `pushed` and `popped` record the items of the
pushes that succeeded and the items moved out. -/
structure State (T : Type) where
  head : Nat
  tail : Nat
  slots : Nat → T
  producer : Producer T
  consumer : Consumer
  pushed : List T
  popped : List T

inductive Input (T : Type)
  | tryPush (item : T)
  | producer
  | tryPop
  | popBatch (maxN : Nat)
  | consumer

variable {T : Type}

def State.start (slots : Nat → T) : State T := ⟨0, 0, slots, .idle, .idle, [], []⟩

def producerStep (mask : Nat) (state : State T) : State T :=
  match state.producer with
  | .idle => state
  | .loaded item t =>
    let next := (t + 1) &&& mask
    if next = state.head then { state with producer := .idle }
    else { state with producer := .claimed item t next }
  | .claimed item t next => { state with producer := .writing item t next }
  | .writing item t next =>
    { state with slots := Function.update state.slots t item, producer := .stored item next }
  | .stored item next =>
    { state with tail := next, producer := .idle, pushed := state.pushed ++ [item] }

/-- The next access of `tryPop` or `popBatch`; a slot that was moved out of keeps
`movedFrom` of its item. -/
def consumerStep (mask : Nat) (movedFrom : T → T) (state : State T) : State T :=
  match state.consumer with
  | .idle => state
  | .popLoaded h =>
    if h = state.tail then { state with consumer := .idle }
    else { state with consumer := .popClaimed h }
  | .popClaimed h => { state with consumer := .popReading h }
  | .popReading h =>
    { state with
      slots := Function.update state.slots h (movedFrom (state.slots h))
      consumer := .popDone h
      popped := state.popped ++ [state.slots h] }
  | .popDone h => { state with head := (h + 1) &&& mask, consumer := .idle }
  | .batchLoaded maxN t => { state with consumer := .batch maxN t state.head 0 }
  | .batch maxN t h count =>
    if count < maxN ∧ h ≠ t then { state with consumer := .batchReading maxN t h count }
    else if 0 < count then { state with head := h, consumer := .idle }
    else { state with consumer := .idle }
  | .batchReading maxN t h count =>
    { state with
      slots := Function.update state.slots h (movedFrom (state.slots h))
      consumer := .batch maxN t ((h + 1) &&& mask) (count + 1)
      popped := state.popped ++ [state.slots h] }

/-- A call makes the first load of its function. A thread that is inside a call
makes no other. -/
def step (mask : Nat) (movedFrom : T → T) (state : State T) : Input T → State T
  | .tryPush item =>
    match state.producer with
    | .idle => { state with producer := .loaded item state.tail }
    | _ => state
  | .producer => producerStep mask state
  | .tryPop =>
    match state.consumer with
    | .idle => { state with consumer := .popLoaded state.head }
    | _ => state
  | .popBatch maxN =>
    match state.consumer with
    | .idle => { state with consumer := .batchLoaded maxN state.tail }
    | _ => state
  | .consumer => consumerStep mask movedFrom state

/-! ## Slot accesses -/

def Producer.writes : Producer T → Option Nat
  | .writing _ t _ => some t
  | _ => none

def Consumer.reads : Consumer → Option Nat
  | .popReading h => some h
  | .batchReading _ _ h _ => some h
  | _ => none

def State.Collides (state : State T) : Prop :=
  ∃ slot, state.producer.writes = some slot ∧ state.consumer.reads = some slot

/-! ## The invariant -/

def Producer.staged : Producer T → List T
  | .stored item _ => [item]
  | _ => []

def Consumer.ahead : Consumer → Nat
  | .popDone _ => 1
  | .batch _ _ _ count => count
  | .batchReading _ _ _ count => count
  | _ => 0

def Producer.Sound (capacity written released : Nat) : Producer T → Prop
  | .idle => True
  | .loaded _ t => t = written % capacity
  | .claimed _ t next | .writing _ t next =>
    t = written % capacity ∧ next = (written + 1) % capacity ∧ written + 1 < released + capacity
  | .stored _ next => next = (written + 1) % capacity ∧ written + 1 < released + capacity

def Consumer.Sound (capacity written consumed : Nat) : Consumer → Prop
  | .idle => True
  | .popLoaded h => h = consumed % capacity
  | .popClaimed h | .popReading h => h = consumed % capacity ∧ consumed < written
  | .popDone h => ∃ before, consumed = before + 1 ∧ h = before % capacity
  | .batchLoaded _ t => ∃ seen, t = seen % capacity ∧ consumed ≤ seen ∧ seen ≤ written
  | .batch _ t h _ =>
    h = consumed % capacity ∧ ∃ seen, t = seen % capacity ∧ consumed ≤ seen ∧ seen ≤ written
  | .batchReading _ t h _ =>
    h = consumed % capacity ∧ ∃ seen, t = seen % capacity ∧ consumed < seen ∧ seen ≤ written

structure Invariant (capacity : Nat) (state : State T) (released : Nat) : Prop where
  ahead : state.popped.length = released + state.consumer.ahead
  head : state.head = released % capacity
  tail : state.tail = state.pushed.length % capacity
  window : state.pushed.length < released + capacity
  order : state.popped <+: state.pushed
  holds : Holds capacity state.slots (state.pushed ++ state.producer.staged)
    state.popped.length
  producer : state.producer.Sound capacity state.pushed.length released
  consumer : state.consumer.Sound capacity state.pushed.length state.popped.length

def State.Consistent (capacity : Nat) (state : State T) : Prop :=
  ∃ released, Invariant capacity state released

variable {capacity mask released : Nat} {state : State T}

theorem Producer.Sound.release {producer : Producer T} {written later : Nat}
    (sound : producer.Sound capacity written released) (le : released ≤ later) :
    producer.Sound capacity written later := by
  cases producer with
  | idle => trivial
  | loaded item t => exact sound
  | claimed item t next => exact ⟨sound.1, sound.2.1, by have := sound.2.2; omega⟩
  | writing item t next => exact ⟨sound.1, sound.2.1, by have := sound.2.2; omega⟩
  | stored item next => exact ⟨sound.1, by have := sound.2; omega⟩

theorem Consumer.Sound.publish {consumer : Consumer} {written consumed : Nat}
    (sound : consumer.Sound capacity written consumed) :
    consumer.Sound capacity (written + 1) consumed := by
  cases consumer with
  | idle => trivial
  | popLoaded h => exact sound
  | popClaimed h => exact ⟨sound.1, by have := sound.2; omega⟩
  | popReading h => exact ⟨sound.1, by have := sound.2; omega⟩
  | popDone h => exact sound
  | batchLoaded maxN t =>
    rcases sound with ⟨seen, same, after, before⟩
    exact ⟨seen, same, after, by omega⟩
  | batch maxN t h count =>
    rcases sound with ⟨position, seen, same, after, before⟩
    exact ⟨position, seen, same, after, by omega⟩
  | batchReading maxN t h count =>
    rcases sound with ⟨position, seen, same, after, before⟩
    exact ⟨position, seen, same, after, by omega⟩

theorem Invariant.staged_window (invariant : Invariant capacity state released) :
    (state.pushed ++ state.producer.staged).length < released + capacity := by
  have window := invariant.window
  have sound := invariant.producer
  cases phase : state.producer with
  | stored item next =>
    rw [phase] at sound
    simpa [Producer.staged] using sound.2
  | _ => simpa [Producer.staged] using window

theorem Invariant.start (positive : 0 < capacity) (slots : Nat → T) :
    Invariant capacity (State.start slots) 0 where
  ahead := rfl
  head := (Nat.zero_mod _).symm
  tail := (Nat.zero_mod _).symm
  window := by simpa [State.start] using positive
  order := List.prefix_refl _
  holds := by
    intro position item _ found
    simp [State.start, Producer.staged] at found
  producer := trivial
  consumer := trivial

/-! ### The producer -/

theorem Invariant.producer_moves (invariant : Invariant capacity state released)
    {next : Producer T} (unstaged : state.producer.staged = next.staged)
    (sound : next.Sound capacity state.pushed.length released) :
    Invariant capacity { state with producer := next } released :=
  { invariant with
    holds := by
      rw [← unstaged]
      exact invariant.holds
    producer := sound }

theorem producerStep_invariant (masks : ∀ n, n &&& mask = n % capacity)
    (invariant : Invariant capacity state released) :
    Invariant capacity (producerStep mask state) released := by
  have sound := invariant.producer
  have window := invariant.window
  rw [producerStep]
  cases phase : state.producer with
  | idle => exact invariant
  | loaded item t =>
    rw [phase] at sound
    have load : t = state.pushed.length % capacity := sound
    have following : (t + 1) &&& mask = (state.pushed.length + 1) % capacity := by
      rw [masks, load, Nat.mod_add_mod]
    dsimp only
    split
    next => exact invariant.producer_moves (by rw [phase]; rfl) trivial
    next room =>
        apply invariant.producer_moves (by rw [phase]; rfl)
        refine ⟨load, following, ?_⟩
        by_contra full
        have last : state.pushed.length + 1 = released + capacity := by omega
        rw [following, last, Nat.add_mod_right, invariant.head] at room
        exact room rfl
  | claimed item t next =>
    rw [phase] at sound
    exact invariant.producer_moves (by rw [phase]; rfl) sound
  | writing item t next =>
    rw [phase] at sound
    rcases sound with ⟨load, following, room⟩
    have holds : Holds capacity state.slots state.pushed state.popped.length := by
      simpa [phase, Producer.staged] using invariant.holds
    have consumed := invariant.ahead
    exact { invariant with
      holds := by
        rw [load]
        exact holds.write (by omega) item
      producer := ⟨following, room⟩ }
  | stored item next =>
    rw [phase] at sound
    have holds := invariant.holds
    rw [phase] at holds
    have published : (state.pushed ++ [item]).length = state.pushed.length + 1 := by simp
    exact { invariant with
      tail := by rw [published]; exact sound.1
      window := by rw [published]; exact sound.2
      order := invariant.order.trans (List.prefix_append _ _)
      holds := by simpa [Producer.staged] using holds
      producer := trivial
      consumer := by rw [published]; exact invariant.consumer.publish }

/-! ### The consumer -/

theorem Invariant.consumer_moves (invariant : Invariant capacity state released)
    {next : Consumer} (kept : state.consumer.ahead = next.ahead)
    (sound : next.Sound capacity state.pushed.length state.popped.length) :
    Invariant capacity { state with consumer := next } released :=
  { invariant with
    ahead := by rw [← kept]; exact invariant.ahead
    consumer := sound }

/-- The store of `head_` releases all that was moved out. -/
theorem Invariant.release (invariant : Invariant capacity state released) {h : Nat}
    (position : h = state.popped.length % capacity) :
    Invariant capacity { state with head := h, consumer := .idle } state.popped.length :=
  have later : released ≤ state.popped.length := by
    have ahead := invariant.ahead
    omega
  { invariant with
    ahead := rfl
    head := position
    window := by
      have window := invariant.window
      dsimp only
      omega
    producer := invariant.producer.release later
    consumer := trivial }

private theorem prefix_concat {popped pushed : List T} (order : popped <+: pushed) {item : T}
    (found : pushed[popped.length]? = some item) : popped ++ [item] <+: pushed := by
  rcases order with ⟨rest, rfl⟩
  cases rest with
  | nil => simp at found
  | cons first rest =>
    have same : first = item := by simpa using found
    exact ⟨rest, by simp [same]⟩

theorem Invariant.read (movedFrom : T → T) (invariant : Invariant capacity state released)
    {h : Nat} (position : h = state.popped.length % capacity)
    (available : state.popped.length < state.pushed.length) {next : Consumer}
    (moved : next.ahead = state.consumer.ahead + 1)
    (sound : next.Sound capacity state.pushed.length (state.popped.length + 1)) :
    Invariant capacity
      { state with
        slots := Function.update state.slots h (movedFrom (state.slots h))
        consumer := next
        popped := state.popped ++ [state.slots h] } released := by
  have window := invariant.staged_window
  have ahead := invariant.ahead
  have count : (state.popped ++ [state.slots h]).length = state.popped.length + 1 := by simp
  have found : state.pushed[state.popped.length]? = some (state.slots h) := by
    have inside : (state.pushed ++ state.producer.staged)[state.popped.length]? =
        some state.pushed[state.popped.length] := by
      rw [List.getElem?_append_left available, List.getElem?_eq_getElem available]
    rw [position, invariant.holds _ _ le_rfl inside, List.getElem?_eq_getElem available]
  exact { invariant with
    ahead := by
      dsimp only
      rw [count, moved]
      omega
    order := prefix_concat invariant.order found
    holds := by
      dsimp only
      rw [count, position]
      exact invariant.holds.read (by omega) _
    consumer := by
      dsimp only
      rw [count]
      exact sound }

theorem consumerStep_invariant (masks : ∀ n, n &&& mask = n % capacity) (movedFrom : T → T)
    (invariant : Invariant capacity state released) :
    (consumerStep mask movedFrom state).Consistent capacity := by
  have sound := invariant.consumer
  have ahead := invariant.ahead
  have reached := invariant.order.length_le
  rw [consumerStep]
  cases phase : state.consumer with
  | idle => exact ⟨released, invariant⟩
  | popLoaded h =>
    rw [phase] at sound ahead
    have position : h = state.popped.length % capacity := sound
    refine ⟨released, ?_⟩
    dsimp only
    split
    next => exact invariant.consumer_moves (by rw [phase]; rfl) trivial
    next available =>
        apply invariant.consumer_moves (by rw [phase]; rfl)
        refine ⟨position, ?_⟩
        by_contra empty
        have all : state.popped.length = state.pushed.length := by omega
        rw [position, all, invariant.tail] at available
        exact available rfl
  | popClaimed h =>
    rw [phase] at sound
    exact ⟨released, invariant.consumer_moves (by rw [phase]; rfl) sound⟩
  | popReading h =>
    rw [phase] at sound
    exact ⟨released, invariant.read movedFrom sound.1 sound.2 (by rw [phase]; rfl)
      ⟨_, rfl, sound.1⟩⟩
  | popDone h =>
    rw [phase] at sound
    rcases sound with ⟨before, consumed, position⟩
    refine ⟨_, invariant.release ?_⟩
    rw [masks, position, consumed, Nat.mod_add_mod]
  | batchLoaded maxN t =>
    rw [phase] at sound ahead
    refine ⟨released, invariant.consumer_moves (by rw [phase]; rfl) ⟨?_, sound⟩⟩
    rw [invariant.head, ahead]
    rfl
  | batch maxN t h count =>
    rw [phase] at sound ahead
    rcases sound with ⟨position, seen, same, after, before⟩
    dsimp only
    split
    next more =>
        refine ⟨released, invariant.consumer_moves (by rw [phase]; rfl)
          ⟨position, seen, same, ?_, before⟩⟩
        by_contra empty
        have all : state.popped.length = seen := by omega
        rw [position, same, all] at more
        exact more.2 rfl
    next =>
        split
        next => exact ⟨_, invariant.release position⟩
        next none =>
            refine ⟨released, invariant.consumer_moves ?_ trivial⟩
            rw [phase]
            exact Nat.eq_zero_of_not_pos none
  | batchReading maxN t h count =>
    rw [phase] at sound
    rcases sound with ⟨position, seen, same, after, before⟩
    refine ⟨released, invariant.read movedFrom position (by omega) (by rw [phase]; rfl)
      ⟨?_, seen, same, after, before⟩⟩
    rw [masks, position, Nat.mod_add_mod]

/-! ## Every interleaving -/

theorem step_invariant (masks : ∀ n, n &&& mask = n % capacity) (movedFrom : T → T)
    (input : Input T) (consistent : state.Consistent capacity) :
    (step mask movedFrom state input).Consistent capacity := by
  rcases consistent with ⟨released, invariant⟩
  cases input with
  | tryPush item =>
    refine ⟨released, ?_⟩
    rw [step]
    split
    next phase => exact invariant.producer_moves (by rw [phase]; rfl) invariant.tail
    next => exact invariant
  | producer => exact ⟨released, producerStep_invariant masks invariant⟩
  | tryPop =>
    refine ⟨released, ?_⟩
    rw [step]
    split
    next phase =>
        have ahead := invariant.ahead
        rw [phase] at ahead
        apply invariant.consumer_moves (by rw [phase]; rfl)
        rw [Consumer.Sound, ahead]
        exact invariant.head
    next => exact invariant
  | popBatch maxN =>
    refine ⟨released, ?_⟩
    rw [step]
    split
    next phase =>
        exact invariant.consumer_moves (by rw [phase]; rfl)
          ⟨_, invariant.tail, invariant.order.length_le, le_rfl⟩
    next => exact invariant
  | consumer => exact consumerStep_invariant masks movedFrom invariant

/-- The slot that is written is behind the last published one, the slot that is read
is not, and both are in one window. -/
theorem Invariant.apart (invariant : Invariant capacity state released) : ¬ state.Collides := by
  rintro ⟨slot, written, read⟩
  have window := invariant.staged_window
  have ahead := invariant.ahead
  have producer := invariant.producer
  have consumer := invariant.consumer
  have available : slot = state.popped.length % capacity ∧
      state.popped.length < state.pushed.length := by
    cases phase : state.consumer with
    | popReading h =>
      rw [phase] at read consumer
      cases read
      exact consumer
    | batchReading maxN t h count =>
      rw [phase] at read consumer
      cases read
      rcases consumer with ⟨position, seen, _, after, before⟩
      exact ⟨position, by omega⟩
    | _ => simp [phase, Consumer.reads] at read
  cases phase : state.producer with
  | writing item t next =>
    rw [phase] at written producer
    cases written
    have same := producer.1.symm.trans available.1
    have room := producer.2.2
    have equal := slot_inj available.2.le (by omega) same.symm
    omega
  | _ => simp [phase, Producer.writes] at written

/-- Whatever the order of the steps, what was moved out is a prefix of what was
pushed, no slot is read while it is written, and at most `capacity - 1` items are
in the ring. -/
theorem spscRing_safe (exponent : Nat) (slots : Nat → T) (movedFrom : T → T)
    (inputs : List (Input T)) :
    let state := run (step (2 ^ exponent - 1) movedFrom) (State.start slots) inputs
    state.popped <+: state.pushed ∧ ¬ state.Collides ∧
      state.pushed.length ≤ state.popped.length + (2 ^ exponent - 1) := by
  have masks : ∀ n, n &&& (2 ^ exponent - 1) = n % 2 ^ exponent :=
    fun n => Nat.and_two_pow_sub_one_eq_mod n exponent
  have initial : (State.start slots).Consistent (2 ^ exponent) :=
    ⟨0, Invariant.start (Nat.two_pow_pos exponent) slots⟩
  rcases run_invariant (fun _ input => step_invariant masks movedFrom input) initial inputs with
    ⟨released, invariant⟩
  have window := invariant.window
  have ahead := invariant.ahead
  exact ⟨invariant.order, invariant.apart, by omega⟩

example :
    let state := run (step 1 id) (State.start fun _ => 0)
      [.tryPush 7, .tryPop, .producer, .producer, .consumer, .producer, .tryPop, .producer,
        .tryPush 8, .consumer, .producer, .consumer, .popBatch 3, .consumer, .consumer]
    state.pushed = [7] ∧ state.popped = [7] ∧ state.producer = .idle := by decide

end CudaMpqs.SpscRing
