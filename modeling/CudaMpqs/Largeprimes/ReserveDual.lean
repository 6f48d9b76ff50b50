import CudaMpqs.Foundation.Transition
import CudaMpqs.Largeprimes.Combine

/-! # Concurrent reservations

`atomic_reserve_dual` of `largeprime.cu` as its threads interleave: each reads the
packed counter once, then checks the bounds and compares and swaps until it
succeeds or finds no room. -/

namespace CudaMpqs.Combine

open Transition Function

/-! ## The packed counter -/

def packRf (counter : DualCounter) : BitVec 64 :=
  counter.relations.setWidth 64 <<< 32 ||| counter.factors.setWidth 64

def unpackRf (word : BitVec 64) : DualCounter where
  relations := (word >>> 32).setWidth 32
  factors := (word &&& 0xFFFFFFFF).setWidth 32

private theorem toNat_packRf (counter : DualCounter) :
    (packRf counter).toNat = counter.relations.toNat * 2 ^ 32 + counter.factors.toNat := by
  have relationsBound := counter.relations.isLt
  have factorsBound := counter.factors.isLt
  have high : (counter.relations.setWidth 64 <<< 32).toNat =
      counter.relations.toNat <<< 32 := by
    rw [BitVec.toNat_shiftLeft, BitVec.toNat_setWidth_of_le (by decide),
      Nat.shiftLeft_eq, Nat.mod_eq_of_lt (by omega)]
  rw [packRf, BitVec.toNat_or, high, BitVec.toNat_setWidth_of_le (by decide),
    ← Nat.shiftLeft_add_eq_or_of_lt factorsBound, Nat.shiftLeft_eq]

@[simp] theorem unpackRf_packRf (counter : DualCounter) : unpackRf (packRf counter) = counter := by
  have relationsBound := counter.relations.isLt
  have factorsBound := counter.factors.isLt
  have word := toNat_packRf counter
  have relations : (unpackRf (packRf counter)).relations = counter.relations := by
    apply BitVec.eq_of_toNat_eq
    rw [unpackRf, BitVec.toNat_setWidth, BitVec.toNat_ushiftRight, word, Nat.shiftRight_eq_div_pow]
    omega
  have factors : (unpackRf (packRf counter)).factors = counter.factors := by
    apply BitVec.eq_of_toNat_eq
    have mask : (0xFFFFFFFF : BitVec 64).toNat = 2 ^ 32 - 1 := rfl
    rw [unpackRf, BitVec.toNat_setWidth, BitVec.toNat_and, word, mask,
      Nat.and_two_pow_sub_one_eq_mod]
    omega
  exact congrArg₂ DualCounter.mk relations factors

/-! ## Calls -/

section Calls

variable {Thread : Type}

structure ReserveCalls (Thread : Type) where
  factorsToAdd : Thread → BitVec 32
  maxRels : BitVec 32
  maxFactors : BitVec 32

inductive ReserveThread where
  | start
  | checking (old : BitVec 64)
  | failed
  | reserved (relIdx factorOffset : BitVec 32)
deriving DecidableEq

def ReserveThread.placement : ReserveThread → Option (BitVec 32 × BitVec 32)
  | .reserved relIdx factorOffset => some (relIdx, factorOffset)
  | _ => none

structure ReserveState (Thread : Type) where
  counter : BitVec 64
  threads : Thread → ReserveThread

def ReserveState.placement (state : ReserveState Thread) (thread : Thread) :
    Option (BitVec 32 × BitVec 32) :=
  (state.threads thread).placement

def reserveStart (counter : BitVec 64) : ReserveState Thread where
  counter := counter
  threads _ := .start

/-! ## Tiling -/

def factorTotal (calls : ReserveCalls Thread) (threads : List Thread) : Nat :=
  (threads.map fun thread => (calls.factorsToAdd thread).toNat).sum

structure PlacedAfter (calls : ReserveCalls Thread) (first : DualCounter)
    (earlier : List Thread) (thread : Thread)
    (placement : BitVec 32 × BitVec 32) : Prop where
  relIdx : placement.1.toNat = first.relations.toNat + earlier.length
  factorOffset : placement.2.toNat = first.factors.toNat + factorTotal calls earlier
  relation_lt : placement.1.toNat < calls.maxRels.toNat
  factors_le : placement.2.toNat + (calls.factorsToAdd thread).toNat ≤ calls.maxFactors.toNat

/-- The successful calls, oldest first, hold consecutive relations and adjacent ranges
of factors from the first counter to the present one, within both capacities. -/
structure Tiles (calls : ReserveCalls Thread) (first : DualCounter)
    (state : ReserveState Thread) (order : List Thread) : Prop where
  nodup : order.Nodup
  successful : ∀ thread, thread ∈ order ↔ (state.placement thread).isSome
  placed : ∀ index (bound : index < order.length), ∃ placement,
    state.placement order[index] = some placement ∧
      PlacedAfter calls first (order.take index) order[index] placement
  relations : (unpackRf state.counter).relations.toNat = first.relations.toNat + order.length
  factors : (unpackRf state.counter).factors.toNat = first.factors.toNat + factorTotal calls order

theorem tiles_start (calls : ReserveCalls Thread) (counter : BitVec 64) :
    Tiles calls (unpackRf counter) (reserveStart counter) [] where
  nodup := List.nodup_nil
  successful _ := ⟨nofun, nofun⟩
  placed _ bound := absurd bound (Nat.not_lt_zero _)
  relations := rfl
  factors := rfl

theorem Tiles.keep {calls : ReserveCalls Thread} {first : DualCounter}
    {state next : ReserveState Thread} {order : List Thread} (tiles : Tiles calls first state order)
    (counter : next.counter = state.counter) (placement : next.placement = state.placement) :
    Tiles calls first next order where
  nodup := tiles.nodup
  successful := by
    rw [placement]
    exact tiles.successful
  placed := by
    rw [placement]
    exact tiles.placed
  relations := by
    rw [counter]
    exact tiles.relations
  factors := by
    rw [counter]
    exact tiles.factors

theorem factorTotal_concat (calls : ReserveCalls Thread) (threads : List Thread)
    (thread : Thread) : factorTotal calls (threads ++ [thread]) =
      factorTotal calls threads + (calls.factorsToAdd thread).toNat := by
  rw [factorTotal, List.map_append, List.sum_append]
  rfl

/-! ## Steps -/

variable [DecidableEq Thread]

def reserveStep (calls : ReserveCalls Thread) (state : ReserveState Thread)
    (thread : Thread) : ReserveState Thread :=
  match state.threads thread with
  | .start => { state with
      threads := update state.threads thread (.checking state.counter) }
  | .checking old =>
    match atomicReserveDual (unpackRf old) (calls.factorsToAdd thread) calls.maxRels
      calls.maxFactors with
    | none => { state with threads := update state.threads thread .failed }
    | some desired =>
      if state.counter = old then
        { counter := packRf desired
          threads := update state.threads thread
            (.reserved (unpackRf old).relations (unpackRf old).factors) }
      else { state with
        threads := update state.threads thread (.checking state.counter) }
  | .failed => state
  | .reserved _ _ => state

/-- If the next compare-and-swap of the thread is to succeed, its sum of the factors does
not leave 32 bits. -/
def SumFits (calls : ReserveCalls Thread) (state : ReserveState Thread) (thread : Thread) : Prop :=
  let counter := unpackRf state.counter
  let factorsToAdd := calls.factorsToAdd thread
  state.threads thread = .checking state.counter → counter.relations < calls.maxRels →
    counter.factors + factorsToAdd ≤ calls.maxFactors →
      counter.factors.toNat + factorsToAdd.toNat < 2 ^ 32

theorem atomicReserveDual_eq_some {counter desired : DualCounter}
    {factorsToAdd maxRels maxFactors : BitVec 32} :
    atomicReserveDual counter factorsToAdd maxRels maxFactors = some desired ↔
      counter.relations < maxRels ∧ counter.factors + factorsToAdd ≤ maxFactors ∧
        ⟨counter.relations + 1, counter.factors + factorsToAdd⟩ = desired := by
  have open_iff : counter.relations < maxRels ∧ counter.factors + factorsToAdd ≤ maxFactors ↔
      ¬ (maxRels ≤ counter.relations ∨ maxFactors < counter.factors + factorsToAdd) := by
    rw [not_or, BitVec.not_le, BitVec.not_lt]
  rw [atomicReserveDual, ← and_assoc, open_iff]
  split
  · rename_i full
    exact ⟨nofun, fun room => absurd full room.1⟩
  · rename_i room
    rw [Option.some_inj]
    exact (and_iff_right room).symm

private theorem placement_update (counter : BitVec 64) (threads : Thread → ReserveThread)
    (thread : Thread) (phase : ReserveThread) :
    ReserveState.placement ⟨counter, update threads thread phase⟩ =
      update (ReserveState.placement ⟨counter, threads⟩) thread phase.placement := by
  funext other
  by_cases own : other = thread
  · subst own
    simp only [ReserveState.placement, update_self]
  · simp only [ReserveState.placement, update_of_ne own]

theorem reserveStep_cases (calls : ReserveCalls Thread) (state : ReserveState Thread)
    (thread : Thread) :
    ((reserveStep calls state thread).counter = state.counter ∧
        (reserveStep calls state thread).placement = state.placement) ∨
      ∃ desired, state.threads thread = .checking state.counter ∧
        atomicReserveDual (unpackRf state.counter) (calls.factorsToAdd thread)
          calls.maxRels calls.maxFactors = some desired ∧
        (reserveStep calls state thread).counter = packRf desired ∧
        (reserveStep calls state thread).placement = update state.placement thread
          (some ((unpackRf state.counter).relations, (unpackRf state.counter).factors)) := by
  have unplaced : ∀ phase : ReserveThread, (state.threads thread).placement = none →
      phase.placement = none → ReserveState.placement
        ⟨state.counter, update state.threads thread phase⟩ = state.placement := by
    intro phase before after
    rw [placement_update, after, update_eq_self_iff]
    exact before.symm
  unfold reserveStep
  cases phase : state.threads thread with
  | start => exact .inl ⟨rfl, unplaced _ (by rw [phase]; rfl) rfl⟩
  | checking old =>
    dsimp only
    split
    · exact .inl ⟨rfl, unplaced _ (by rw [phase]; rfl) rfl⟩
    · rename_i desired reserves
      split
      · rename_i current
        subst current
        exact .inr ⟨desired, rfl, reserves, rfl, placement_update _ _ _ _⟩
      · exact .inl ⟨rfl, unplaced _ (by rw [phase]; rfl) rfl⟩
  | failed => exact .inl ⟨rfl, rfl⟩
  | reserved => exact .inl ⟨rfl, rfl⟩

theorem reserveStep_reserves {calls : ReserveCalls Thread} {state : ReserveState Thread}
    {thread : Thread} {desired : DualCounter}
    (phase : state.threads thread = .checking state.counter)
    (reserves : atomicReserveDual (unpackRf state.counter) (calls.factorsToAdd thread)
      calls.maxRels calls.maxFactors = some desired) :
    (reserveStep calls state thread).placement thread =
      some ((unpackRf state.counter).relations, (unpackRf state.counter).factors) := by
  simp only [reserveStep, phase, reserves, if_true, ReserveState.placement, update_self,
    ReserveThread.placement]

theorem reserveStep_placed (calls : ReserveCalls Thread) (state : ReserveState Thread)
    (thread other : Thread) (placed : (state.placement thread).isSome) :
    ((reserveStep calls state other).placement thread).isSome := by
  rcases reserveStep_cases calls state other with ⟨-, same⟩ | ⟨desired, -, -, -, placement⟩
  · rwa [same]
  · rw [placement]
    by_cases own : thread = other
    · subst own
      rw [update_self]
      rfl
    · rwa [update_of_ne own]

/-! ## Runs -/

variable {calls : ReserveCalls Thread} {first : DualCounter}
  {state next : ReserveState Thread} {order : List Thread} {thread : Thread}

/-- A call that finds room, with a sum that fits, is the last of the tiling. -/
theorem Tiles.reserve (tiles : Tiles calls first state order) {desired : DualCounter}
    (unplaced : state.placement thread = none)
    (reserves : atomicReserveDual (unpackRf state.counter) (calls.factorsToAdd thread)
      calls.maxRels calls.maxFactors = some desired)
    (fits : (unpackRf state.counter).factors.toNat + (calls.factorsToAdd thread).toNat < 2 ^ 32)
    (counter : next.counter = packRf desired)
    (placement : next.placement = update state.placement thread
      (some ((unpackRf state.counter).relations, (unpackRf state.counter).factors))) :
    Tiles calls first next (order ++ [thread]) := by
  rcases atomicReserveDual_eq_some.mp reserves with ⟨below, room, rfl⟩
  have relationLess := BitVec.lt_def.mp below
  have capacity := calls.maxRels.isLt
  have factorsLe := BitVec.le_def.mp room
  rw [BitVec.toNat_add_of_lt fits] at factorsLe
  have fresh : thread ∉ order := by
    rw [tiles.successful, unplaced]
    nofun
  have kept : ∀ other ∈ order, next.placement other = state.placement other := by
    intro other member
    rw [placement, update_of_ne (ne_of_mem_of_not_mem member fresh)]
  constructor
  · rw [List.nodup_append]
    simp only [tiles.nodup, List.nodup_singleton, List.mem_singleton, true_and]
    rintro other member _ rfl rfl
    exact fresh member
  · intro other
    rw [List.mem_append, List.mem_singleton, tiles.successful, placement]
    by_cases own : other = thread
    · simp only [own, or_true, update_self, Option.isSome_some]
    · simp only [own, or_false, update_of_ne own]
  · intro index bound
    rw [List.length_append, List.length_singleton] at bound
    by_cases last : index = order.length
    · subst last
      rw [List.getElem_concat_length rfl, List.take_left, placement, update_self]
      exact ⟨_, rfl, tiles.relations, tiles.factors, relationLess, factorsLe⟩
    · have inside : index < order.length := by omega
      rw [List.getElem_append_left inside, List.take_append_of_le_length inside.le,
        kept _ (List.getElem_mem inside)]
      exact tiles.placed index inside
  · rw [counter, unpackRf_packRf, List.length_append, List.length_singleton, ← Nat.add_assoc,
      ← tiles.relations]
    apply BitVec.toNat_add_of_lt
    change _ + 1 < _
    omega
  · rw [counter, unpackRf_packRf, factorTotal_concat, ← Nat.add_assoc, ← tiles.factors,
      BitVec.toNat_add_of_lt fits]

/-- Under a tiling, a step tiles exactly when its sum fits. -/
theorem Tiles.step_iff (tiles : Tiles calls first state order) (thread : Thread) :
    SumFits calls state thread ↔
      ∃ order, Tiles calls first (reserveStep calls state thread) order := by
  rcases reserveStep_cases calls state thread with
    ⟨counter, placement⟩ | ⟨desired, phase, reserves, counter, placement⟩
  · constructor
    · exact fun _ => ⟨order, tiles.keep counter placement⟩
    · intro _ phase below room
      have placed := reserveStep_reserves phase
        (atomicReserveDual_eq_some.mpr ⟨below, room, rfl⟩)
      rw [placement, ReserveState.placement, phase] at placed
      cases placed
  · have unplaced : state.placement thread = none := by
      rw [ReserveState.placement, phase]
      rfl
    constructor
    · intro fits
      have ⟨below, room, _⟩ := atomicReserveDual_eq_some.mp reserves
      exact ⟨_, tiles.reserve unplaced reserves (fits phase below room) counter placement⟩
    · rintro ⟨order', tiles'⟩ - - -
      have own : (reserveStep calls state thread).placement thread =
          some ((unpackRf state.counter).relations, (unpackRf state.counter).factors) := by
        rw [placement, update_self]
      have member : thread ∈ order' := by
        rw [tiles'.successful, own]
        rfl
      rcases List.getElem_of_mem member with ⟨index, bound, isThread⟩
      rcases tiles'.placed index bound with ⟨found, isFound, after⟩
      rw [isThread, own, Option.some_inj] at isFound
      have factorsLe := after.factors_le
      rw [← isFound, isThread] at factorsLe
      exact Nat.lt_of_le_of_lt factorsLe calls.maxFactors.isLt

/-- In every interleaving the successful calls tile exactly as long as no sum of factors
leaves 32 bits, and no step of a call that fails changes the counter. -/
theorem reservations_tile (calls : ReserveCalls Thread) (counter : BitVec 64) :
    (∀ schedule, Meets (reserveStep calls) (SumFits calls) (reserveStart counter) schedule ↔
      Meets (reserveStep calls) (fun state thread => ∃ order,
        Tiles calls (unpackRf counter) (reserveStep calls state thread) order)
        (reserveStart counter) schedule) ∧
    ∀ (before after : List Thread) (thread : Thread),
      (run (reserveStep calls) (reserveStart counter)
        (before ++ thread :: after)).threads thread = .failed →
      (run (reserveStep calls) (reserveStart counter) (before ++ [thread])).counter =
        (run (reserveStep calls) (reserveStart counter) before).counter := by
  constructor
  · intro schedule
    apply @Meets.iff_of_invariant _ _ (reserveStep calls) (fun _ _ => True) _ _
      (fun state => ∃ order, Tiles calls (unpackRf counter) state order)
    · rintro state thread - fits ⟨order, tiles⟩
      exact (tiles.step_iff thread).mp fits
    · rintro state thread - ⟨order, tiles⟩
      exact tiles.step_iff thread
    · exact meets_of_forall (fun _ _ => trivial) _ _
    · exact ⟨[], tiles_start calls counter⟩
  · intro before after thread failed
    rw [run_append, run_cons] at failed
    rw [run_append, run_cons, run_nil]
    generalize run (reserveStep calls) (reserveStart counter) before = state at failed ⊢
    rcases reserveStep_cases calls state thread with
      ⟨same, -⟩ | ⟨desired, -, -, -, placement⟩
    · exact same
    · have placed : ((reserveStep calls state thread).placement thread).isSome := by
        rw [placement, update_self]
        rfl
      have kept := run_invariant (fun state other => reserveStep_placed calls state thread other)
        placed after
      rw [ReserveState.placement, failed] at kept
      cases kept

end Calls

/-- The calls of `global_combine_kernel` on an output batch for this many relations, whose
64 places a relation are cast to 32 bits. -/
def outputCalls {Thread : Type} (maxCombinedOutput : BitVec 32)
    (factorsToAdd : Thread → BitVec 32) : ReserveCalls Thread where
  factorsToAdd := factorsToAdd
  maxRels := maxCombinedOutput
  maxFactors := (maxCombinedOutput.setWidth 64 * 64).setWidth 32

/-- The output for 2^27 - 1 relations is half full and every relation has 64 factors: the
sum wraps to zero, and the next range overlaps the first one. -/
theorem reservations_tile_wraps :
    ¬ ∀ schedule, Meets (reserveStep (outputCalls 0x7FFFFFF fun _ : Unit => 64))
      (fun state thread => ∃ order, Tiles (outputCalls 0x7FFFFFF fun _ : Unit => 64)
        ⟨0x3FFFFFF, 0xFFFFFFC0⟩
        (reserveStep (outputCalls 0x7FFFFFF fun _ : Unit => 64) state thread) order)
      (reserveStart (packRf ⟨0x3FFFFFF, 0xFFFFFFC0⟩)) schedule := by
  intro tiling
  rcases (tiling [(), ()]).2.1 with ⟨order, tiles⟩
  have factors := tiles.factors
  have fell : (unpackRf (run (reserveStep (outputCalls 0x7FFFFFF fun _ : Unit => 64))
      (reserveStart (packRf ⟨0x3FFFFFF, 0xFFFFFFC0⟩)) [(), ()]).counter).factors.toNat = 0 := by
    decide +kernel
  rw [run_cons, run_cons, run_nil] at fell
  rw [fell] at factors
  have start : (0xFFFFFFC0 : BitVec 32).toNat = 4294967232 := rfl
  rw [start] at factors
  omega

end CudaMpqs.Combine
