import Mathlib.Data.List.GetD
import Mathlib.Data.List.Nodup
import CudaMpqs.Common.UInt512
import CudaMpqs.Foundation.Transition

/-! # Compaction of the sieve's candidates

`compactCandidatesBatchKernel` copies the candidates of all sieving blocks into
one dense buffer. A thread takes its slot from an atomic counter before it looks
at the candidate. -/

namespace CudaMpqs

open Transition

/-! ## The kernel's data -/

structure CandidateRelation where
  b : UInt512
  sieveOffset : BitVec 32
  numFactors : Nat
  factors : List Nat

inductive Cell where
  | a
  | b
  | trueX
  | numFactors
  | factorIndex (k : Nat)
deriving DecidableEq

def Cell.Value : Cell → Type
  | .a => UInt512
  | .b => UInt512
  | .trueX => BitVec 32
  | .numFactors => Nat
  | .factorIndex _ => Nat

/-- A slot of the output; `none` is a word this launch has not written. -/
abbrev DenseSlot := (cell : Cell) → Option cell.Value

structure CompactLaunch where
  gridDim : Nat
  blockDim : Nat
  input : Nat → CandidateRelation
  maxRelationsPerBlock : Nat
  batchAArray : Nat → UInt512
  factorIndicesFlat : Nat → Nat
  stepIndex : Nat
  shcDim : Nat
  blockRelationCounts : Nat → Nat
  maxCapacity : Nat

/-! ## Sorting and merging the hints -/

def insertFactor (key : Nat) : List Nat → List Nat
  | [] => [key]
  | factor :: rest =>
    if key < factor then factor :: insertFactor key rest else key :: factor :: rest

def sortFactors (factors : List Nat) : List Nat :=
  (factors.foldl (fun sorted key => insertFactor key sorted) []).reverse

def mergeHints : Nat → List Nat → List Nat → List Nat
  | 0, _, _ => []
  | _ + 1, [], [] => []
  | room + 1, a :: as, [] => a :: mergeHints room as []
  | room + 1, [], s :: ss => s :: mergeHints room [] ss
  | room + 1, a :: as, s :: ss =>
    if a ≤ s then a :: mergeHints room as (s :: ss)
    else s :: mergeHints room (a :: as) ss

theorem insertFactor_perm (key : Nat) (sorted : List Nat) :
    (insertFactor key sorted).Perm (key :: sorted) := by
  induction sorted with
  | nil => exact List.Perm.refl _
  | cons factor rest induction =>
    rw [insertFactor]
    split
    next => exact (induction.cons factor).trans (List.Perm.swap key factor rest)
    next => exact List.Perm.refl _

private theorem insertFactor_pairwise {key : Nat} {sorted : List Nat}
    (descending : sorted.Pairwise (· ≥ ·)) : (insertFactor key sorted).Pairwise (· ≥ ·) := by
  induction sorted with
  | nil => exact List.pairwise_singleton _ key
  | cons factor rest induction =>
    rw [List.pairwise_cons] at descending
    rw [insertFactor]
    split
    next below =>
        rw [List.pairwise_cons]
        refine ⟨?_, induction descending.2⟩
        intro other member
        rcases List.mem_cons.mp ((insertFactor_perm key rest).mem_iff.mp member) with
          same | member
        · omega
        · exact descending.1 other member
    next above =>
        rw [List.pairwise_cons]
        refine ⟨?_, List.pairwise_cons.mpr descending⟩
        intro other member
        rcases List.mem_cons.mp member with same | member
        · omega
        · have bound := descending.1 other member
          omega

theorem foldl_insertFactor (factors : List Nat) {sorted : List Nat}
    (descending : sorted.Pairwise (· ≥ ·)) :
    (factors.foldl (fun sorted key => insertFactor key sorted) sorted).Perm (factors ++ sorted) ∧
      (factors.foldl (fun sorted key => insertFactor key sorted) sorted).Pairwise (· ≥ ·) := by
  induction factors generalizing sorted with
  | nil => exact ⟨List.Perm.refl _, descending⟩
  | cons key factors induction =>
    rcases @induction (insertFactor key sorted) (insertFactor_pairwise descending) with
      ⟨perm, pairwise⟩
    refine ⟨perm.trans ?_, pairwise⟩
    exact ((insertFactor_perm key sorted).append_left factors).trans List.perm_middle

theorem sortFactors_perm (factors : List Nat) : (sortFactors factors).Perm factors := by
  have sorted := (foldl_insertFactor factors List.Pairwise.nil).1
  rw [List.append_nil] at sorted
  exact (List.reverse_perm _).trans sorted

theorem sortFactors_pairwise (factors : List Nat) : (sortFactors factors).Pairwise (· ≤ ·) := by
  rw [sortFactors, List.pairwise_reverse]
  exact (foldl_insertFactor factors List.Pairwise.nil).2

theorem mergeHints_eq (room : Nat) (as ss : List Nat) :
    mergeHints room as ss = (List.merge as ss).take room := by
  induction room generalizing as ss with
  | zero => rw [mergeHints, List.take_zero]
  | succ room induction =>
    cases as with
    | nil =>
      cases ss with
      | nil => simp [mergeHints]
      | cons s ss => simp [mergeHints, induction]
    | cons a as =>
      cases ss with
      | nil => simp [mergeHints, induction]
      | cons s ss =>
        rw [mergeHints, List.cons_merge_cons]
        simp only [decide_eq_true_iff]
        split
        next => rw [List.take_succ_cons, induction]
        next => rw [List.take_succ_cons, induction]

/-- The hints of a slot: the factors of `a` and the sieve's factors, in
ascending order, as far as the 48 words go. -/
def MergedHints (aFactors factors hints : List Nat) : Prop :=
  ∃ whole : List Nat, whole.Perm (aFactors ++ factors) ∧
    (aFactors.Pairwise (· ≤ ·) → whole.Pairwise (· ≤ ·)) ∧ hints = whole.take 48

theorem mergeHints_merged (aFactors factors : List Nat) :
    MergedHints aFactors factors (mergeHints 48 aFactors (sortFactors factors)) := by
  refine ⟨List.merge aFactors (sortFactors factors), ?_, ?_, mergeHints_eq 48 _ _⟩
  · exact (List.merge_perm_append _).trans ((sortFactors_perm factors).append_left aFactors)
  · intro ascending
    have sorted := @List.pairwise_merge Nat (fun x y => decide (x ≤ y))
      (by simpa using fun x y z : Nat => Nat.le_trans)
      (by simpa using Nat.le_total) aFactors (sortFactors factors)
      (by simpa using ascending) (by simpa using sortFactors_pairwise factors)
    simpa using sorted

/-! ## The machine -/

namespace CompactLaunch

variable (launch : CompactLaunch)

abbrev Thread := Fin launch.gridDim × Fin launch.blockDim

abbrev Candidate := Nat × Nat

def currentA : UInt512 := launch.batchAArray launch.stepIndex

def aFactors : List Nat :=
  (List.range launch.shcDim).map fun i =>
    launch.factorIndicesFlat (launch.stepIndex * launch.shcDim + i)

def relation (candidate : Candidate) : CandidateRelation :=
  launch.input (candidate.1 * launch.maxRelationsPerBlock + candidate.2)

def hints (candidate : Candidate) : List Nat :=
  let inRel := launch.relation candidate
  mergeHints 48 launch.aFactors (sortFactors (inRel.factors.take inRel.numFactors))

def cells (candidate : Candidate) : List Cell :=
  [.a, .b, .trueX] ++ (List.range (launch.hints candidate).length).map Cell.factorIndex ++
    [.numFactors]

def content (candidate : Candidate) : DenseSlot
  | .a => some launch.currentA
  | .b => some (launch.relation candidate).b
  | .trueX => some (launch.relation candidate).sieveOffset
  | .factorIndex k => (launch.hints candidate)[k]?
  | .numFactors => some (launch.hints candidate).length

/-- `next` is the loop index; `pending` are the stores left to slot `pos` for
candidate `index`. -/
structure ThreadState where
  next : Nat
  returned : Bool
  pos : Nat
  index : Nat
  pending : List Cell

structure State where
  counter : Nat
  output : Nat → DenseSlot
  threads : launch.Thread → ThreadState

def start (counter : Nat) : launch.State where
  counter := counter
  output _ _ := none
  threads thread := ⟨thread.2, false, 0, 0, []⟩

def Exited (thread : launch.Thread) (local_ : ThreadState) : Prop :=
  local_.returned = true ∨ launch.blockRelationCounts thread.1 ≤ local_.next

instance (thread : launch.Thread) (local_ : ThreadState) :
    Decidable (launch.Exited thread local_) := by
  unfold Exited
  infer_instance

def stored (state : launch.State) (thread : launch.Thread) (cell : Cell)
    (cells : List Cell) : launch.State :=
  let local_ := state.threads thread
  { state with
    output := Function.update state.output local_.pos
      (Function.update (state.output local_.pos) cell
        (launch.content (thread.1, local_.index) cell))
    threads := Function.update state.threads thread { local_ with pending := cells } }

def refused (state : launch.State) (thread : launch.Thread) : launch.State :=
  { state with
    counter := (state.counter + 1) % 2 ^ 32
    threads := Function.update state.threads thread
      { state.threads thread with returned := true } }

/-- A reservation below the capacity: the stores follow, unless the candidate
is skipped. -/
def reserved (state : launch.State) (thread : launch.Thread) : launch.State :=
  let local_ := state.threads thread
  let candidate := (thread.1.val, local_.next)
  let pending := if 32 < (launch.relation candidate).numFactors then []
    else launch.cells candidate
  { state with
    counter := (state.counter + 1) % 2 ^ 32
    threads := Function.update state.threads thread
      ⟨local_.next + launch.blockDim, false, state.counter, local_.next, pending⟩ }

/-- The next action of a thread: a pending store, or the reservation for its
next candidate, which emits the slot and the candidate. -/
def step (state : launch.State) (thread : launch.Thread) :
    launch.State × Option (Nat × Candidate) :=
  match (state.threads thread).pending with
  | cell :: cells => (launch.stored state thread cell cells, none)
  | [] =>
    if launch.Exited thread (state.threads thread) then (state, none)
    else if launch.maxCapacity ≤ state.counter then (launch.refused state thread, none)
    else (launch.reserved state thread,
      some (state.counter, (thread.1.val, (state.threads thread).next)))

def Finished (state : launch.State) : Prop :=
  ∀ thread, (state.threads thread).pending = [] ∧ launch.Exited thread (state.threads thread)

/-! ## What the next stage relies on -/

structure Holds (slot : DenseSlot) (candidate : Candidate) : Prop where
  a : slot .a = some launch.currentA
  b : slot .b = some (launch.relation candidate).b
  trueX : slot .trueX = some (launch.relation candidate).sieveOffset
  hints : ∃ hints : List Nat, MergedHints launch.aFactors
      ((launch.relation candidate).factors.take (launch.relation candidate).numFactors)
      hints ∧
    slot .numFactors = some hints.length ∧
    ∀ k, slot (.factorIndex k) = hints[k]?

/-- The slots counted by the launch hold distinct candidates, and no other slot
was written. -/
def Compacted (counter : Nat) (state : launch.State) : Prop :=
  ∃ source : Nat → Candidate,
    (∀ slot, counter ≤ slot → slot < min state.counter launch.maxCapacity →
      (source slot).1 < launch.gridDim ∧
      (source slot).2 < launch.blockRelationCounts (source slot).1 ∧
      launch.Holds (state.output slot) (source slot)) ∧
    (∀ left right, counter ≤ left → left < min state.counter launch.maxCapacity →
      counter ≤ right → right < min state.counter launch.maxCapacity →
      source left = source right → left = right) ∧
    ∀ slot, ¬ (counter ≤ slot ∧ slot < min state.counter launch.maxCapacity) →
      state.output slot = fun _ => none

/-! ## The invariant of a launch -/

def Reserves (state : launch.State) (thread : launch.Thread) : Prop :=
  (state.threads thread).pending = [] ∧ ¬ launch.Exited thread (state.threads thread)

def CounterFits (state : launch.State) (thread : launch.Thread) : Prop :=
  launch.Reserves state thread → state.counter + 1 < 2 ^ 32

def ReservationFits (state : launch.State) (thread : launch.Thread) : Prop :=
  launch.Reserves state thread → state.counter < launch.maxCapacity →
    (launch.relation (thread.1, (state.threads thread).next)).numFactors ≤ 32

theorem step_cases (state : launch.State) (thread : launch.Thread) :
    (¬ launch.Reserves state thread ∧ launch.step state thread = (state, none)) ∨
      (∃ cell cells, (state.threads thread).pending = cell :: cells ∧
        launch.step state thread = (launch.stored state thread cell cells, none)) ∨
      (launch.Reserves state thread ∧ launch.maxCapacity ≤ state.counter ∧
        launch.step state thread = (launch.refused state thread, none)) ∨
      (launch.Reserves state thread ∧ state.counter < launch.maxCapacity ∧
        launch.step state thread = (launch.reserved state thread,
          some (state.counter, (thread.1.val, (state.threads thread).next)))) := by
  cases pending : (state.threads thread).pending with
  | cons cell cells =>
    refine Or.inr (Or.inl ⟨cell, cells, rfl, ?_⟩)
    rw [step, pending]
  | nil =>
    have unfolded : launch.step state thread =
        if launch.Exited thread (state.threads thread) then (state, none)
        else if launch.maxCapacity ≤ state.counter then (launch.refused state thread, none)
        else (launch.reserved state thread,
          some (state.counter, (thread.1.val, (state.threads thread).next))) := by
      rw [step, pending]
    rw [unfolded]
    split
    next exited => exact Or.inl ⟨fun reserves => reserves.2 exited, rfl⟩
    next running =>
        split
        next full => exact Or.inr (Or.inr (Or.inl ⟨⟨pending, running⟩, full, rfl⟩))
        next room =>
            exact Or.inr (Or.inr (Or.inr ⟨⟨pending, running⟩, Nat.not_le.mp room, rfl⟩))

/-- The reservations so far, one slot after the other from `counter`, and what
has reached the output. -/
structure Invariant (counter : Nat) (state : launch.State)
    (log : List (Nat × Candidate)) : Prop where
  counter_le : counter ≤ state.counter
  length : log.length = min state.counter launch.maxCapacity - counter
  positions : ∀ k (inside : k < log.length), log[k].1 = counter + k
  distinct : (log.map Prod.snd).Nodup
  entries : ∀ entry ∈ log, ∃ thread : launch.Thread, entry.2.1 = thread.1 ∧
    entry.2.2 % launch.blockDim = thread.2 ∧
    entry.2.2 < launch.blockRelationCounts thread.1 ∧
    entry.2.2 < (state.threads thread).next
  next : ∀ thread, (state.threads thread).next % launch.blockDim = thread.2
  writing : ∀ thread, (state.threads thread).pending ≠ [] →
    ((state.threads thread).pos, (thread.1.val, (state.threads thread).index)) ∈ log ∧
      (launch.relation (thread.1, (state.threads thread).index)).numFactors ≤ 32
  complete : ∀ entry ∈ log, (launch.relation entry.2).numFactors ≤ 32 → ∀ cell,
    state.output entry.1 cell = launch.content entry.2 cell ∨
      ∃ thread, (state.threads thread).pos = entry.1 ∧ cell ∈ (state.threads thread).pending
  skipped : ∀ entry ∈ log, 32 < (launch.relation entry.2).numFactors →
    state.output entry.1 = fun _ => none
  untouched : ∀ slot, ¬ (counter ≤ slot ∧ slot < counter + log.length) →
    state.output slot = fun _ => none

variable {launch}

theorem Invariant.start (counter : Nat) : launch.Invariant counter (launch.start counter) [] := by
  constructor
  · exact Nat.le_refl counter
  · have bound : min counter launch.maxCapacity ≤ counter := Nat.min_le_left _ _
    exact (Nat.sub_eq_zero_of_le bound).symm
  · intro k inside
    exact absurd inside (Nat.not_lt_zero k)
  · exact List.nodup_nil
  · intro entry member
    exact absurd member List.not_mem_nil
  · intro thread
    exact Nat.mod_eq_of_lt thread.2.isLt
  · intro thread pending
    exact absurd rfl pending
  · intro entry member
    exact absurd member List.not_mem_nil
  · intro entry member
    exact absurd member List.not_mem_nil
  · intro slot _
    rfl

theorem Invariant.entry_unique {counter : Nat} {state : launch.State}
    {log : List (Nat × Candidate)} (invariant : launch.Invariant counter state log)
    {left right : Nat × Candidate} (leftMember : left ∈ log) (rightMember : right ∈ log)
    (same : left.1 = right.1) : left = right := by
  rcases List.getElem_of_mem leftMember with ⟨i, iInside, rfl⟩
  rcases List.getElem_of_mem rightMember with ⟨j, jInside, rfl⟩
  rw [invariant.positions i iInside, invariant.positions j jInside] at same
  have equal : i = j := by omega
  cases equal
  rfl

theorem Invariant.position_lt {counter : Nat} {state : launch.State}
    {log : List (Nat × Candidate)} (invariant : launch.Invariant counter state log)
    {entry : Nat × Candidate} (member : entry ∈ log) :
    counter ≤ entry.1 ∧ entry.1 < counter + log.length := by
  rcases List.getElem_of_mem member with ⟨k, inside, rfl⟩
  rw [invariant.positions k inside]
  omega

theorem content_of_not_mem_cells {candidate : Candidate} {cell : Cell}
    (absent : cell ∉ launch.cells candidate) : launch.content candidate cell = none := by
  cases cell with
  | a => exact absurd (by simp [cells]) absent
  | b => exact absurd (by simp [cells]) absent
  | trueX => exact absurd (by simp [cells]) absent
  | numFactors => exact absurd (by simp [cells]) absent
  | factorIndex k =>
    rw [content]
    apply List.getElem?_eq_none
    apply Nat.not_lt.mp
    intro inside
    apply absent
    simp only [cells, List.mem_append, List.mem_map, List.mem_range]
    exact Or.inl (Or.inr ⟨k, inside, rfl⟩)

/-! ## What each move preserves -/

section Moves

variable {counter : Nat} {state : launch.State} {log : List (Nat × Candidate)}
  {thread : launch.Thread}

theorem Invariant.stored {cell : Cell} {cells : List Cell}
    (invariant : launch.Invariant counter state log)
    (pending : (state.threads thread).pending = cell :: cells) :
    launch.Invariant counter (launch.stored state thread cell cells) log := by
  have nonempty : (state.threads thread).pending ≠ [] := by
    rw [pending]
    exact List.cons_ne_nil cell cells
  rcases invariant.writing thread nonempty with ⟨written, small⟩
  have threads : ∀ other, (launch.stored state thread cell cells).threads other =
      if other = thread then { state.threads thread with pending := cells }
      else state.threads other := by
    intro other
    exact Function.update_apply _ _ _ _
  have elsewhere : ∀ slot, slot ≠ (state.threads thread).pos →
      (launch.stored state thread cell cells).output slot = state.output slot := by
    intro slot different
    exact Function.update_of_ne different _ _
  have next_eq : ∀ other, ((launch.stored state thread cell cells).threads other).next =
      (state.threads other).next := by
    intro other
    rw [threads]
    split
    next same => rw [same]
    next => rfl
  constructor
  · exact invariant.counter_le
  · exact invariant.length
  · exact invariant.positions
  · exact invariant.distinct
  · intro entry member
    rcases invariant.entries entry member with ⟨owner, block, residue, inside, passed⟩
    refine ⟨owner, block, residue, inside, ?_⟩
    rw [next_eq]
    exact passed
  · intro other
    rw [next_eq]
    exact invariant.next other
  · intro other
    rw [threads]
    split
    next same =>
        intro _
        rw [same]
        exact ⟨written, small⟩
    next => exact invariant.writing other
  · intro entry member few other
    by_cases place : entry.1 = (state.threads thread).pos
    · have same : entry = _ := invariant.entry_unique member written place
      have output : (launch.stored state thread cell cells).output entry.1 =
          Function.update (state.output entry.1) cell (launch.content entry.2 cell) := by
        rw [place, same]
        exact Function.update_self _ _ _
      rw [output]
      by_cases target : other = cell
      · rw [target, Function.update_self]
        exact Or.inl rfl
      · rw [Function.update_of_ne target]
        rcases invariant.complete entry member few other with done | ⟨owner, pos, waiting⟩
        · exact Or.inl done
        · refine Or.inr ⟨owner, ?_⟩
          rw [threads]
          split
          next mine =>
              rw [mine, pending] at waiting
              rw [mine] at pos
              exact ⟨pos, (List.mem_cons.mp waiting).resolve_left target⟩
          next => exact ⟨pos, waiting⟩
    · rw [elsewhere _ place]
      rcases invariant.complete entry member few other with done | ⟨owner, pos, waiting⟩
      · exact Or.inl done
      · have different : owner ≠ thread := by
          intro mine
          rw [mine] at pos
          exact place pos.symm
        refine Or.inr ⟨owner, ?_⟩
        rw [threads, if_neg different]
        exact ⟨pos, waiting⟩
  · intro entry member many
    have place : entry.1 ≠ (state.threads thread).pos := by
      intro place
      have same := invariant.entry_unique member written place
      rw [same] at many
      exact absurd small (Nat.not_le.mpr many)
    rw [elsewhere _ place]
    exact invariant.skipped entry member many
  · intro slot outside
    have place : slot ≠ (state.threads thread).pos := by
      intro place
      rw [place] at outside
      exact outside (invariant.position_lt written)
    rw [elsewhere _ place]
    exact invariant.untouched slot outside

theorem Invariant.refused (invariant : launch.Invariant counter state log)
    (full : launch.maxCapacity ≤ state.counter)
    (fits : state.counter + 1 < 2 ^ 32) :
    launch.Invariant counter (launch.refused state thread) log := by
  have counter_eq : (launch.refused state thread).counter = state.counter + 1 :=
    Nat.mod_eq_of_lt fits
  have threads : ∀ other, (launch.refused state thread).threads other =
      if other = thread then { state.threads thread with returned := true }
      else state.threads other := by
    intro other
    exact Function.update_apply _ _ _ _
  have next_eq : ∀ other, ((launch.refused state thread).threads other).next =
      (state.threads other).next := by
    intro other
    rw [threads]
    split
    next same => rw [same]
    next => rfl
  have writing_eq : ∀ other, ((launch.refused state thread).threads other).pending =
        (state.threads other).pending ∧
      ((launch.refused state thread).threads other).pos = (state.threads other).pos ∧
      ((launch.refused state thread).threads other).index = (state.threads other).index := by
    intro other
    rw [threads]
    split
    next same =>
        rw [same]
        exact ⟨rfl, rfl, rfl⟩
    next => exact ⟨rfl, rfl, rfl⟩
  constructor
  · rw [counter_eq]
    exact invariant.counter_le.trans (Nat.le_succ _)
  · have same : min (state.counter + 1) launch.maxCapacity =
        min state.counter launch.maxCapacity := by omega
    rw [counter_eq, same]
    exact invariant.length
  · exact invariant.positions
  · exact invariant.distinct
  · intro entry member
    rcases invariant.entries entry member with ⟨owner, block, residue, inside, passed⟩
    refine ⟨owner, block, residue, inside, ?_⟩
    rw [next_eq]
    exact passed
  · intro other
    rw [next_eq]
    exact invariant.next other
  · intro other
    rcases writing_eq other with ⟨pending, pos, index⟩
    rw [pending, pos, index]
    exact invariant.writing other
  · intro entry member few cell
    rcases invariant.complete entry member few cell with done | ⟨owner, pos, waiting⟩
    · exact Or.inl done
    · rcases writing_eq owner with ⟨pending', pos', _⟩
      refine Or.inr ⟨owner, ?_⟩
      rw [pending', pos']
      exact ⟨pos, waiting⟩
  · exact invariant.skipped
  · exact invariant.untouched

theorem Invariant.fresh (invariant : launch.Invariant counter state log) :
    (thread.1.val, (state.threads thread).next) ∉ log.map Prod.snd := by
  intro member
  rcases List.mem_map.mp member with ⟨entry, entryMember, same⟩
  rcases invariant.entries entry entryMember with ⟨owner, block, residue, _, passed⟩
  rw [same] at block residue passed
  have owned : owner = thread := by
    apply Prod.ext
    · exact Fin.ext block.symm
    · apply Fin.ext
      rw [← residue]
      exact invariant.next thread
  rw [owned] at passed
  exact Nat.lt_irrefl _ passed

theorem Invariant.reserved (invariant : launch.Invariant counter state log)
    (reserves : launch.Reserves state thread) (room : state.counter < launch.maxCapacity)
    (fits : state.counter + 1 < 2 ^ 32) :
    launch.Invariant counter (launch.reserved state thread)
      (log ++ [(state.counter, (thread.1.val, (state.threads thread).next))]) := by
  rcases reserves with ⟨idle, running⟩
  have counter_eq : (launch.reserved state thread).counter = state.counter + 1 :=
    Nat.mod_eq_of_lt fits
  have counter_le := invariant.counter_le
  have length : log.length = state.counter - counter := by
    rw [invariant.length, Nat.min_eq_left room.le]
  have inside : (state.threads thread).next < launch.blockRelationCounts thread.1 :=
    Nat.not_le.mp (fun passed => running (Or.inr passed))
  have positive : 0 < launch.blockDim := Nat.zero_lt_of_lt thread.2.isLt
  have threads : ∀ other, other ≠ thread →
      (launch.reserved state thread).threads other = state.threads other := by
    intro other different
    exact Function.update_of_ne different _ _
  have mine : (launch.reserved state thread).threads thread =
      ⟨(state.threads thread).next + launch.blockDim, false, state.counter,
        (state.threads thread).next,
        if 32 < (launch.relation (thread.1.val, (state.threads thread).next)).numFactors
        then [] else launch.cells (thread.1.val, (state.threads thread).next)⟩ :=
    Function.update_self _ _ _
  have unwritten : state.output state.counter = fun _ => none :=
    invariant.untouched state.counter (by omega)
  constructor
  · rw [counter_eq]
    omega
  · rw [counter_eq, List.length_append, List.length_singleton]
    omega
  · intro k bound
    rw [List.length_append, List.length_singleton] at bound
    rcases Nat.lt_or_ge k log.length with old | new
    · rw [List.getElem_append_left old]
      exact invariant.positions k old
    · have last : k = log.length := by omega
      rw [List.getElem_append_right new]
      simp only [last, Nat.sub_self, List.getElem_cons_zero]
      omega
  · rw [List.map_append, List.nodup_append]
    refine ⟨invariant.distinct, List.pairwise_singleton _ _, ?_⟩
    intro candidate member other singleton
    rw [List.map_singleton, List.mem_singleton] at singleton
    intro same
    rw [same, singleton] at member
    exact invariant.fresh member
  · intro entry member
    rcases List.mem_append.mp member with old | new
    · rcases invariant.entries entry old with ⟨owner, block, residue, bound, passed⟩
      refine ⟨owner, block, residue, bound, ?_⟩
      by_cases same : owner = thread
      · rw [same] at passed ⊢
        rw [mine]
        exact passed.trans_le (Nat.le_add_right _ _)
      · rw [threads owner same]
        exact passed
    · rw [List.mem_singleton] at new
      rw [new]
      refine ⟨thread, rfl, invariant.next thread, inside, ?_⟩
      rw [mine]
      exact Nat.lt_add_of_pos_right positive
  · intro other
    by_cases same : other = thread
    · rw [same, mine]
      exact (Nat.add_mod_right _ _).trans (invariant.next thread)
    · rw [threads other same]
      exact invariant.next other
  · intro other
    by_cases same : other = thread
    · rw [same, mine]
      intro pending
      refine ⟨List.mem_append_right _ (List.mem_singleton.mpr rfl), ?_⟩
      by_contra many
      exact pending (if_pos (Nat.not_le.mp many))
    · rw [threads other same]
      intro pending
      rcases invariant.writing other pending with ⟨member, small⟩
      exact ⟨List.mem_append_left _ member, small⟩
  · intro entry member few cell
    rcases List.mem_append.mp member with old | new
    · rcases invariant.complete entry old few cell with done | ⟨owner, pos, waiting⟩
      · exact Or.inl done
      · have different : owner ≠ thread := by
          intro same
          rw [same, idle] at waiting
          exact List.not_mem_nil waiting
        refine Or.inr ⟨owner, ?_⟩
        rw [threads owner different]
        exact ⟨pos, waiting⟩
    · rw [List.mem_singleton] at new
      rw [new] at few ⊢
      by_cases listed : cell ∈ launch.cells (thread.1.val, (state.threads thread).next)
      · refine Or.inr ⟨thread, ?_⟩
        rw [mine, if_neg (Nat.not_lt.mpr few)]
        exact ⟨rfl, listed⟩
      · rw [content_of_not_mem_cells listed]
        exact Or.inl (congrFun unwritten cell)
  · intro entry member many
    rcases List.mem_append.mp member with old | new
    · exact invariant.skipped entry old many
    · rw [List.mem_singleton] at new
      rw [new]
      exact unwritten
  · intro slot outside
    apply invariant.untouched slot
    intro within
    apply outside
    rw [List.length_append, List.length_singleton]
    omega

theorem Invariant.step (invariant : launch.Invariant counter state log)
    (fits : launch.CounterFits state thread) :
    launch.Invariant counter (launch.step state thread).1
      (log ++ (launch.step state thread).2.toList) := by
  rcases launch.step_cases state thread with
    ⟨_, idle⟩ | ⟨cell, cells, pending, store⟩ | ⟨reserves, full, refuse⟩ |
      ⟨reserves, room, reserve⟩
  · rw [idle, Option.toList_none, List.append_nil]
    exact invariant
  · rw [store, Option.toList_none, List.append_nil]
    exact invariant.stored pending
  · rw [refuse, Option.toList_none, List.append_nil]
    exact invariant.refused full (fits reserves)
  · rw [reserve, Option.toList_some]
    exact invariant.reserved reserves room (fits reserves)

end Moves

/-! ## The end of a launch -/

theorem reservationFits_iff (state : launch.State) (thread : launch.Thread) :
    launch.ReservationFits state thread ↔
      ∀ entry ∈ (launch.step state thread).2, (launch.relation entry.2).numFactors ≤ 32 := by
  rcases launch.step_cases state thread with
    ⟨waits, idle⟩ | ⟨cell, cells, pending, store⟩ | ⟨reserves, full, refuse⟩ |
      ⟨reserves, room, reserve⟩
  · rw [idle]
    constructor
    · intro _ entry member
      cases member
    · intro _ reserves
      exact absurd reserves waits
  · rw [store]
    constructor
    · intro _ entry member
      cases member
    · intro _ reserves
      rw [Reserves, pending] at reserves
      exact absurd reserves.1 (List.cons_ne_nil cell cells)
  · rw [refuse]
    constructor
    · intro _ entry member
      cases member
    · intro _ _ room
      exact absurd full (Nat.not_le.mpr room)
  · rw [reserve]
    constructor
    · intro fits entry member
      cases member
      exact fits reserves room
    · intro good _ _
      exact good _ rfl

private theorem holds_content (candidate : Candidate) :
    launch.Holds (launch.content candidate) candidate where
  a := rfl
  b := rfl
  trueX := rfl
  hints := ⟨launch.hints candidate, mergeHints_merged _ _, rfl, fun _ => rfl⟩

/-- In a launch whose counter does not wrap, the counted slots hold the
candidates exactly if no slot was reserved for a candidate that is skipped. -/
theorem compacted_iff (launch : CompactLaunch) (counter : Nat) (schedule : List launch.Thread)
    (noWrap : Guarded launch.step launch.CounterFits (launch.start counter) schedule)
    (finished : launch.Finished (emitRun launch.step (launch.start counter) schedule).1) :
    launch.Compacted counter (emitRun launch.step (launch.start counter) schedule).1 ↔
      Guarded launch.step launch.ReservationFits (launch.start counter) schedule := by
  have invariant := emitRun_invariant
    (fun state log thread fits invariant => Invariant.step invariant fits)
    (Invariant.start counter) noWrap
  rw [guarded_iff_outputs reservationFits_iff]
  rw [List.nil_append] at invariant
  generalize emitRun launch.step (launch.start counter) schedule = ended at finished invariant ⊢
  rcases ended with ⟨state, log⟩
  dsimp only at finished invariant ⊢
  have length := invariant.length
  constructor
  · rintro ⟨source, held, _, _⟩ entry member
    by_contra many
    have place := invariant.position_lt member
    have holds := (held entry.1 place.1 (by omega)).2.2
    rw [invariant.skipped entry member (Nat.not_le.mp many)] at holds
    cases holds.a
  · intro good
    have settled : ∀ entry ∈ log, state.output entry.1 = launch.content entry.2 := by
      intro entry member
      funext cell
      rcases invariant.complete entry member (good entry member) cell with
        done | ⟨thread, _, waiting⟩
      · exact done
      · rw [(finished thread).1] at waiting
        exact absurd waiting List.not_mem_nil
    refine ⟨fun slot => (log.getD (slot - counter) (0, (0, 0))).2, ?_, ?_, ?_⟩
    · intro slot low high
      have inside : slot - counter < log.length := by omega
      have member := List.getElem_mem inside
      have place : slot = log[slot - counter].1 := by
        rw [invariant.positions _ inside]
        omega
      have holds : launch.Holds (state.output log[slot - counter].1) log[slot - counter].2 := by
        rw [settled _ member]
        exact holds_content _
      rw [← place] at holds
      rcases invariant.entries _ member with ⟨thread, block, _, bound, _⟩
      dsimp only
      rw [List.getD_eq_getElem _ _ inside, block]
      exact ⟨thread.1.isLt, bound, holds⟩
    · intro left right leftLow leftHigh rightLow rightHigh same
      have leftInside : left - counter < log.length := by omega
      have rightInside : right - counter < log.length := by omega
      dsimp only at same
      rw [List.getD_eq_getElem _ _ leftInside, List.getD_eq_getElem _ _ rightInside] at same
      have leftMap : left - counter < (log.map Prod.snd).length := by
        rw [List.length_map]
        exact leftInside
      have rightMap : right - counter < (log.map Prod.snd).length := by
        rw [List.length_map]
        exact rightInside
      have candidates : (log.map Prod.snd)[left - counter] =
          (log.map Prod.snd)[right - counter] := by
        rw [List.getElem_map, List.getElem_map]
        exact same
      have places := invariant.distinct.getElem_inj_iff.mp candidates
      omega
    · intro slot outside
      apply invariant.untouched slot
      omega

def twoThreads : CompactLaunch where
  gridDim := 1
  blockDim := 2
  input i := ⟨UInt512.ofUInt32 5, BitVec.ofNat 32 i, 1, [3]⟩
  maxRelationsPerBlock := 2
  batchAArray _ := UInt512.ofUInt32 11
  factorIndicesFlat _ := 2
  stepIndex := 0
  shcDim := 1
  blockRelationCounts _ := 2
  maxCapacity := 10

def alternating : List twoThreads.Thread :=
  (List.replicate 7 [(⟨0, by decide⟩, ⟨1, by decide⟩), (⟨0, by decide⟩, ⟨0, by decide⟩)]).flatten

theorem compacted_iff_alternating :
    twoThreads.Compacted 0 (emitRun twoThreads.step (twoThreads.start 0) alternating).1 ∧
      (emitRun twoThreads.step (twoThreads.start 0) alternating).1.counter = 2 := by
  have noWrap : Guarded twoThreads.step twoThreads.CounterFits (twoThreads.start 0)
      alternating := by
    refine ⟨?_, ?_, ?_, ?_, ?_, ?_, ?_, ?_, ?_, ?_, ?_, ?_, ?_, ?_, trivial⟩
    all_goals
      intro _
      decide
  have fits : Guarded twoThreads.step twoThreads.ReservationFits (twoThreads.start 0)
      alternating := by
    refine ⟨?_, ?_, ?_, ?_, ?_, ?_, ?_, ?_, ?_, ?_, ?_, ?_, ?_, ?_, trivial⟩
    all_goals
      intro _ _
      decide
  have finished : twoThreads.Finished
      (emitRun twoThreads.step (twoThreads.start 0) alternating).1 := by
    rintro ⟨⟨block, blockBound⟩, ⟨thread, threadBound⟩⟩
    change block < 1 at blockBound
    obtain rfl := Nat.lt_one_iff.mp blockBound
    match thread, threadBound with
    | 0, _ => exact ⟨rfl, Or.inr (show 2 ≤ 2 from Nat.le_refl 2)⟩
    | 1, _ => exact ⟨rfl, Or.inr (show 2 ≤ 3 from Nat.le_succ 2)⟩
  exact ⟨(compacted_iff twoThreads 0 alternating noWrap finished).mpr fits, rfl⟩

def single (numFactors : Nat) : CompactLaunch where
  gridDim := 1
  blockDim := 1
  input _ := ⟨UInt512.ofUInt32 5, 7, numFactors, List.replicate 32 3⟩
  maxRelationsPerBlock := 1
  batchAArray _ := UInt512.ofUInt32 11
  factorIndicesFlat _ := 2
  stepIndex := 0
  shcDim := 1
  blockRelationCounts _ := 1
  maxCapacity := 10

def onlyThread (numFactors : Nat) : (single numFactors).Thread :=
  (⟨0, Nat.one_pos⟩, ⟨0, Nat.one_pos⟩)

private theorem eq_onlyThread (numFactors : Nat) (thread : (single numFactors).Thread) :
    thread = onlyThread numFactors :=
  @Subsingleton.elim (Fin 1 × Fin 1) _ _ _

/-- A candidate with 33 hints is counted, and its slot is not written. -/
theorem not_compacted_single :
    (single 33).Finished (emitRun (single 33).step ((single 33).start 0) [onlyThread 33]).1 ∧
      ¬ (single 33).Compacted 0
        (emitRun (single 33).step ((single 33).start 0) [onlyThread 33]).1 := by
  constructor
  · intro thread
    rw [eq_onlyThread _ thread]
    exact ⟨rfl, Or.inr (by decide)⟩
  · rintro ⟨source, held, _, _⟩
    have holds := (held 0 (by decide) (by decide)).2.2
    cases holds.a

end CompactLaunch

end CudaMpqs
