import Mathlib.Algebra.GroupWithZero.Nat
import CudaMpqs.Cluster.WorkPool

/-! # Conservation of work

A ledger runs the pool and records beside it which units were issued and which
were completed. The range of the pool is at every moment partitioned among the
completed units, the chunks in flight, the returned units and the tail the
linear cursor has not reached. -/

namespace CudaMpqs

open CudaMpqs.Interval

namespace WorkPool

inductive Operation where
  | checkoutWork (count workerId : Nat)
  | completeChunk (chunkId : Nat)
  | returnChunk (chunkId : Nat)
  | reclaimWork (workerId : Nat)
  | reclaimPartial (chunkId consumedCount : Nat)
deriving DecidableEq

def inFlightUnits (pool : WorkPool) : List WorkUnit :=
  pool.inFlightChunks.map (·.unit)

def tail (pool : WorkPool) : WorkUnit :=
  ⟨pool.next, pool.endCursor - pool.next⟩

structure Ledger where
  pool : WorkPool
  issued : List WorkUnit
  completed : List WorkUnit

namespace Ledger

def start (pool : WorkPool) : Ledger := ⟨pool, [], []⟩

/-- Completing a chunk completes its unit; recalling one completes the part that
was consumed. -/
def apply (ledger : Ledger) : Operation → Ledger
  | .checkoutWork count workerId =>
    let result := ledger.pool.checkoutWork count workerId
    { ledger with
      pool := result.2
      issued := ledger.issued ++ (result.1.map (·.unit)).toList }
  | .completeChunk chunkId =>
    { ledger with
      pool := ledger.pool.completeChunk chunkId
      completed := ledger.completed ++
        ((ledger.pool.findChunk chunkId).map (·.unit)).toList }
  | .returnChunk chunkId =>
    { ledger with pool := (ledger.pool.returnChunk chunkId).2 }
  | .reclaimWork workerId =>
    { ledger with pool := (ledger.pool.reclaimWork workerId).2 }
  | .reclaimPartial chunkId consumedCount =>
    { ledger with
      pool := ledger.pool.reclaimPartial chunkId consumedCount
      completed := ledger.completed ++
        ((ledger.pool.findChunk chunkId).map fun chunk =>
          consumedPart chunk.unit consumedCount).toList }

def run (ledger : Ledger) (operations : List Operation) : Ledger :=
  Transition.run apply ledger operations

def accounted (ledger : Ledger) (index : Nat) : Nat :=
  coverage ledger.completed index + coverage ledger.pool.inFlightUnits index +
    coverage ledger.pool.returned index + coverage [ledger.pool.tail] index

end Ledger

/-! ## What one operation preserves -/

/-- Every live unit ends below the end cursor, so no cursor sum wraps. -/
structure Bounded (aStart : Nat) (pool : WorkPool) : Prop where
  inFlight : ∀ unit ∈ pool.inFlightUnits, unit.start + unit.count ≤ pool.endCursor
  returned : ∀ unit ∈ pool.returned, unit.start + unit.count ≤ pool.endCursor
  startLe : aStart ≤ pool.next
  nextLe : pool.next ≤ max aStart pool.endCursor
  endLt : pool.endCursor < 2 ^ 64

variable {aStart : Nat} {pool : WorkPool}

theorem wrap64_of_le {number limit : Nat} (le : number ≤ limit)
    (bound : limit < 2 ^ 64) : wrap64 number = number :=
  Nat.mod_eq_of_lt (by omega)

@[simp] theorem inFlightUnits_track (unit : WorkUnit) (workerId : Nat) :
    (pool.track unit workerId).2.inFlightUnits = pool.inFlightUnits ++ [unit] := by
  simp [track, inFlightUnits]

variable {unit : WorkUnit}

theorem Bounded.track (bounded : Bounded aStart pool)
    (unitBound : unit.start + unit.count ≤ pool.endCursor) (workerId : Nat) :
    Bounded aStart (pool.track unit workerId).2 where
  inFlight := by
    intro item member
    rw [inFlightUnits_track] at member
    rcases List.mem_append.mp member with member | member
    · exact bounded.inFlight item member
    · rw [List.mem_singleton.mp member]
      exact unitBound
  returned := bounded.returned
  startLe := bounded.startLe
  nextLe := bounded.nextLe
  endLt := bounded.endLt

/-- What a checkout can do: split the last returned unit, hand it out whole,
fail on an exhausted pool, or advance the linear cursor. -/
theorem checkoutWork_cases (pool : WorkPool) (count workerId : Nat) :
    (∃ rest unit, pool.returned = rest ++ [unit] ∧ count < unit.count ∧
      pool.checkoutWork count workerId =
        track { pool with
          returned := rest ++
            [⟨wrap64 (unit.start + count), unit.count - count⟩] }
          ⟨unit.start, count⟩ workerId) ∨
    (∃ rest unit, pool.returned = rest ++ [unit] ∧ unit.count ≤ count ∧
      pool.checkoutWork count workerId =
        track { pool with returned := rest } unit workerId) ∨
    (pool.returned = [] ∧ pool.endCursor ≤ pool.next ∧
      pool.checkoutWork count workerId = (none, pool)) ∨
    (pool.returned = [] ∧ pool.next < pool.endCursor ∧ pool.checkoutWork count workerId =
        track { pool with
          next := wrap64 (pool.next + min count (pool.endCursor - pool.next)) }
          ⟨pool.next, min count (pool.endCursor - pool.next)⟩ workerId) := by
  rcases List.eq_nil_or_concat pool.returned with empty | ⟨rest, unit, concat⟩
  · by_cases finished : pool.endCursor ≤ pool.next
    · exact .inr (.inr (.inl ⟨empty, finished, by
        simp [checkoutWork, empty, finished]⟩))
    · exact .inr (.inr (.inr ⟨empty, Nat.lt_of_not_le finished, by
        simp [checkoutWork, empty, finished]⟩))
  · rw [List.concat_eq_append] at concat
    by_cases larger : count < unit.count
    · exact .inl ⟨rest, unit, concat, larger, by
        simp [checkoutWork, concat, larger]⟩
    · exact .inr (.inl ⟨rest, unit, concat, Nat.le_of_not_lt larger, by
        simp [checkoutWork, concat, larger]⟩)

/-- What an operation preserves: the bounds, the end of the range, and how
often each index is live or untouched, up to the units it retires. -/
structure Moves (aStart : Nat) (before after : WorkPool) (retired : List WorkUnit) :
    Prop where
  bounded : Bounded aStart after
  endCursor : after.endCursor = before.endCursor
  covered : ∀ index, coverage retired index + coverage after.inFlightUnits index +
        coverage after.returned index + coverage [after.tail] index =
      coverage before.inFlightUnits index + coverage before.returned index +
        coverage [before.tail] index

theorem Moves.refl (bounded : Bounded aStart pool) : Moves aStart pool pool [] :=
  ⟨bounded, rfl, fun index => by simp⟩

theorem Moves.track {before : WorkPool} (taken : Moves aStart before pool [unit])
    (unitBound : unit.start + unit.count ≤ pool.endCursor) (workerId : Nat) :
    Moves aStart before (pool.track unit workerId).2 [] where
  bounded := taken.bounded.track unitBound workerId
  endCursor := taken.endCursor
  covered := by
    intro index
    rw [inFlightUnits_track, coverage_append, coverage_nil, Nat.zero_add,
      ← taken.covered index, Nat.add_comm (coverage pool.inFlightUnits index)]
    rfl

theorem Moves.splitReturned (bounded : Bounded aStart pool) {rest : List WorkUnit} {count : Nat}
    (concat : pool.returned = rest ++ [unit]) (larger : count < unit.count) :
    Moves aStart pool { pool with returned := rest ++ [⟨unit.start + count, unit.count - count⟩] }
      [⟨unit.start, count⟩] where
  bounded := by
    refine ⟨bounded.inFlight, ?_, bounded.startLe, bounded.nextLe, bounded.endLt⟩
    intro item member
    rcases List.mem_append.mp member with member | member
    · exact bounded.returned item (by simp [concat, member])
    · have unitBound := bounded.returned unit (by simp [concat])
      rw [List.mem_singleton.mp member]
      show unit.start + count + (unit.count - count) ≤ pool.endCursor
      omega
  endCursor := rfl
  covered := by
    intro index
    have split := coverage_split unit.start count (unit.count - count) index
    rw [Nat.add_sub_cancel' (Nat.le_of_lt larger)] at split
    have whole : coverage pool.returned index = coverage rest index +
        coverage [⟨unit.start, unit.count⟩] index := by rw [concat, coverage_append]
    rw [whole, coverage_append, ← split]
    simp only [inFlightUnits, tail]
    omega

theorem Moves.takeReturned (bounded : Bounded aStart pool) {rest : List WorkUnit}
    (concat : pool.returned = rest ++ [unit]) :
    Moves aStart pool { pool with returned := rest } [unit] where
  bounded := by
    refine ⟨bounded.inFlight, ?_, bounded.startLe, bounded.nextLe, bounded.endLt⟩
    intro item member
    exact bounded.returned item (by simp [concat, member])
  endCursor := rfl
  covered := by
    intro index
    have whole : coverage pool.returned index =
        coverage rest index + coverage [unit] index := by
      rw [concat, coverage_append]
    rw [whole]
    simp only [inFlightUnits, tail]
    omega

theorem Moves.advance (bounded : Bounded aStart pool) {actual : Nat}
    (actualLe : actual ≤ pool.endCursor - pool.next)
    (pending : pool.next < pool.endCursor) :
    Moves aStart pool { pool with next := pool.next + actual }
      [⟨pool.next, actual⟩] where
  bounded := by
    have startLe := bounded.startLe
    refine ⟨bounded.inFlight, bounded.returned, ?_, ?_, bounded.endLt⟩
    · show aStart ≤ pool.next + actual
      omega
    · show pool.next + actual ≤ max aStart pool.endCursor
      omega
  endCursor := rfl
  covered := by
    intro index
    have split := coverage_split pool.next actual
      (pool.endCursor - (pool.next + actual)) index
    rw [show actual + (pool.endCursor - (pool.next + actual)) =
      pool.endCursor - pool.next by omega] at split
    simp only [inFlightUnits, tail]
    omega

theorem checkoutWork_moves (bounded : Bounded aStart pool) (count workerId : Nat) :
    Moves aStart pool (pool.checkoutWork count workerId).2 [] := by
  have endLt := bounded.endLt
  rcases checkoutWork_cases pool count workerId with
    ⟨rest, unit, concat, larger, result⟩ | ⟨rest, unit, concat, fits, result⟩ |
    ⟨empty, finished, result⟩ | ⟨empty, pending, result⟩
  · have unitBound := bounded.returned unit (by simp [concat])
    have unitFits : unit.start + count ≤ pool.endCursor := by omega
    rw [result, wrap64_of_le unitFits endLt]
    exact (Moves.splitReturned bounded concat larger).track unitFits workerId
  · rw [result]
    exact (Moves.takeReturned bounded concat).track
      (bounded.returned unit (by simp [concat])) workerId
  · rw [result]
    exact Moves.refl bounded
  · have actualLe : min count (pool.endCursor - pool.next) ≤
        pool.endCursor - pool.next := Nat.min_le_right _ _
    have fits : pool.next + min count (pool.endCursor - pool.next) ≤
        pool.endCursor := by omega
    rw [result, wrap64_of_le fits endLt]
    exact (Moves.advance bounded actualLe pending).track fits workerId

theorem checkoutWork_issues (bounded : Bounded aStart pool) (count workerId index : Nat) :
    coverage [pool.tail] index ≤ coverage [(pool.checkoutWork count workerId).2.tail] index +
        coverage ((pool.checkoutWork count workerId).1.map (·.unit)).toList
          index := by
  have endLt := bounded.endLt
  rcases checkoutWork_cases pool count workerId with
    ⟨rest, unit, concat, larger, result⟩ | ⟨rest, unit, concat, fits, result⟩ |
    ⟨empty, finished, result⟩ | ⟨empty, pending, result⟩
  · rw [result]
    exact Nat.le_add_right _ _
  · rw [result]
    exact Nat.le_add_right _ _
  · rw [result]
    exact Nat.le_add_right _ _
  · have fits : pool.next + min count (pool.endCursor - pool.next) ≤
        pool.endCursor := by omega
    have split := coverage_split pool.next
      (min count (pool.endCursor - pool.next))
      (pool.endCursor - (pool.next + min count (pool.endCursor - pool.next))) index
    rw [show min count (pool.endCursor - pool.next) +
      (pool.endCursor - (pool.next + min count (pool.endCursor - pool.next))) =
        pool.endCursor - pool.next by omega] at split
    rw [result, wrap64_of_le fits endLt]
    simp only [track, tail, Option.map_some, Option.toList_some]
    omega

theorem mem_inFlightUnits_eraseChunk {chunkId : Nat}
    (member : unit ∈ (pool.eraseChunk chunkId).inFlightUnits) : unit ∈ pool.inFlightUnits := by
  rcases List.mem_map.mp member with ⟨chunk, chunkMember, rfl⟩
  exact List.mem_map.mpr ⟨chunk, List.mem_of_mem_eraseP chunkMember, rfl⟩

theorem unit_mem_of_findChunk {chunkId : Nat} {chunk : CheckedOutWork}
    (found : pool.findChunk chunkId = some chunk) :
    chunk.unit ∈ pool.inFlightUnits :=
  List.mem_map.mpr ⟨chunk, List.mem_of_find?_eq_some found, rfl⟩

theorem completeChunk_moves (bounded : Bounded aStart pool) (chunkId : Nat) :
    Moves aStart pool (pool.completeChunk chunkId)
      ((pool.findChunk chunkId).map (·.unit)).toList where
  bounded :=
    ⟨fun _ member => bounded.inFlight _ (mem_inFlightUnits_eraseChunk member),
      bounded.returned, bounded.startLe, bounded.nextLe, bounded.endLt⟩
  endCursor := rfl
  covered := by
    intro index
    have erased := coverage_eraseP CheckedOutWork.unit (·.chunkId == chunkId)
      pool.inFlightChunks index
    simp only [inFlightUnits, erased]
    rfl

theorem Moves.giveBack {before : WorkPool} {retired : List WorkUnit}
    {start consumed remainder : Nat}
    (taken : Moves aStart before pool [⟨start, consumed + remainder⟩])
    (unitBound : start + (consumed + remainder) ≤ pool.endCursor)
    (retiredEqual : ∀ index, coverage retired index = coverage [⟨start, consumed⟩] index) :
    Moves aStart before { pool with returned := pool.returned ++ [⟨start + consumed, remainder⟩] }
      retired where
  bounded := by
    refine ⟨taken.bounded.inFlight, ?_, taken.bounded.startLe,
      taken.bounded.nextLe, taken.bounded.endLt⟩
    intro item member
    rcases List.mem_append.mp member with member | member
    · exact taken.bounded.returned item member
    · rw [List.mem_singleton.mp member]
      show start + consumed + remainder ≤ pool.endCursor
      omega
  endCursor := taken.endCursor
  covered := by
    intro index
    have covered := taken.covered index
    rw [← coverage_split] at covered
    rw [retiredEqual, coverage_append, ← covered]
    simp only [inFlightUnits, tail]
    omega

theorem findChunk_moves (bounded : Bounded aStart pool) {chunkId : Nat}
    {chunk : CheckedOutWork} (found : pool.findChunk chunkId = some chunk) :
    Moves aStart pool (pool.eraseChunk chunkId) [chunk.unit] := by
  have moves := completeChunk_moves bounded chunkId
  rwa [found] at moves

theorem returnChunk_moves (bounded : Bounded aStart pool) (chunkId : Nat) :
    Moves aStart pool (pool.returnChunk chunkId).2 [] := by
  rw [returnChunk]
  cases found : pool.findChunk chunkId with
  | none => exact Moves.refl bounded
  | some chunk =>
    have unitBound := bounded.inFlight _ (unit_mem_of_findChunk found)
    have taken := findChunk_moves bounded found
    rw [show chunk.unit = ⟨chunk.unit.start, 0 + chunk.unit.count⟩ by
      rw [Nat.zero_add]] at taken
    exact taken.giveBack (by rw [Nat.zero_add]; exact unitBound) fun index => by
      rw [coverage_nil, coverage_singleton, if_neg]
      intro contains
      exact absurd contains.2 (Nat.not_lt.mpr contains.1)

theorem reclaimPartial_moves (bounded : Bounded aStart pool) (chunkId consumedCount : Nat) :
    Moves aStart pool (pool.reclaimPartial chunkId consumedCount)
      ((pool.findChunk chunkId).map fun chunk =>
        consumedPart chunk.unit consumedCount).toList := by
  rw [reclaimPartial]
  cases found : pool.findChunk chunkId with
  | none => exact Moves.refl bounded
  | some chunk =>
    have unitBound := bounded.inFlight _ (unit_mem_of_findChunk found)
    have endLt := bounded.endLt
    have taken := findChunk_moves bounded found
    have consumedLe : min consumedCount chunk.unit.count ≤ chunk.unit.count :=
      Nat.min_le_right _ _
    dsimp only
    split
    · have fits : chunk.unit.start + min consumedCount chunk.unit.count ≤
          pool.endCursor := by omega
      rw [wrap64_of_le fits endLt]
      rw [show chunk.unit = ⟨chunk.unit.start, min consumedCount chunk.unit.count +
          (chunk.unit.count - min consumedCount chunk.unit.count)⟩ by
            rw [Nat.add_sub_cancel' consumedLe]] at taken
      exact taken.giveBack
        (by rw [Nat.add_sub_cancel' consumedLe]; exact unitBound) fun _ => rfl
    · have all : min consumedCount chunk.unit.count = chunk.unit.count := by
        omega
      rw [Option.map_some, consumedPart, all]
      exact taken

theorem reclaimWork_moves (bounded : Bounded aStart pool) (workerId : Nat) :
    Moves aStart pool (pool.reclaimWork workerId).2 [] where
  bounded := by
    refine ⟨?_, ?_, bounded.startLe, bounded.nextLe, bounded.endLt⟩
    · intro unit member
      rcases List.mem_map.mp member with ⟨chunk, chunkMember, rfl⟩
      exact bounded.inFlight _ (List.mem_map.mpr ⟨chunk, (List.mem_filter.mp chunkMember).1, rfl⟩)
    · intro unit member
      rcases List.mem_append.mp member with member | member
      · exact bounded.returned unit member
      · rcases List.mem_map.mp member with ⟨chunk, chunkMember, rfl⟩
        exact bounded.inFlight _ (List.mem_map.mpr
          ⟨chunk, (List.mem_filter.mp chunkMember).1, rfl⟩)
  endCursor := rfl
  covered := by
    intro index
    have separated := coverage_filter (fun chunk : CheckedOutWork => chunk.unit)
      (·.workerId == workerId) pool.inFlightChunks index
    simp only [reclaimWork, inFlightUnits, coverage_append, coverage_nil, tail, separated]
    omega

/-! ## Whole runs -/

structure Ledger.Conserves (aStart aEnd : Nat) (ledger : Ledger) : Prop where
  bounded : Bounded aStart ledger.pool
  endCursor : ledger.pool.endCursor = aEnd
  partitioned : ∀ index, ledger.accounted index = coverage [⟨aStart, aEnd - aStart⟩] index
  issued : ∀ index, coverage [⟨aStart, aEnd - aStart⟩] index ≤
    coverage ledger.issued index + coverage [ledger.pool.tail] index

variable {aEnd : Nat}

theorem Ledger.Conserves.of_moves {before after : Ledger} (conserves : before.Conserves aStart aEnd)
    {retired issued : List WorkUnit} (moves : Moves aStart before.pool after.pool retired)
    (completedEqual : after.completed = before.completed ++ retired)
    (issuedEqual : after.issued = before.issued ++ issued)
    (issues : ∀ index, coverage [before.pool.tail] index ≤
      coverage [after.pool.tail] index + coverage issued index) : after.Conserves aStart aEnd where
  bounded := moves.bounded
  endCursor := moves.endCursor.trans conserves.endCursor
  partitioned := by
    intro index
    have covered := moves.covered index
    have partitioned := conserves.partitioned index
    rw [accounted] at partitioned ⊢
    rw [completedEqual, coverage_append]
    omega
  issued := by
    intro index
    have before := conserves.issued index
    have moved := issues index
    rw [issuedEqual, coverage_append]
    omega

theorem Ledger.apply_conserves (ledger : Ledger) (operation : Operation)
    (conserves : ledger.Conserves aStart aEnd) :
    (ledger.apply operation).Conserves aStart aEnd := by
  have bounded := conserves.bounded
  have unissued : ledger.issued = ledger.issued ++ [] := by simp
  have uncompleted : ledger.completed = ledger.completed ++ [] := by simp
  cases operation with
  | checkoutWork count workerId =>
    exact conserves.of_moves (checkoutWork_moves bounded count workerId)
      uncompleted rfl (checkoutWork_issues bounded count workerId)
  | completeChunk chunkId =>
    exact conserves.of_moves (completeChunk_moves bounded chunkId) rfl unissued
      fun _ => Nat.le_refl _
  | returnChunk chunkId =>
    refine conserves.of_moves (returnChunk_moves bounded chunkId) uncompleted
      unissued fun index => ?_
    simp only [apply, returnChunk]
    split <;> exact Nat.le_refl _
  | reclaimWork workerId =>
    exact conserves.of_moves (reclaimWork_moves bounded workerId) uncompleted
      unissued fun _ => Nat.le_refl _
  | reclaimPartial chunkId consumedCount =>
    refine conserves.of_moves
      (reclaimPartial_moves bounded chunkId consumedCount) rfl unissued
      fun index => ?_
    simp only [apply, reclaimPartial]
    split <;> exact Nat.le_refl _

theorem Ledger.start_conserves (fresh : pool.inFlightChunks = [] ∧
    pool.returned = []) (nextEqual : pool.next = aStart)
    (endLt : pool.endCursor < 2 ^ 64) :
    (Ledger.start pool).Conserves aStart pool.endCursor where
  bounded := by
    refine ⟨?_, ?_, ?_, ?_, endLt⟩
    · simp [start, inFlightUnits, fresh.1]
    · simp [start, fresh.2]
    · exact Nat.le_of_eq nextEqual.symm
    · rw [start, nextEqual]
      exact Nat.le_max_left _ _
  endCursor := rfl
  partitioned := by
    intro index
    simp [start, accounted, inFlightUnits, fresh.1, fresh.2, tail, nextEqual]
  issued := by
    intro index
    simp [start, tail, nextEqual]

variable {ledger : Ledger}

theorem Ledger.run_conserves (conserves : ledger.Conserves aStart aEnd)
    (operations : List Operation) : (ledger.run operations).Conserves aStart aEnd :=
  Transition.run_invariant
    (fun state operation => apply_conserves state operation) conserves operations

theorem create_conserves (aStart totalA unitSize : Nat) :
    (Ledger.start (create aStart totalA unitSize)).Conserves aStart
      (create aStart totalA unitSize).endCursor :=
  Ledger.start_conserves ⟨rfl, rfl⟩ rfl (Nat.mod_lt _ (Nat.two_pow_pos 64))

/-- At every moment each index of the range is accounted for exactly once, and
no other index is. -/
theorem run_partition (aStart totalA unitSize : Nat) (operations : List Operation) (index : Nat) :
    let ledger := (Ledger.start (create aStart totalA unitSize)).run operations
    coverage ledger.completed index + coverage (ledger.pool.inFlightChunks.map (·.unit)) index +
        coverage ledger.pool.returned index +
        coverage [⟨ledger.pool.next, ledger.pool.endCursor - ledger.pool.next⟩] index =
      if aStart ≤ index ∧ index < (aStart + totalA) % 2 ^ 64 then 1 else 0 := by
  have conserves := Ledger.run_conserves (create_conserves aStart totalA unitSize)
    operations
  refine (conserves.partitioned index).trans ?_
  rw [coverage_singleton]
  congr 1
  simp only [Contains, create, wrap64]
  apply propext
  omega

/-! ## Checkpoint and resume -/

private theorem foldl_min_le {α : Type} (key : α → Nat) (items : List α) (bound : Nat) :
    items.foldl (fun cursor item => min cursor (key item)) bound ≤ bound ∧ ∀ item ∈ items,
        items.foldl (fun cursor item => min cursor (key item)) bound ≤ key item := by
  induction items generalizing bound with
  | nil => simp
  | cons head tail induction =>
    rcases induction (min bound (key head)) with ⟨boundLe, tailLe⟩
    refine ⟨boundLe.trans (Nat.min_le_left _ _), ?_⟩
    intro item member
    rcases List.mem_cons.mp member with rfl | member
    · exact boundLe.trans (Nat.min_le_right _ _)
    · exact tailLe item member

theorem completedPrefixCursor_le (pool : WorkPool) : pool.completedPrefixCursor ≤ pool.next ∧
      (∀ unit ∈ pool.inFlightUnits, pool.completedPrefixCursor ≤ unit.start) ∧
      ∀ unit ∈ pool.returned, pool.completedPrefixCursor ≤ unit.start := by
  have outer := foldl_min_le Interval.start pool.returned
    (pool.inFlightChunks.foldl (fun cursor chunk => min cursor chunk.unit.start) pool.next)
  have inner := foldl_min_le (fun chunk : CheckedOutWork => chunk.unit.start)
    pool.inFlightChunks pool.next
  refine ⟨outer.1.trans inner.1, ?_, outer.2⟩
  intro unit member
  rcases List.mem_map.mp member with ⟨chunk, chunkMember, rfl⟩
  exact outer.1.trans (inner.2 chunk chunkMember)

variable {index : Nat}

/-- Below the cursor nothing is live and nothing is untouched, so everything is
completed. -/
theorem Ledger.Conserves.completed_below_cursor (conserves : ledger.Conserves aStart aEnd)
    (above : aStart ≤ index) (below : index < ledger.pool.completedPrefixCursor) :
    ∃ unit ∈ ledger.completed, unit.Contains index := by
  rcases completedPrefixCursor_le ledger.pool with
    ⟨nextLe, inFlightLe, returnedLe⟩
  have bounded := conserves.bounded.nextLe
  have endCursor := conserves.endCursor
  have inFlight := coverage_eq_zero_of_start_gt
    fun unit member => below.trans_le (inFlightLe unit member)
  have returned := coverage_eq_zero_of_start_gt
    fun unit member => below.trans_le (returnedLe unit member)
  have untouched : coverage [ledger.pool.tail] index = 0 := by
    apply coverage_eq_zero_of_start_gt
    intro unit member
    rw [List.mem_singleton.mp member]
    exact below.trans_le nextLe
  have inside : coverage [⟨aStart, aEnd - aStart⟩] index = 1 :=
    coverage_range above (by omega)
  have partitioned := conserves.partitioned index
  rw [accounted, inFlight, returned, untouched, inside] at partitioned
  apply (coverage_pos_iff _ _).mp
  omega

theorem Ledger.Conserves.taken_cases (conserves : ledger.Conserves aStart aEnd)
    (above : aStart ≤ index) (taken : index < ledger.pool.next) :
    (∃ unit ∈ ledger.completed, unit.Contains index) ∨
      (∃ unit ∈ ledger.pool.inFlightUnits, unit.Contains index) ∨
      ∃ unit ∈ ledger.pool.returned, unit.Contains index := by
  have bounded := conserves.bounded.nextLe
  have endCursor := conserves.endCursor
  have inside : coverage [⟨aStart, aEnd - aStart⟩] index = 1 :=
    coverage_range above (by omega)
  have untouched : coverage [ledger.pool.tail] index = 0 := by
    apply coverage_eq_zero_of_start_gt
    intro unit member
    rw [List.mem_singleton.mp member]
    exact taken
  have partitioned := conserves.partitioned index
  rw [accounted, untouched, inside] at partitioned
  rw [← coverage_pos_iff, ← coverage_pos_iff, ← coverage_pos_iff]
  omega

/-- How much is left to check out, counting a returned unit as one more than its
length so that an empty one counts too. -/
def outstanding (pool : WorkPool) : Nat :=
  (pool.returned.map fun unit => unit.count + 1).sum + (pool.endCursor - pool.next)

theorem checkoutWork_outstanding (bounded : Bounded aStart pool) {count : Nat}
    (positive : 0 < count) (workerId : Nat)
    (pendingWork : ¬ pool.exhausted = true) :
    (pool.checkoutWork count workerId).2.outstanding < pool.outstanding := by
  rcases checkoutWork_cases pool count workerId with
    ⟨rest, unit, concat, larger, result⟩ | ⟨rest, unit, concat, fits, result⟩ |
    ⟨empty, finished, result⟩ | ⟨empty, pending, result⟩
  · rw [result, outstanding, outstanding, concat]
    simp only [track, List.map_append, List.sum_append, List.map_cons,
      List.map_nil, List.sum_cons, List.sum_nil]
    omega
  · rw [result, outstanding, outstanding, concat]
    simp only [track, List.map_append, List.sum_append, List.map_cons,
      List.map_nil, List.sum_cons, List.sum_nil]
    omega
  · simp [exhausted, empty, finished] at pendingWork
  · have endLt := bounded.endLt
    have fits : pool.next + min count (pool.endCursor - pool.next) ≤
        pool.endCursor := by omega
    rw [result, outstanding, outstanding, wrap64_of_le fits endLt]
    simp only [track]
    omega

/-- The coordinator's resume: a fresh pool of the same geometry whose cursor is
the checkpointed prefix. -/
def resume (aStart totalA unitSize : Nat) (checkpoint : WorkPool) : WorkPool :=
  (create aStart totalA unitSize).setCursor checkpoint.completedPrefixCursor

theorem resume_conserves (aStart totalA unitSize : Nat) (checkpoint : WorkPool) :
    (Ledger.start (resume aStart totalA unitSize checkpoint)).Conserves
      checkpoint.completedPrefixCursor
      (resume aStart totalA unitSize checkpoint).endCursor :=
  Ledger.start_conserves ⟨rfl, rfl⟩ rfl (Nat.mod_lt _ (Nat.two_pow_pos 64))

theorem Ledger.Conserves.issued_or_waiting (conserves : ledger.Conserves aStart aEnd)
    (above : aStart ≤ index) (below : index < aEnd) :
    (∃ unit ∈ ledger.issued, unit.Contains index) ∨ ledger.pool.tail.Contains index := by
  have inside : coverage [⟨aStart, aEnd - aStart⟩] index = 1 :=
    coverage_range above below
  have issued := conserves.issued index
  by_cases waiting : ledger.pool.tail.Contains index
  · exact .inr waiting
  · rw [inside, coverage_singleton, if_neg waiting] at issued
    exact .inl ((coverage_pos_iff _ _).mp issued)

theorem Ledger.Conserves.issued_of_exhausted (conserves : ledger.Conserves aStart aEnd)
    (exhausted : ledger.pool.exhausted = true) (above : aStart ≤ index) (below : index < aEnd) :
    ∃ unit ∈ ledger.issued, unit.Contains index := by
  have finished : ledger.pool.endCursor ≤ ledger.pool.next := by
    simp only [WorkPool.exhausted, Bool.and_eq_true, decide_eq_true_eq]
      at exhausted
    exact exhausted.1
  rcases conserves.issued_or_waiting above below with issued | waiting
  · exact issued
  · simp only [tail, Contains] at waiting
    omega

theorem Ledger.exists_drain (conserves : ledger.Conserves aStart aEnd) {count : Nat}
    (positive : 0 < count) (workerId : Nat) :
    ∃ repetitions, (ledger.run (List.replicate repetitions
      (.checkoutWork count workerId))).pool.exhausted = true :=
  Transition.exists_replicate_reaches (fun state => state.pool.outstanding)
    (fun state invariant => apply_conserves state _ invariant)
    (fun _ invariant pending =>
      checkoutWork_outstanding invariant.bounded positive workerId pending)
    ledger conserves

/-- The checkpointed cursor is sound in every reachable state, and a pool
resumed there loses nothing: whatever it is asked to do, an index at or above the
cursor is either issued again or still waiting in the pool, all of them are
issued once it is exhausted, and checking out any positive count exhausts it. -/
theorem completedPrefixCursor_resume (aStart totalA unitSize : Nat) (operations : List Operation) :
    let ledger := (Ledger.start (create aStart totalA unitSize)).run operations
    let cursor := ledger.pool.completedPrefixCursor
    let resumed := Ledger.start (resume aStart totalA unitSize ledger.pool)
    (∀ index, aStart ≤ index → index < cursor → ∃ unit ∈ ledger.completed, unit.Contains index) ∧
    (aStart ≤ ledger.pool.endCursor → cursor ≤ resumed.pool.endCursor) ∧
    ∀ operations', let final := resumed.run operations'
      (∀ index, cursor ≤ index → index < ledger.pool.endCursor →
        (∃ unit ∈ final.issued, unit.Contains index) ∨ final.pool.tail.Contains index) ∧
      (final.pool.exhausted = true → ∀ index, cursor ≤ index → index < ledger.pool.endCursor →
          ∃ unit ∈ final.issued, unit.Contains index) ∧
      ∀ count, 0 < count → ∀ workerId, ∃ repetitions, (final.run (List.replicate repetitions
          (.checkoutWork count workerId))).pool.exhausted = true := by
  intro ledger cursor resumed
  have conserves := Ledger.run_conserves (create_conserves aStart totalA unitSize)
    operations
  have sameEnd : ledger.pool.endCursor = resumed.pool.endCursor :=
    conserves.endCursor
  refine ⟨fun index => conserves.completed_below_cursor, ?_, ?_⟩
  · intro ordered
    have nextLe := conserves.bounded.nextLe
    have cursorLe := (completedPrefixCursor_le ledger.pool).1
    rw [← sameEnd]
    exact cursorLe.trans (nextLe.trans (Nat.max_le.mpr ⟨ordered, Nat.le_refl _⟩))
  · intro operations' final
    have resumedConserves := Ledger.run_conserves
      (resume_conserves aStart totalA unitSize ledger.pool) operations'
    refine ⟨?_, ?_, ?_⟩
    · intro index above below
      exact resumedConserves.issued_or_waiting above (sameEnd ▸ below)
    · intro exhausted index above below
      exact resumedConserves.issued_of_exhausted exhausted above
        (sameEnd ▸ below)
    · intro count positive workerId
      exact Ledger.exists_drain resumedConserves positive workerId

end WorkPool

end CudaMpqs
