import CudaMpqs.Largeprimes.SlabAppend

/-! # The bucket locks of the slab table

What holds between any two steps of `global_append_kernel`: a locked bucket has
one holder, buckets in use have rows of their own, and what a thread has
published stays published. -/

namespace CudaMpqs.SlabTable

open Combine Transition Function ThreadTotals

namespace Dispatch

variable {launch : Dispatch}

/-! ## Phases -/

namespace AppendThread

def Holding : AppendThread → Bool
  | .locked _ _ => true
  | .exhausted _ => true
  | .writing _ _ _ => true
  | .releasing _ _ _ => true
  | _ => false

def row : AppendThread → Option Nat
  | .writing _ _ row => some row
  | .releasing _ row _ => some row
  | _ => none

def published : AppendThread → Option (Nat × Nat)
  | .releasing _ _ (.appended _ row slot) => some (row, slot)
  | .exited (.appended _ row slot) => some (row, slot)
  | _ => none

def pending : AppendThread → Nat
  | .spinning _ => 1
  | .locked _ _ => 1
  | _ => 0

def slabOverflows : AppendThread → Bool
  | .exhausted _ => true
  | .releasing _ _ .slabOverflow => true
  | .exited .slabOverflow => true
  | _ => false

def witnessOverflows : AppendThread → Bool
  | .exited .witnessOverflow => true
  | _ => false

def weight : AppendThread → Nat
  | .start => 5
  | .spinning _ => 4
  | .locked _ _ => 3
  | .writing _ _ _ => 2
  | .exhausted _ => 1
  | .releasing _ _ _ => 1
  | .exited _ => 0

theorem holding_of_row {phase : AppendThread} {isRow : Nat}
    (hasRow : phase.row = some isRow) : phase.Holding = true := by
  cases phase with
  | writing => rfl
  | releasing => rfl
  | _ => cases hasRow

end AppendThread

def Stored (state : AppendState launch) (thread : launch.Thread) (index : Nat) : Prop :=
  state.witnesses[index]? = some (input thread)

def Recorded (state : AppendState launch) (thread : launch.Thread) (count row : Nat) :
    AppendFate → Prop
  | .slabOverflow => count = dirCount (state.directory (bucket thread)) ∧
      row = dirRow (state.directory (bucket thread))
  | .appended index row' slot => Stored state thread index ∧ row' = row ∧
      slot = dirCount (state.directory (bucket thread)) ∧ count = slot + 1 ∧
      (0 < slot → row = dirRow (state.directory (bucket thread))) ∧
      state.slabs row slot = payload (tag thread) index
  | _ => False

def Kept (status : launch.Thread → SlpStatus) (state : AppendState launch)
    (thread : launch.Thread) : AppendFate → Prop
  | .skipped => ¬ Appends status thread
  | .appended index row slot => Appends status thread ∧ Stored state thread index ∧
      slot < dirCount (state.directory (bucket thread)) ∧
      dirRow (state.directory (bucket thread)) = row ∧
      state.slabs row slot = payload (tag thread) index
  | _ => Appends status thread

def AppendThread.Justified (status : launch.Thread → SlpStatus)
    (state : AppendState launch) (thread : launch.Thread) : AppendThread → Prop
  | .start => True
  | .spinning index => Appends status thread ∧ Stored state thread index
  | .locked index currentDir => Appends status thread ∧ Stored state thread index ∧
      currentDir < lockMask ∧ state.directory (bucket thread) = currentDir + lockMask
  | .exhausted currentDir => Appends status thread ∧ currentDir < lockMask ∧
      state.directory (bucket thread) = currentDir + lockMask
  | .writing index count row => Appends status thread ∧ Stored state thread index ∧
      count = dirCount (state.directory (bucket thread)) ∧ row < 2 ^ 32 ∧
      (0 < count → row = dirRow (state.directory (bucket thread)))
  | .releasing count row fate => Appends status thread ∧ 0 < count ∧
      count ≤ rowWidthElems ∧ row < 2 ^ 32 ∧ Recorded state thread count row fate
  | .exited fate => Kept status state thread fate

theorem dirCount_lock (entry : Nat) : dirCount (entry + lockMask) = dirCount entry := by
  unfold dirCount lockMask
  omega

theorem dirRow_lock (entry : Nat) : dirRow (entry + lockMask) = dirRow entry := by
  unfold dirRow lockMask
  omega

/-! ## Locks -/

structure Locks (state : AppendState launch) : Prop where
  exclusive : ∀ thread other, (state.threads thread).Holding →
    (state.threads other).Holding → bucket thread = bucket other → thread = other
  held : ∀ thread, (state.threads thread).Holding → lockMask ≤ state.directory (bucket thread)
  holder : ∀ entry, lockMask ≤ state.directory entry →
    ∃ thread, bucket thread = entry ∧ (state.threads thread).Holding

section Locks

variable {state next : AppendState launch} {thread : launch.Thread} {phase : AppendThread}

section

variable (locks : Locks state) (threads : next.threads = update state.threads thread phase)

include locks threads

theorem Locks.keep (directory : next.directory = state.directory)
    (same : phase.Holding = (state.threads thread).Holding) : Locks next := by
  have holding : ∀ other, (next.threads other).Holding = (state.threads other).Holding := by
    intro other
    rw [threads]
    by_cases own : other = thread
    · rw [own, update_self, same]
    · rw [update_of_ne own]
  constructor
  · intro left right leftHolds rightHolds
    rw [holding] at leftHolds rightHolds
    exact locks.exclusive left right leftHolds rightHolds
  · intro other holds
    rw [holding] at holds
    rw [directory]
    exact locks.held other holds
  · intro entry isLocked
    rw [directory] at isLocked
    rcases locks.holder entry isLocked with ⟨other, inBucket, holds⟩
    exact ⟨other, inBucket, by rw [holding]; exact holds⟩

theorem Locks.acquire {word : Nat}
    (directory : next.directory = update state.directory (bucket thread) word)
    (free : state.directory (bucket thread) < lockMask) (taken : lockMask ≤ word)
    (holds : phase.Holding) : Locks next := by
  have others : ∀ other, (next.threads other).Holding → other ≠ thread →
      (state.threads other).Holding ∧ bucket other ≠ bucket thread := by
    intro other otherHolds different
    rw [threads, update_of_ne different] at otherHolds
    refine ⟨otherHolds, ?_⟩
    intro same
    have isLocked := locks.held other otherHolds
    rw [same] at isLocked
    omega
  constructor
  · intro left right leftHolds rightHolds inBucket
    by_cases leftOwn : left = thread
    · by_cases rightOwn : right = thread
      · rw [leftOwn, rightOwn]
      · rw [leftOwn] at inBucket
        exact absurd inBucket.symm (others right rightHolds rightOwn).2
    · by_cases rightOwn : right = thread
      · rw [rightOwn] at inBucket
        exact absurd inBucket (others left leftHolds leftOwn).2
      · exact locks.exclusive left right (others left leftHolds leftOwn).1
          (others right rightHolds rightOwn).1 inBucket
  · intro other otherHolds
    rw [directory]
    by_cases own : other = thread
    · rw [own, update_self]
      exact taken
    · rw [update_of_ne (others other otherHolds own).2]
      exact locks.held other (others other otherHolds own).1
  · intro entry isLocked
    rw [directory] at isLocked
    by_cases own : entry = bucket thread
    · exact ⟨thread, own.symm, by rw [threads, update_self]; exact holds⟩
    · rw [update_of_ne own] at isLocked
      rcases locks.holder entry isLocked with ⟨other, inBucket, otherHolds⟩
      have different : other ≠ thread := by
        rintro rfl
        exact own inBucket.symm
      exact ⟨other, inBucket, by rw [threads, update_of_ne different]; exact otherHolds⟩

theorem Locks.release {word : Nat}
    (directory : next.directory = update state.directory (bucket thread) word)
    (holds : (state.threads thread).Holding) (free : word < lockMask)
    (leaves : phase.Holding = false) : Locks next := by
  have others : ∀ other, (next.threads other).Holding →
      (state.threads other).Holding ∧ bucket other ≠ bucket thread := by
    intro other otherHolds
    have different : other ≠ thread := by
      rintro rfl
      rw [threads, update_self, leaves] at otherHolds
      cases otherHolds
    rw [threads, update_of_ne different] at otherHolds
    exact ⟨otherHolds, fun same =>
      different (locks.exclusive other thread otherHolds holds same)⟩
  constructor
  · intro left right leftHolds rightHolds inBucket
    exact locks.exclusive left right (others left leftHolds).1 (others right rightHolds).1
      inBucket
  · intro other otherHolds
    rw [directory, update_of_ne (others other otherHolds).2]
    exact locks.held other (others other otherHolds).1
  · intro entry isLocked
    rw [directory] at isLocked
    have different : entry ≠ bucket thread := by
      rintro rfl
      rw [update_self] at isLocked
      omega
    rw [update_of_ne different] at isLocked
    rcases locks.holder entry isLocked with ⟨other, inBucket, otherHolds⟩
    have another : other ≠ thread := by
      rintro rfl
      exact different inBucket.symm
    exact ⟨other, inBucket, by rw [threads, update_of_ne another]; exact otherHolds⟩

end

end Locks

/-! ## Rows -/

def Owns (state : AppendState launch) (entry row : Nat) : Prop :=
  0 < dirCount (state.directory entry) ∧ dirRow (state.directory entry) = row ∨
    ∃ thread, bucket thread = entry ∧ (state.threads thread).row = some row

structure Rows (state : AppendState launch) : Prop where
  row_lt : ∀ {entry row}, Owns state entry row → row < state.allocator
  bucket_unique : ∀ {entry entry' row}, Owns state entry row → Owns state entry' row →
    entry = entry'
  row_unique : ∀ {entry row row'}, Owns state entry row → Owns state entry row' →
    row = row'

theorem Rows.mono {state next : AppendState launch} (rows : Rows state)
    (fewer : ∀ entry row, Owns next entry row → Owns state entry row)
    (grows : state.allocator ≤ next.allocator) : Rows next where
  row_lt owns := Nat.lt_of_lt_of_le (rows.row_lt (fewer _ _ owns)) grows
  bucket_unique left right := rows.bucket_unique (fewer _ _ left) (fewer _ _ right)
  row_unique left right := rows.row_unique (fewer _ _ left) (fewer _ _ right)

theorem Rows.fresh {state next : AppendState launch} (rows : Rows state) {entry : Nat}
    (none : ∀ row, ¬ Owns state entry row)
    (fewer : ∀ entry' row, Owns next entry' row →
      Owns state entry' row ∨ entry' = entry ∧ row = state.allocator)
    (allocates : next.allocator = state.allocator + 1) : Rows next := by
  constructor
  · intro entry' row owns
    rw [allocates]
    rcases fewer _ _ owns with old | ⟨-, rfl⟩
    · exact Nat.lt_succ_of_lt (rows.row_lt old)
    · exact Nat.lt_succ_self _
  · intro left right row leftOwns rightOwns
    rcases fewer _ _ leftOwns with leftOld | ⟨rfl, isNew⟩
    · rcases fewer _ _ rightOwns with rightOld | ⟨-, isNew⟩
      · exact rows.bucket_unique leftOld rightOld
      · exact absurd (rows.row_lt leftOld) (by rw [isNew]; exact Nat.lt_irrefl _)
    · rcases fewer _ _ rightOwns with rightOld | ⟨same, -⟩
      · exact absurd (rows.row_lt rightOld) (by rw [isNew]; exact Nat.lt_irrefl _)
      · exact same.symm
  · intro entry' left right leftOwns rightOwns
    rcases fewer _ _ leftOwns with leftOld | ⟨isEntry, leftNew⟩
    · rcases fewer _ _ rightOwns with rightOld | ⟨isEntry, -⟩
      · exact rows.row_unique leftOld rightOld
      · exact absurd (isEntry ▸ leftOld) (none left)
    · rcases fewer _ _ rightOwns with rightOld | ⟨-, rightNew⟩
      · exact absurd (isEntry ▸ rightOld) (none right)
      · rw [leftNew, rightNew]

theorem Owns.of_update {state next : AppendState launch} {thread : launch.Thread}
    {phase : AppendThread} {entry row : Nat}
    (threads : next.threads = update state.threads thread phase)
    (directory : ∀ entry, dirCount (next.directory entry) = dirCount (state.directory entry) ∧
      dirRow (next.directory entry) = dirRow (state.directory entry))
    (owns : Owns next entry row) :
    Owns state entry row ∨ entry = bucket thread ∧ phase.row = some row := by
  rcases owns with ⟨used, isRow⟩ | ⟨other, inBucket, isRow⟩
  · rw [(directory entry).1] at used
    rw [(directory entry).2] at isRow
    exact Or.inl (Or.inl ⟨used, isRow⟩)
  · rw [threads] at isRow
    by_cases own : other = thread
    · rw [own, update_self] at isRow
      rw [own] at inBucket
      exact Or.inr ⟨inBucket.symm, isRow⟩
    · rw [update_of_ne own] at isRow
      exact Or.inl (Or.inr ⟨other, inBucket, isRow⟩)

/-! ## Counts -/

structure Tally (state : AppendState launch) : Prop where
  store : state.witnesses.length = state.counter.relations.toNat
  kept : launch.device.witnesses <+: state.witnesses
  allocated : state.allocator + total AppendThread.pending state.threads ≤ state.witnesses.length
  slabOverflow : state.slabOverflow = launch.device.slabOverflow +
    total (fun phase => phase.slabOverflows.toNat) state.threads
  witnessOverflow : state.witnessOverflow = launch.device.witnessOverflow +
    total (fun phase => phase.witnessOverflows.toNat) state.threads
  narrow : ∀ witness ∈ state.witnesses, witness.largePrime.toNat < 2 ^ 64

/-- A step counts what its thread does: places taken in the store, rows taken from
the allocator, overflows. -/
structure Counted (state next : AppendState launch) (before after : AppendThread) :
    Prop where
  store : next.witnesses.length + state.counter.relations.toNat =
    state.witnesses.length + next.counter.relations.toNat
  grows : state.witnesses <+: next.witnesses
  allocated : next.allocator + after.pending + state.witnesses.length ≤
    state.allocator + before.pending + next.witnesses.length
  slabOverflow : next.slabOverflow + before.slabOverflows.toNat =
    state.slabOverflow + after.slabOverflows.toNat
  witnessOverflow : next.witnessOverflow + before.witnessOverflows.toNat =
    state.witnessOverflow + after.witnessOverflows.toNat
  narrow : (∀ witness ∈ state.witnesses, witness.largePrime.toNat < 2 ^ 64) →
    ∀ witness ∈ next.witnesses, witness.largePrime.toNat < 2 ^ 64

theorem Tally.step {state next : AppendState launch} (tally : Tally state)
    {thread : launch.Thread} {phase : AppendThread}
    (threads : next.threads = update state.threads thread phase)
    (counted : Counted state next (state.threads thread) phase) : Tally next where
  store := by
    have before := tally.store
    have change := counted.store
    omega
  kept := tally.kept.trans counted.grows
  allocated := by
    have before := tally.allocated
    have step := counted.allocated
    have change := total_update AppendThread.pending state.threads thread phase
    rw [threads]
    omega
  slabOverflow := by
    have before := tally.slabOverflow
    have step := counted.slabOverflow
    have change := total_update (fun phase => phase.slabOverflows.toNat) state.threads
      thread phase
    rw [threads]
    omega
  witnessOverflow := by
    have before := tally.witnessOverflow
    have step := counted.witnessOverflow
    have change := total_update (fun phase => phase.witnessOverflows.toNat) state.threads
      thread phase
    rw [threads]
    omega
  narrow := counted.narrow tally.narrow

/-! ## The invariant -/

structure AppendInvariant (status : launch.Thread → SlpStatus)
    (state : AppendState launch) : Prop where
  threads : ∀ thread, (state.threads thread).Justified status state thread
  locks : Locks state
  rows : Rows state
  count_le : ∀ entry, dirCount (state.directory entry) ≤ rowWidthElems
  tally : Tally state

section Frame

variable {status : launch.Thread → SlpStatus} {state next : AppendState launch}
  {thread : launch.Thread} {phase : AppendThread}

theorem Stored.mono {index : Nat} (stored : Stored state thread index)
    (grows : state.witnesses <+: next.witnesses) : Stored next thread index := by
  rcases grows with ⟨added, extended⟩
  have inside := (List.getElem?_eq_some_iff.mp stored).1
  rw [Stored, ← extended, List.getElem?_append_left inside]
  exact stored

/-- What a thread relies on survives a step of another thread. -/
theorem AppendThread.Justified.frame (justified : phase.Justified status state thread)
    (store : state.witnesses <+: next.witnesses)
    (held : phase.Holding → next.directory (bucket thread) = state.directory (bucket thread))
    (grows : 0 < dirCount (state.directory (bucket thread)) →
      dirCount (state.directory (bucket thread)) ≤ dirCount (next.directory (bucket thread)) ∧
        dirRow (next.directory (bucket thread)) = dirRow (state.directory (bucket thread)))
    (slabs : ∀ row slot, phase.published = some (row, slot) →
      next.slabs row slot = state.slabs row slot) :
    phase.Justified status next thread := by
  cases phase with
  | start => trivial
  | spinning index => exact ⟨justified.1, justified.2.mono store⟩
  | locked index currentDir =>
    refine ⟨justified.1, justified.2.1.mono store, justified.2.2.1, ?_⟩
    rw [held rfl]
    exact justified.2.2.2
  | exhausted currentDir =>
    refine ⟨justified.1, justified.2.1, ?_⟩
    rw [held rfl]
    exact justified.2.2
  | writing index count row =>
    refine ⟨justified.1, justified.2.1.mono store, ?_⟩
    rw [held rfl]
    exact justified.2.2
  | releasing count row fate =>
    rcases justified with ⟨appends, positive, fits, rowFits, recorded⟩
    refine ⟨appends, positive, fits, rowFits, ?_⟩
    cases fate with
    | skipped => exact recorded
    | witnessOverflow => exact recorded
    | slabOverflow =>
      unfold Recorded
      rw [held rfl]
      exact recorded
    | appended index row' slot =>
      rcases recorded with ⟨stored, rfl, isSlot, isCount, isRow, word⟩
      refine ⟨stored.mono store, rfl, ?_, isCount, ?_, ?_⟩
      · rw [held rfl]
        exact isSlot
      · rw [held rfl]
        exact isRow
      · rw [slabs row' slot rfl]
        exact word
  | exited fate =>
    cases fate with
    | skipped => exact justified
    | witnessOverflow => exact justified
    | slabOverflow => exact justified
    | appended index row slot =>
      rcases justified with ⟨appends, stored, inside, isRow, word⟩
      rcases grows (Nat.zero_lt_of_lt inside) with ⟨countGrows, sameRow⟩
      refine ⟨appends, stored.mono store, Nat.lt_of_lt_of_le inside countGrows,
        sameRow.trans isRow, ?_⟩
      rw [slabs row slot rfl]
      exact word

section

variable (invariant : AppendInvariant status state)
  (threads : next.threads = update state.threads thread phase)
  (own : phase.Justified status next thread)

include invariant threads own

/-- A step changes the words of its own bucket only while no other thread holds the
lock, and no slot that another thread has published. -/
theorem AppendInvariant.threads_step (store : state.witnesses <+: next.witnesses)
    (elsewhere : ∀ entry, entry ≠ bucket thread → next.directory entry = state.directory entry)
    (alone : next.directory = state.directory ∨ ∀ other, other ≠ thread →
      (state.threads other).Holding → bucket other ≠ bucket thread)
    (grows : 0 < dirCount (state.directory (bucket thread)) →
      dirCount (state.directory (bucket thread)) ≤ dirCount (next.directory (bucket thread)) ∧
        dirRow (next.directory (bucket thread)) = dirRow (state.directory (bucket thread)))
    (slabs : ∀ other, other ≠ thread → ∀ row slot,
      (state.threads other).published = some (row, slot) →
        next.slabs row slot = state.slabs row slot)
    (other : launch.Thread) : (next.threads other).Justified status next other := by
  rw [threads]
  by_cases same : other = thread
  · rw [same, update_self]
    exact own
  · rw [update_of_ne same]
    apply (invariant.threads other).frame store
    · intro holds
      rcases alone with unchanged | different
      · rw [unchanged]
      · exact elsewhere _ (different other same holds)
    · intro used
      by_cases inBucket : bucket other = bucket thread
      · rw [inBucket] at used ⊢
        exact grows used
      · rw [elsewhere _ inBucket]
        exact ⟨Nat.le_refl _, rfl⟩
    · exact slabs other same

/-! ## The steps -/

theorem AppendInvariant.quiet (holding : phase.Holding = (state.threads thread).Holding)
    (row : ∀ row, phase.row = some row → Owns state (bucket thread) row)
    (directory : next.directory = state.directory) (slabs : next.slabs = state.slabs)
    (allocator : next.allocator = state.allocator)
    (counted : Counted state next (state.threads thread) phase) : AppendInvariant status next where
  threads := invariant.threads_step threads own counted.grows
    (fun _ _ => by rw [directory]) (Or.inl directory)
    (fun _ => by rw [directory]; exact ⟨Nat.le_refl _, rfl⟩) (fun _ _ _ _ _ => by rw [slabs])
  locks := invariant.locks.keep threads directory holding
  rows := by
    apply invariant.rows.mono _ (Nat.le_of_eq allocator.symm)
    intro entry isRow owns
    rcases owns.of_update threads (fun _ => by rw [directory]; exact ⟨rfl, rfl⟩) with
      old | ⟨rfl, own⟩
    · exact old
    · exact row isRow own
  count_le entry := by
    rw [directory]
    exact invariant.count_le entry
  tally := invariant.tally.step threads counted

theorem AppendInvariant.acquire (holds : phase.Holding) (row : phase.row = none)
    (free : state.directory (bucket thread) < lockMask)
    (directory : next.directory = update state.directory (bucket thread)
      (state.directory (bucket thread) + lockMask))
    (slabs : next.slabs = state.slabs) (allocator : next.allocator = state.allocator)
    (counted : Counted state next (state.threads thread) phase) : AppendInvariant status next := by
  have words : ∀ entry, dirCount (next.directory entry) = dirCount (state.directory entry) ∧
      dirRow (next.directory entry) = dirRow (state.directory entry) := by
    intro entry
    rw [directory]
    by_cases own : entry = bucket thread
    · rw [own, update_self]
      exact ⟨dirCount_lock _, dirRow_lock _⟩
    · rw [update_of_ne own]
      exact ⟨rfl, rfl⟩
  constructor
  · apply invariant.threads_step threads own counted.grows
    · intro entry different
      rw [directory, update_of_ne different]
    · refine Or.inr fun other _ otherHolds same => ?_
      have isLocked := invariant.locks.held other otherHolds
      rw [same] at isLocked
      omega
    · intro _
      rw [(words _).1, (words _).2]
      exact ⟨Nat.le_refl _, rfl⟩
    · intro _ _ _ _ _
      rw [slabs]
  · exact invariant.locks.acquire threads directory free (Nat.le_add_left _ _) holds
  · apply invariant.rows.mono _ (Nat.le_of_eq allocator.symm)
    intro entry isRow owns
    rcases owns.of_update threads words with old | ⟨-, own⟩
    · exact old
    · rw [row] at own
      cases own
  · intro entry
    rw [(words entry).1]
    exact invariant.count_le entry
  · exact invariant.tally.step threads counted

theorem AppendInvariant.release {word : Nat} (holds : (state.threads thread).Holding)
    (leaves : phase.Holding = false) (free : word < lockMask) (fits : dirCount word ≤ rowWidthElems)
    (grows : 0 < dirCount (state.directory (bucket thread)) →
      dirCount (state.directory (bucket thread)) ≤ dirCount word ∧
        dirRow word = dirRow (state.directory (bucket thread)))
    (row : 0 < dirCount word → Owns state (bucket thread) (dirRow word))
    (directory : next.directory = update state.directory (bucket thread) word)
    (slabs : next.slabs = state.slabs) (allocator : next.allocator = state.allocator)
    (counted : Counted state next (state.threads thread) phase) : AppendInvariant status next := by
  constructor
  · apply invariant.threads_step threads own counted.grows
    · intro entry different
      rw [directory, update_of_ne different]
    · refine Or.inr fun other different otherHolds same => ?_
      exact different (invariant.locks.exclusive other thread otherHolds holds same)
    · rw [directory, update_self]
      exact grows
    · intro _ _ _ _ _
      rw [slabs]
  · exact invariant.locks.release threads directory holds free leaves
  · apply invariant.rows.mono _ (Nat.le_of_eq allocator.symm)
    intro entry isRow owns
    rcases owns with ⟨used, isRow⟩ | ⟨other, inBucket, isRow⟩
    · rw [directory] at used isRow
      by_cases own : entry = bucket thread
      · rw [own, update_self] at used isRow
        rw [own, ← isRow]
        exact row used
      · rw [update_of_ne own] at used isRow
        exact Or.inl ⟨used, isRow⟩
    · rw [threads] at isRow
      by_cases own : other = thread
      · rw [own, update_self] at isRow
        rw [AppendThread.holding_of_row isRow] at leaves
        cases leaves
      · rw [update_of_ne own] at isRow
        exact Or.inr ⟨other, inBucket, isRow⟩
  · intro entry
    rw [directory]
    by_cases own : entry = bucket thread
    · rw [own, update_self]
      exact fits
    · rw [update_of_ne own]
      exact invariant.count_le entry
  · exact invariant.tally.step threads counted

/-- The holder of a lock takes the next row, for its bucket or past the end. -/
theorem AppendInvariant.allocate (holding : phase.Holding = (state.threads thread).Holding)
    (holds : (state.threads thread).Holding) (noRow : (state.threads thread).row = none)
    (unused : dirCount (state.directory (bucket thread)) = 0)
    (row : ∀ row, phase.row = some row → row = state.allocator)
    (directory : next.directory = state.directory) (slabs : next.slabs = state.slabs)
    (allocator : next.allocator = state.allocator + 1)
    (counted : Counted state next (state.threads thread) phase) : AppendInvariant status next where
  threads := invariant.threads_step threads own counted.grows
    (fun _ _ => by rw [directory]) (Or.inl directory)
    (fun _ => by rw [directory]; exact ⟨Nat.le_refl _, rfl⟩) (fun _ _ _ _ _ => by rw [slabs])
  locks := invariant.locks.keep threads directory holding
  rows := by
    apply @Rows.fresh launch state next invariant.rows (bucket thread)
    · intro isRow owns
      rcases owns with ⟨used, -⟩ | ⟨other, inBucket, isRow⟩
      · omega
      · have same := invariant.locks.exclusive other thread
          (AppendThread.holding_of_row isRow) holds inBucket
        rw [same, noRow] at isRow
        cases isRow
    · intro entry isRow owns
      rcases owns.of_update threads (fun _ => by rw [directory]; exact ⟨rfl, rfl⟩) with
        old | ⟨inBucket, own⟩
      · exact Or.inl old
      · exact Or.inr ⟨inBucket, row isRow own⟩
    · exact allocator
  count_le entry := by
    rw [directory]
    exact invariant.count_le entry
  tally := invariant.tally.step threads counted

end

theorem AppendInvariant.owns_of_published (invariant : AppendInvariant status state)
    {row slot : Nat} (published : (state.threads thread).published = some (row, slot)) :
    Owns state (bucket thread) row ∧ ((state.threads thread).Holding ∨
      slot < dirCount (state.directory (bucket thread))) := by
  have justified := invariant.threads thread
  cases phase : state.threads thread with
  | releasing count row' fate =>
    rw [phase] at justified published
    cases fate with
    | appended index row'' slot' =>
      cases published
      refine ⟨Or.inr ⟨thread, rfl, ?_⟩, Or.inl rfl⟩
      rw [phase, AppendThread.row, justified.2.2.2.2.2.1]
    | _ => cases published
  | exited fate =>
    rw [phase] at justified published
    cases fate with
    | appended index row' slot' =>
      cases published
      rcases justified with ⟨-, -, inside, isRow, -⟩
      exact ⟨Or.inl ⟨Nat.zero_lt_of_lt inside, isRow⟩, Or.inr inside⟩
    | _ => cases published
  | _ =>
    rw [phase] at published
    cases published

/-- The holder of a lock writes its payload behind the bucket's last one. -/
theorem AppendInvariant.publish (invariant : AppendInvariant status state)
    {index count row : Nat} (writes : state.threads thread = .writing index count row)
    (fits : count < rowWidthElems) :
    AppendInvariant status { state with
      slabs := setSlot state.slabs row count (payload (keyTag thread) index)
      threads := update state.threads thread
        (.releasing (count + 1) row (.appended index row count)) } := by
  have justified := invariant.threads thread
  rw [writes] at justified
  rcases justified with ⟨appends, stored, isCount, rowFits, isRow⟩
  have holds : (state.threads thread).Holding := by rw [writes]; rfl
  have owns : Owns state (bucket thread) row := Or.inr ⟨thread, rfl, by rw [writes]; rfl⟩
  constructor
  · apply invariant.threads_step rfl
    · refine ⟨appends, Nat.succ_pos _, fits, rowFits, stored, rfl, isCount, rfl, isRow, ?_⟩
      rw [← keyTag_eq]
      exact setSlot_same _ _ _ _
    · exact List.prefix_rfl
    · exact fun _ _ => rfl
    · exact Or.inl rfl
    · exact fun _ => ⟨Nat.le_refl _, rfl⟩
    · intro other different row' slot' published
      apply setSlot_other
      rintro ⟨rfl, rfl⟩
      rcases invariant.owns_of_published published with ⟨otherOwns, otherHolds | inside⟩
      · exact different (invariant.locks.exclusive other thread otherHolds holds
          (invariant.rows.bucket_unique otherOwns owns))
      · rw [invariant.rows.bucket_unique otherOwns owns, ← isCount] at inside
        exact Nat.lt_irrefl _ inside
  · exact invariant.locks.keep rfl rfl holds.symm
  · refine invariant.rows.mono ?_ (Nat.le_refl _)
    intro entry isRow' ownsNext
    have split : Owns state entry isRow' ∨ entry = bucket thread ∧
        (AppendThread.releasing (count + 1) row (.appended index row count)).row =
          some isRow' :=
      Owns.of_update (by rfl) (fun _ => by exact ⟨rfl, rfl⟩) ownsNext
    rcases split with old | ⟨rfl, own⟩
    · exact old
    · injection own with same
      rw [← same]
      exact owns
  · exact invariant.count_le
  · apply invariant.tally.step rfl
    rw [writes]
    exact ⟨rfl, List.prefix_rfl, Nat.le_refl _, rfl, rfl, id⟩

end Frame

theorem reserved_relations {counter reserved : DualCounter} {factors maxRels maxFactors : BitVec 32}
    (reserves : atomicReserveDual counter factors maxRels maxFactors = some reserved) :
    reserved.relations.toNat = counter.relations.toNat + 1 := by
  unfold atomicReserveDual at reserves
  split at reserves
  · cases reserves
  · rename_i room
    injection reserves with equal
    have bound := maxRels.isLt
    rw [not_or, BitVec.not_le, BitVec.lt_def] at room
    rw [← equal, BitVec.toNat_add_of_lt]
    · rfl
    · have less := room.1
      change _ + 1 < _
      omega

section Recorded

variable {status : launch.Thread → SlpStatus} {state : AppendState launch}
  {thread : launch.Thread}

theorem Recorded.grows {count row : Nat} {fate : AppendFate}
    (recorded : Recorded state thread count row fate) :
    dirCount (state.directory (bucket thread)) ≤ count ∧
      (0 < dirCount (state.directory (bucket thread)) →
        row = dirRow (state.directory (bucket thread))) := by
  cases fate with
  | slabOverflow => exact ⟨Nat.le_of_eq recorded.1.symm, fun _ => recorded.2⟩
  | appended index row' slot =>
    rcases recorded with ⟨-, -, isSlot, isCount, isRow, -⟩
    rw [← isSlot]
    exact ⟨by omega, isRow⟩
  | _ => exact recorded.elim

/-- With the new word the slot that was written is in use. -/
theorem Recorded.kept {next : AppendState launch} {count row : Nat} {fate : AppendFate}
    (recorded : Recorded state thread count row fate) (appends : Appends status thread)
    (witnesses : next.witnesses = state.witnesses) (slabs : next.slabs = state.slabs)
    (newCount : dirCount (next.directory (bucket thread)) = count)
    (newRow : dirRow (next.directory (bucket thread)) = row) : Kept status next thread fate := by
  cases fate with
  | slabOverflow => exact appends
  | appended index row' slot =>
    rcases recorded with ⟨stored, rfl, -, isCount, -, word⟩
    refine ⟨appends, ?_, ?_, newRow, ?_⟩
    · rw [Stored, witnesses]
      exact stored
    · rw [newCount, isCount]
      exact Nat.lt_succ_self _
    · rw [slabs]
      exact word
  | _ => exact recorded.elim

end Recorded

section Step

variable {status : launch.Thread → SlpStatus} {state : AppendState launch}
  (invariant : AppendInvariant status state) {thread : launch.Thread}

include invariant

theorem AppendInvariant.step_start (phase : state.threads thread = .start) :
    AppendInvariant status (appendStep status state thread) := by
  rw [appendStep, phase]
  dsimp only
  split
  · rename_i appends
    split
    · refine invariant.quiet rfl appends (by rw [phase]; rfl) nofun rfl rfl rfl ?_
      rw [phase]
      exact ⟨rfl, List.prefix_rfl, Nat.le_refl _, rfl, rfl, id⟩
    · rename_i reserved reserves
      have counts := reserved_relations reserves
      refine invariant.quiet rfl ⟨appends, ?_⟩ (by rw [phase]; rfl) nofun rfl rfl rfl ?_
      · rw [Stored, ← invariant.tally.store]
        exact List.getElem?_concat_length
      · rw [phase]
        refine ⟨?_, List.prefix_append _ _, ?_, rfl, rfl, ?_⟩
        · rw [List.length_append, counts, List.length_singleton]
          omega
        · rw [List.length_append, List.length_singleton]
          simp only [AppendThread.pending]
          omega
        · intro narrow witness member
          rcases List.mem_append.mp member with old | new
          · exact narrow witness old
          · rw [List.mem_singleton.mp new]
            exact launch.batch.largePrime_lt _ (List.get_mem _ _)
  · rename_i idle
    refine invariant.quiet rfl idle (by rw [phase]; rfl) nofun rfl rfl rfl ?_
    rw [phase]
    exact ⟨rfl, List.prefix_rfl, Nat.le_refl _, rfl, rfl, id⟩

theorem AppendInvariant.step_spinning {index : Nat}
    (phase : state.threads thread = .spinning index) :
    AppendInvariant status (appendStep status state thread) := by
  have justified := invariant.threads thread
  rw [phase] at justified
  rw [appendStep, phase]
  dsimp only
  split
  · exact invariant
  · rename_i taken
    have free := Nat.lt_of_not_le taken
    refine invariant.acquire rfl ⟨justified.1, justified.2, free, update_self _ _ _⟩ rfl
      rfl free rfl rfl rfl ?_
    rw [phase]
    exact ⟨rfl, List.prefix_rfl, Nat.le_refl _, rfl, rfl, id⟩

theorem AppendInvariant.step_locked {index currentDir : Nat}
    (phase : state.threads thread = .locked index currentDir) :
    AppendInvariant status (appendStep status state thread) := by
  have justified := invariant.threads thread
  rw [phase] at justified
  rw [appendStep, phase]
  rcases justified with ⟨appends, stored, free, word⟩
  have count : dirCount (state.directory (bucket thread)) = dirCount currentDir := by
    rw [word, dirCount_lock]
  have row : dirRow (state.directory (bucket thread)) = dirRow currentDir := by
    rw [word, dirRow_lock]
  have pending := total_update AppendThread.pending state.threads thread .start
  rw [phase] at pending
  simp only [AppendThread.pending] at pending
  have room := invariant.tally.allocated
  have bound := state.counter.relations.isLt
  rw [← invariant.tally.store] at bound
  have advances : (state.allocator + 1) % 2 ^ 32 = state.allocator + 1 :=
    Nat.mod_eq_of_lt (by omega)
  dsimp only
  split
  · rename_i unused
    rw [← count] at unused
    split
    · refine invariant.allocate rfl ⟨appends, free, word⟩ (by rw [phase]; rfl)
        (by rw [phase]; rfl) (by rw [phase]; rfl) unused nofun rfl rfl advances ?_
      rw [phase]
      refine ⟨rfl, List.prefix_rfl, ?_, rfl, rfl, id⟩
      simp only [AppendThread.pending]
      omega
    · refine invariant.allocate rfl ⟨appends, stored, unused.symm, ?_, ?_⟩
        (by rw [phase]; rfl) (by rw [phase]; rfl) (by rw [phase]; rfl) unused ?_ rfl rfl
        advances ?_
      · omega
      · exact fun impossible => absurd impossible (Nat.lt_irrefl 0)
      · intro isRow hasRow
        injection hasRow with same
        exact same.symm
      · rw [phase]
        refine ⟨rfl, List.prefix_rfl, ?_, rfl, rfl, id⟩
        simp only [AppendThread.pending]
        omega
  · rename_i used
    have positive := Nat.pos_of_ne_zero used
    have owns : Owns state (bucket thread) (dirRow currentDir) :=
      Or.inl ⟨by rw [count]; exact positive, row⟩
    refine invariant.quiet rfl ⟨appends, stored, count.symm, ?_, fun _ => row.symm⟩
      (by rw [phase]; rfl) ?_ rfl rfl rfl ?_
    · have less := invariant.rows.row_lt owns
      omega
    · intro isRow hasRow
      injection hasRow with same
      rw [← same]
      exact owns
    · rw [phase]
      exact ⟨rfl, List.prefix_rfl, Nat.add_le_add_right (Nat.le_succ _) _, rfl, rfl, id⟩

theorem AppendInvariant.step_exhausted {currentDir : Nat}
    (phase : state.threads thread = .exhausted currentDir) :
    AppendInvariant status (appendStep status state thread) := by
  have justified := invariant.threads thread
  rw [phase] at justified
  rw [appendStep, phase]
  rcases justified with ⟨appends, free, word⟩
  have count : dirCount currentDir = dirCount (state.directory (bucket thread)) := by
    rw [word, dirCount_lock]
  have row : dirRow currentDir = dirRow (state.directory (bucket thread)) := by
    rw [word, dirRow_lock]
  refine invariant.release rfl appends (by rw [phase]; rfl) rfl free ?_ ?_ ?_ rfl rfl rfl ?_
  · rw [count]
    exact invariant.count_le _
  · exact fun _ => ⟨Nat.le_of_eq count.symm, row⟩
  · intro used
    rw [count] at used
    exact Or.inl ⟨used, row.symm⟩
  · rw [phase]
    exact ⟨rfl, List.prefix_rfl, Nat.le_refl _, rfl, rfl, id⟩

theorem AppendInvariant.step_writing {index count row : Nat}
    (phase : state.threads thread = .writing index count row) :
    AppendInvariant status (appendStep status state thread) := by
  have justified := invariant.threads thread
  rw [phase] at justified
  rw [appendStep, phase]
  dsimp only
  split
  · rename_i fits
    exact invariant.publish phase fits
  · rename_i isFull
    rcases justified with ⟨appends, stored, isCount, rowFits, isRow⟩
    have positive : 0 < count := Nat.lt_of_lt_of_le (by decide) (Nat.le_of_not_lt isFull)
    refine invariant.quiet rfl ⟨appends, positive, ?_, rowFits, isCount, isRow positive⟩
      (by rw [phase]; rfl) ?_ rfl rfl rfl ?_
    · rw [isCount]
      exact invariant.count_le _
    · intro isRow' hasRow
      injection hasRow with same
      rw [← same]
      exact Or.inr ⟨thread, rfl, by rw [phase]; rfl⟩
    · rw [phase]
      exact ⟨rfl, List.prefix_rfl, Nat.le_refl _, rfl, rfl, id⟩

theorem AppendInvariant.step_releasing {count row : Nat} {fate : AppendFate}
    (phase : state.threads thread = .releasing count row fate) :
    AppendInvariant status (appendStep status state thread) := by
  have justified := invariant.threads thread
  rw [phase] at justified
  rw [appendStep, phase]
  dsimp only
  rcases justified with ⟨appends, positive, fits, rowFits, recorded⟩
  have small : count < 2 ^ 15 := Nat.lt_of_le_of_lt fits (by decide)
  have wide : row < 2 ^ 48 := Nat.lt_trans rowFits (by decide)
  have newCount := dirCount_newDir small wide
  have newRow : dirRow (newDir count row) = row := dirRow_newDir wide
  have own : update state.directory (bucket thread) (newDir count row) (bucket thread) =
      newDir count row := update_self _ _ _
  refine invariant.release rfl (recorded.kept appends rfl rfl
    ((congrArg dirCount own).trans newCount) ((congrArg dirRow own).trans newRow))
    (by rw [phase]; rfl) rfl (newDir_lt_lockMask small wide) (by rw [newCount]; exact fits)
    ?_ ?_ rfl rfl rfl ?_
  · intro used
    rw [newCount, newRow]
    exact ⟨recorded.grows.1, recorded.grows.2 used⟩
  · intro _
    rw [newRow]
    exact Or.inr ⟨thread, rfl, by rw [phase]; rfl⟩
  · rw [phase]
    cases fate with
    | slabOverflow => exact ⟨rfl, List.prefix_rfl, Nat.le_refl _, rfl, rfl, id⟩
    | appended => exact ⟨rfl, List.prefix_rfl, Nat.le_refl _, rfl, rfl, id⟩
    | _ => exact recorded.elim

theorem AppendInvariant.step (thread : launch.Thread) :
    AppendInvariant status (appendStep status state thread) := by
  cases phase : state.threads thread with
  | start => exact invariant.step_start phase
  | spinning index => exact invariant.step_spinning phase
  | locked index currentDir => exact invariant.step_locked phase
  | exhausted currentDir => exact invariant.step_exhausted phase
  | writing index count row => exact invariant.step_writing phase
  | releasing count row fate => exact invariant.step_releasing phase
  | exited fate =>
    rw [appendStep, phase]
    exact invariant

end Step

theorem AppendInvariant.start (table : TableInvariant launch.device)
    (status : launch.Thread → SlpStatus) (slabs : Nat → Nat → Nat) :
    AppendInvariant status (appendStart slabs) := by
  have zero : ∀ weight : AppendThread → Nat, weight .start = 0 →
      total weight (appendStart slabs : AppendState launch).threads = 0 := by
    intro weight none
    exact Finset.sum_eq_zero fun _ _ => none
  constructor
  · exact fun _ => trivial
  · constructor
    · intro thread other holds
      cases holds
    · intro thread holds
      cases holds
    · intro entry isLocked
      exact absurd (table.unlocked entry) (Nat.not_lt_of_le isLocked)
  · have byDirectory : ∀ {entry row}, Owns (appendStart slabs : AppendState launch) entry row →
        0 < dirCount (launch.device.directory entry) ∧
          dirRow (launch.device.directory entry) = row := by
      intro entry row owns
      rcases owns with used | ⟨thread, -, hasRow⟩
      · exact used
      · cases hasRow
    constructor
    · intro entry row owns
      rcases byDirectory owns with ⟨used, rfl⟩
      exact table.row_lt entry used
    · intro entry entry' row left right
      rcases byDirectory left with ⟨leftUsed, leftRow⟩
      rcases byDirectory right with ⟨rightUsed, rightRow⟩
      exact table.row_injective entry entry' leftUsed rightUsed (leftRow.trans rightRow.symm)
    · intro entry row row' left right
      exact (byDirectory left).2.symm.trans (byDirectory right).2
  · exact table.count_le
  · constructor
    · exact table.store
    · exact List.prefix_rfl
    · rw [zero _ rfl]
      exact table.allocator_le
    · rw [zero _ rfl]
      rfl
    · rw [zero _ rfl]
      rfl
    · exact table.narrow

theorem AppendInvariant.run (table : TableInvariant launch.device)
    (status : launch.Thread → SlpStatus) (slabs : Nat → Nat → Nat)
    (schedule : List launch.Thread) :
    AppendInvariant status (run (appendStep status) (appendStart slabs) schedule) :=
  run_invariant (fun _ thread invariant => invariant.step thread)
    (AppendInvariant.start table status slabs) schedule

/-! ## Progress -/

theorem weight_appendStep_lt {status : launch.Thread → SlpStatus}
    {state : AppendState launch} {thread : launch.Thread}
    (unfinished : (state.threads thread).Exited = false)
    (enabled : (state.threads thread).Holding ∨ state.directory (bucket thread) < lockMask) :
    total AppendThread.weight (appendStep status state thread).threads <
      total AppendThread.weight state.threads := by
  unfold appendStep
  cases phase : state.threads thread with
  | start =>
    dsimp only
    split
    · split <;> exact total_update_lt (by rw [phase]; simp [AppendThread.weight])
    · exact total_update_lt (by rw [phase]; simp [AppendThread.weight])
  | spinning index =>
    rw [phase] at enabled
    rcases enabled with holds | free
    · cases holds
    · dsimp only
      rw [if_neg (Nat.not_le_of_lt free)]
      exact total_update_lt (by rw [phase]; simp [AppendThread.weight])
  | locked index currentDir =>
    dsimp only
    split
    · split <;> exact total_update_lt (by rw [phase]; simp [AppendThread.weight])
    · exact total_update_lt (by rw [phase]; simp [AppendThread.weight])
  | exhausted currentDir => exact total_update_lt (by rw [phase]; simp [AppendThread.weight])
  | writing index count row =>
    dsimp only
    split <;> exact total_update_lt (by rw [phase]; simp [AppendThread.weight])
  | releasing count row fate => exact total_update_lt (by rw [phase]; simp [AppendThread.weight])
  | exited fate =>
    rw [phase] at unfinished
    cases unfinished

/-- No deadlock: while a thread has not exited, it or the holder of its bucket's lock
can move. -/
theorem AppendInvariant.exists_finish {status : launch.Thread → SlpStatus}
    {state : AppendState launch} (invariant : AppendInvariant status state) :
    ∃ schedule, (Transition.run (appendStep status) state schedule).Finished := by
  have progress : ∀ reached : AppendState launch, AppendInvariant status reached →
      ¬ reached.Finished → ∃ thread,
        total AppendThread.weight (appendStep status reached thread).threads <
          total AppendThread.weight reached.threads ∧
        AppendInvariant status (appendStep status reached thread) := by
    intro reached holds unfinished
    rcases not_forall.mp unfinished with ⟨thread, running⟩
    by_cases free : reached.directory (bucket thread) < lockMask
    · exact ⟨thread, weight_appendStep_lt (Bool.eq_false_iff.mpr running) (Or.inr free),
        holds.step thread⟩
    · rcases holds.locks.holder (bucket thread) (Nat.le_of_not_lt free) with
        ⟨holder, -, holding⟩
      refine ⟨holder, weight_appendStep_lt ?_ (Or.inl holding), holds.step holder⟩
      cases phase : reached.threads holder with
      | exited fate =>
        rw [phase] at holding
        cases holding
      | _ => rfl
  rcases exists_run_reaches
    (fun reached : AppendState launch => total AppendThread.weight reached.threads)
    progress state invariant with ⟨schedule, finished, -⟩
  exact ⟨schedule, finished⟩

end Dispatch

end CudaMpqs.SlabTable
