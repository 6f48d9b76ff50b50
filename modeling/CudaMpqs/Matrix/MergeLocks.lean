import CudaMpqs.Matrix.ExecuteMerges

/-! # The row locks of the merge kernel

Between any two steps of `execute_merges_kernel` a row lock names the one thread
that holds it, and nothing but the holder changes what it covers. -/

namespace CudaMpqs.BatchMerge

open Combine Function Transition PackedRow

variable {rows : Nat} {launch : Launch rows}

/-! ## Phases -/

namespace Phase

def held (candidate : MergeCandidate rows) : Phase rows → List (Fin rows)
  | .start => []
  | .lockedFirst => [candidate.r1]
  | .releasing _ locks => locks
  | .exited _ => []
  | _ => [candidate.r1, candidate.r2]

def openJob : Phase rows → Option (Job rows)
  | .writing job _ => some job
  | .describing job _ => some job
  | _ => none

def storedJob : Phase rows → Option (Job rows)
  | .publishing job => some job
  | .consuming job => some job
  | .weighing job _ => some job
  | .releasing (.executed job) _ => some job
  | .exited (.executed job) => some job
  | _ => none

def transitJob : Phase rows → Option (Job rows)
  | .writing job _ => some job
  | .describing job _ => some job
  | .publishing job => some job
  | .consuming job => some job
  | _ => none

theorem job_of_stored {phase : Phase rows} {job : Job rows}
    (stored : phase.storedJob = some job) : phase.job = some job := by
  cases phase with
  | releasing fate locks => cases fate <;> exact stored
  | exited fate => cases fate <;> exact stored
  | publishing => exact stored
  | consuming => exact stored
  | weighing => exact stored
  | _ => cases stored

theorem job_of_open {phase : Phase rows} {job : Job rows}
    (isOpen : phase.openJob = some job) : phase.job = some job := by
  cases phase with
  | writing => exact isOpen
  | describing => exact isOpen
  | _ => cases isOpen

theorem held_of_transit {phase : Phase rows} {job : Job rows}
    (transit : phase.transitJob = some job) (candidate : MergeCandidate rows) :
    phase.held candidate = [candidate.r1, candidate.r2] := by
  cases phase with
  | writing => rfl
  | describing => rfl
  | publishing => rfl
  | consuming => rfl
  | _ => cases transit

end Phase

/-! ## Actions -/

inductive Acts (launch : Launch rows) (thread : launch.Thread) (memory : Memory rows) :
    Phase rows → Memory rows → Phase rows → Prop where
  | lockFirst (free : memory.locks (launch.candidate thread).r1 = 0) :
      Acts launch thread memory .start
        { memory with locks := update memory.locks (launch.candidate thread).r1 (thread + 1) }
        .lockedFirst
  | missFirst : Acts launch thread memory .start memory (.releasing .aborted [])
  | lockBoth (free : memory.locks (launch.candidate thread).r2 = 0) :
      Acts launch thread memory .lockedFirst
        { memory with locks := update memory.locks (launch.candidate thread).r2 (thread + 1) }
        .lockedBoth
  | missBoth : Acts launch thread memory .lockedFirst memory
      (.releasing .aborted [(launch.candidate thread).r1])
  | readFirst : Acts launch thread memory .lockedBoth memory
      (.readFirst (memory.rowPtr (launch.candidate thread).r1))
  | readBoth {ptr1 ptr2 : RowPtr rows}
      (isPtr2 : memory.rowPtr (launch.candidate thread).r2 = some ptr2) :
      Acts launch thread memory (.readFirst (some ptr1)) memory (.readBoth ptr1 ptr2)
  | readDead (ptr1 : Option (RowPtr rows)) : Acts launch thread memory (.readFirst ptr1) memory
      (.releasing .aborted [(launch.candidate thread).r1, (launch.candidate thread).r2])
  | merge {ptr1 ptr2 : RowPtr rows} {row : PackedRow}
      (merges : mergeRows launch.context.mont (resolve launch.context memory.workspace ptr1)
        (resolve launch.context memory.workspace ptr2) = some row) :
      Acts launch thread memory (.readBoth ptr1 ptr2) memory (.merged ptr1 ptr2 row)
  | tooLong (ptr1 ptr2 : RowPtr rows) : Acts launch thread memory (.readBoth ptr1 ptr2) memory
      (.releasing .aborted [(launch.candidate thread).r1, (launch.candidate thread).r2])
  | reserve {ptr1 ptr2 : RowPtr rows} {row : PackedRow} {reserved : DualCounter}
      (reserves : atomicReserveDual memory.counter (BitVec.ofNat 32 row.entries.length)
        launch.context.maxRows launch.context.maxEntries = some reserved) :
      Acts launch thread memory (.merged ptr1 ptr2 row) { memory with counter := reserved }
        (.writing ⟨ptr1, ptr2, row, memory.counter.relations.toNat, memory.counter.factors.toNat⟩ 0)
  | full (ptr1 ptr2 : RowPtr rows) (row : PackedRow) :
      Acts launch thread memory (.merged ptr1 ptr2 row) memory
        (.releasing .aborted [(launch.candidate thread).r1, (launch.candidate thread).r2])
  | write {job : Job rows} {written : Nat} {entry : PackedEntry}
      (isEntry : job.row.entries[written]? = some entry) :
      Acts launch thread memory (.writing job written)
        { memory with workspace := { memory.workspace with
          entries := update memory.workspace.entries (job.offset + written) entry } }
        (.writing job (written + 1))
  | written {job : Job rows} {written : Nat} (complete : job.row.entries.length ≤ written) :
      Acts launch thread memory (.writing job written) memory (.describing job 0)
  | describe {job : Job rows} {written : Nat} (open' : written < 6) :
      Acts launch thread memory (.describing job written)
        { memory with workspace := memory.workspace.describe job written }
        (.describing job (written + 1))
  | described {job : Job rows} {written : Nat} (complete : 6 ≤ written) :
      Acts launch thread memory (.describing job written) memory (.publishing job)
  | publish (job : Job rows) : Acts launch thread memory (.publishing job)
      (memory.setRowPtr (launch.candidate thread).r1 (some (.workspace job.slot)))
      (.consuming job)
  | consume (job : Job rows) : Acts launch thread memory (.consuming job)
      (memory.setRowPtr (launch.candidate thread).r2 none)
      (.weighing job (weightUpdates (resolve launch.context memory.workspace job.ptr1).entries
        (resolve launch.context memory.workspace job.ptr2).entries job.row.entries))
  | weigh (job : Job rows) (change : WeightUpdate) (updates : List WeightUpdate) :
      Acts launch thread memory (.weighing job (change :: updates)) (change.apply memory)
        (.weighing job updates)
  | weighed (job : Job rows) : Acts launch thread memory (.weighing job []) memory
      (.releasing (.executed job) [(launch.candidate thread).r1, (launch.candidate thread).r2])
  | unlock {fate : Fate rows} (row : Fin rows) (locks : List (Fin rows)) :
      Acts launch thread memory (.releasing fate (row :: locks))
        { memory with locks := update memory.locks row 0 } (.releasing fate locks)
  | countAbort : Acts launch thread memory (.releasing .aborted [])
      { memory with abortCount := memory.abortCount + 1 } (.exited .aborted)
  | finish (job : Job rows) : Acts launch thread memory (.releasing (.executed job) []) memory
      (.exited (.executed job))
  | idle (fate : Fate rows) : Acts launch thread memory (.exited fate) memory (.exited fate)

theorem acts (launch : Launch rows) (thread : launch.Thread) (memory : Memory rows)
    (phase : Phase rows) : Acts launch thread memory phase
      (act launch thread memory phase).1 (act launch thread memory phase).2 := by
  cases phase with
  | start =>
    rw [act]
    split
    · exact .lockFirst ‹_›
    · exact .missFirst
  | lockedFirst =>
    rw [act]
    split
    · exact .lockBoth ‹_›
    · exact .missBoth
  | lockedBoth => exact .readFirst
  | readFirst ptr1 =>
    unfold act
    dsimp only
    split
    · exact .readBoth ‹_›
    · exact .readDead _
  | readBoth ptr1 ptr2 =>
    rw [act]
    split
    · exact .merge ‹_›
    · exact .tooLong ptr1 ptr2
  | merged ptr1 ptr2 row =>
    rw [act]
    split
    · exact .reserve ‹_›
    · exact .full ptr1 ptr2 row
  | writing job written =>
    rw [act]
    split
    · exact .write ‹_›
    · rename_i none
      exact .written (List.getElem?_eq_none_iff.mp none)
  | describing job written =>
    rw [act]
    split
    · exact .describe ‹_›
    · exact .described (Nat.le_of_not_lt ‹_›)
  | publishing job => exact .publish job
  | consuming job => exact .consume job
  | weighing job updates =>
    cases updates with
    | nil => exact .weighed job
    | cons change updates => exact .weigh job change updates
  | releasing fate locks =>
    cases locks with
    | nil =>
      cases fate with
      | aborted => exact .countAbort
      | executed job => exact .finish job
    | cons row locks => cases fate <;> exact .unlock row locks
  | exited fate => exact .idle fate

/-! ## Locks -/

def KernelState.held (state : KernelState launch) (thread : launch.Thread) : List (Fin rows) :=
  (state.threads thread).held (launch.candidate thread)

structure Locked (state : KernelState launch) : Prop where
  held_iff : ∀ thread row, row ∈ state.held thread ↔ state.memory.locks row = (thread : Nat) + 1
  nodup : ∀ thread, (state.held thread).Nodup
  owned : ∀ row, state.memory.locks row ≠ 0 →
    ∃ thread : launch.Thread, state.memory.locks row = (thread : Nat) + 1

theorem Locked.exclusive {state : KernelState launch} (locked : Locked state)
    {thread other : launch.Thread} {row : Fin rows} (holds : row ∈ state.held thread)
    (otherHolds : row ∈ state.held other) : thread = other := by
  have first := (locked.held_iff thread row).mp holds
  have second := (locked.held_iff other row).mp otherHolds
  apply Fin.ext
  omega

theorem locked_start : Locked (kernelStart launch) where
  held_iff thread row := by
    constructor
    · intro member
      cases member
    · intro equal
      cases equal
  nodup _ := .nil
  owned _ taken := absurd rfl taken

structure LockChange (thread : launch.Thread) (memory memory' : Memory rows)
    (phase phase' : Phase rows) : Prop where
  taken : ∀ row ∈ phase'.held (launch.candidate thread),
    row ∉ phase.held (launch.candidate thread) → memory.locks row = 0
  holds : ∀ row ∈ phase'.held (launch.candidate thread), memory'.locks row = (thread : Nat) + 1
  released : ∀ row ∉ phase'.held (launch.candidate thread),
    row ∈ phase.held (launch.candidate thread) → memory'.locks row = 0
  untouched : ∀ row ∉ phase'.held (launch.candidate thread),
    row ∉ phase.held (launch.candidate thread) → memory'.locks row = memory.locks row
  nodup : (phase'.held (launch.candidate thread)).Nodup

section LockChange

variable {thread : launch.Thread} {state : KernelState launch} {memory' : Memory rows}
  {phase phase' : Phase rows}

private theorem held_update (thread other : launch.Thread) (memory' : Memory rows)
    (phase' : Phase rows) :
    KernelState.held ⟨memory', update state.threads thread phase'⟩ other =
      if other = thread then phase'.held (launch.candidate thread) else state.held other := by
  change (update state.threads thread phase' other).held (launch.candidate other) = _
  rw [update_apply]
  split
  · rename_i isOwn
    rw [isOwn]
  · rfl

theorem Locked.step (locked : Locked state)
    (change : LockChange thread state.memory memory' (state.threads thread) phase') :
    Locked ⟨memory', update state.threads thread phase'⟩ := by
  have mine := locked.held_iff thread
  constructor
  · intro other row
    rw [held_update]
    split
    · rename_i isOwn
      rw [isOwn]
      constructor
      · exact change.holds row
      · intro marked
        by_contra outside
        by_cases before : row ∈ state.held thread
        · exact Nat.succ_ne_zero _ (marked.symm.trans (change.released row outside before))
        · have same : memory'.locks row = _ := change.untouched row outside before
          exact before ((mine row).mpr (same.symm.trans marked))
    · rename_i isOther
      have notThread : (other : Nat) ≠ thread := fun equal => isOther (Fin.ext equal)
      rw [locked.held_iff other row]
      change _ ↔ memory'.locks row = _
      by_cases inside : row ∈ phase'.held (launch.candidate thread)
      · rw [change.holds row inside]
        by_cases before : row ∈ state.held thread
        · rw [(mine row).mp before]
        · rw [change.taken row inside before]
          omega
      · by_cases before : row ∈ state.held thread
        · rw [change.released row inside before, (mine row).mp before]
          omega
        · rw [change.untouched row inside before]
  · intro other
    rw [held_update]
    split
    · exact change.nodup
    · exact locked.nodup other
  · intro row marked
    by_cases inside : row ∈ phase'.held (launch.candidate thread)
    · exact ⟨thread, change.holds row inside⟩
    · by_cases before : row ∈ state.held thread
      · exact absurd (change.released row inside before) marked
      · have same : memory'.locks row = _ := change.untouched row inside before
        rcases locked.owned row (fun free => marked (same.trans free)) with ⟨other, isOther⟩
        exact ⟨other, same.trans isOther⟩

section

variable (locked : Locked state) (isPhase : state.threads thread = phase)

include locked isPhase

theorem Locked.mem_held_iff (row : Fin rows) : row ∈ phase.held (launch.candidate thread) ↔
      state.memory.locks row = (thread : Nat) + 1 := by
  rw [← isPhase]
  exact locked.held_iff thread row

theorem Locked.held_nodup : (phase.held (launch.candidate thread)).Nodup := by
  rw [← isPhase]
  exact locked.nodup thread

theorem Locked.keeps (locks : memory'.locks = state.memory.locks)
    (same : phase'.held (launch.candidate thread) = phase.held (launch.candidate thread)) :
    LockChange thread state.memory memory' phase phase' := by
  constructor
  · intro row inside outside
    rw [same] at inside
    exact absurd inside outside
  · intro row inside
    rw [same] at inside
    rw [locks]
    exact (locked.mem_held_iff isPhase row).mp inside
  · intro row outside inside
    rw [same] at outside
    exact absurd inside outside
  · intro row _ _
    rw [locks]
  · rw [same]
    exact locked.held_nodup isPhase

theorem Locked.acquires {row : Fin rows} (free : state.memory.locks row = 0)
    (locks : memory'.locks = update state.memory.locks row (thread + 1))
    (grows : phase'.held (launch.candidate thread) =
      phase.held (launch.candidate thread) ++ [row]) :
    LockChange thread state.memory memory' phase phase' := by
  have mine := locked.mem_held_iff isPhase
  have notHeld : row ∉ phase.held (launch.candidate thread) := by
    intro holds
    have marked := (mine row).mp holds
    omega
  have members : ∀ other, other ∈ phase'.held (launch.candidate thread) ↔
      other ∈ phase.held (launch.candidate thread) ∨ other = row := by
    intro other
    rw [grows, List.mem_append, List.mem_singleton]
  constructor
  · intro other inside outside
    rcases (members other).mp inside with before | isRow
    · exact absurd before outside
    · rw [isRow, free]
  · intro other inside
    rw [locks]
    rcases (members other).mp inside with before | isRow
    · have different : other ≠ row := by
        rintro rfl
        exact notHeld before
      rw [update_of_ne different]
      exact (mine other).mp before
    · rw [isRow, update_self]
  · intro other outside before
    exact absurd ((members other).mpr (Or.inl before)) outside
  · intro other outside _
    have different : other ≠ row := fun isRow => outside ((members other).mpr (Or.inr isRow))
    rw [locks, update_of_ne different]
  · rw [grows]
    refine List.nodup_append.mpr ⟨locked.held_nodup isPhase, List.nodup_singleton row, ?_⟩
    intro other before single member equal
    rw [equal, List.mem_singleton.mp member] at before
    exact notHeld before

theorem Locked.releases {row : Fin rows} (locks : memory'.locks = update state.memory.locks row 0)
    (shrinks : phase.held (launch.candidate thread) =
      row :: phase'.held (launch.candidate thread)) :
    LockChange thread state.memory memory' phase phase' := by
  have mine := locked.mem_held_iff isPhase
  have nodup := locked.held_nodup isPhase
  rw [shrinks, List.nodup_cons] at nodup
  have before : ∀ other, other ∈ phase.held (launch.candidate thread) ↔
      other = row ∨ other ∈ phase'.held (launch.candidate thread) := by
    intro other
    rw [shrinks, List.mem_cons]
  constructor
  · intro other inside outside
    exact absurd ((before other).mpr (Or.inr inside)) outside
  · intro other inside
    have different : other ≠ row := by
      rintro rfl
      exact nodup.1 inside
    rw [locks, update_of_ne different]
    exact (mine other).mp ((before other).mpr (Or.inr inside))
  · intro other outside inside
    rcases (before other).mp inside with isRow | still
    · rw [locks, isRow, update_self]
    · exact absurd still outside
  · intro other _ outside
    have different : other ≠ row := fun isRow => outside ((before other).mpr (Or.inl isRow))
    rw [locks, update_of_ne different]
  · exact nodup.2

theorem Locked.act (acts : Acts launch thread state.memory phase memory' phase') :
    LockChange thread state.memory memory' phase phase' := by
  cases acts with
  | lockFirst free => exact locked.acquires isPhase free rfl rfl
  | lockBoth free => exact locked.acquires isPhase free rfl rfl
  | unlock row locks => exact locked.releases isPhase rfl rfl
  | weigh job change => exact locked.keeps isPhase (by cases change <;> rfl) rfl
  | _ => exact locked.keeps isPhase rfl rfl

end

end LockChange

end CudaMpqs.BatchMerge
