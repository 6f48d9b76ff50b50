import CudaMpqs.Foundation.RowJoin
import CudaMpqs.Foundation.ThreadTotals
import CudaMpqs.Largeprimes.Combine
import CudaMpqs.Matrix.PackedRow

/-! # The merge kernel

`execute_merges_kernel`: one thread per candidate takes the locks of its two rows,
merges them into a buffer, reserves a workspace slot, writes the merged row there,
redirects the first row to it, kills the second, and corrects the column weights. -/

namespace CudaMpqs.BatchMerge

open Combine Function Transition PackedRow

/-! ## Device memory -/

/-- A row pointer that is not `ROW_DEAD`: the original CSR, or the workspace under
`ROW_WS_BIT`. -/
inductive RowPtr (rows : Nat) where
  | original (row : Fin rows)
  | workspace (slot : Nat)
deriving DecidableEq

structure Workspace where
  entries : Nat → PackedEntry
  rowStarts : Nat → Nat
  rowLengths : Nat → Nat
  sqrtQ : Nat → UInt512
  signs : Nat → BitVec 8
  val2Exps : Nat → BitVec 32
  charBits : Nat → BitVec 32

def Workspace.row (workspace : Workspace) (slot : Nat) : PackedRow where
  entries := (List.range (workspace.rowLengths slot)).map fun k =>
    workspace.entries (workspace.rowStarts slot + k)
  sqrtQ := workspace.sqrtQ slot
  sign := workspace.signs slot
  val2Exp := workspace.val2Exps slot
  charBits := workspace.charBits slot

variable {rows : Nat}

structure Context (rows : Nat) where
  csr : Fin rows → PackedRow
  mont : Montgomery
  maxRows : BitVec 32
  maxEntries : BitVec 32
  /-- `ROW_WS_BIT` leaves 31 bits for a row. -/
  rows_lt : rows < 2 ^ 31
  maxRows_le : maxRows.toNat ≤ 2 ^ 31
  /-- `static_cast<uint32_t>(est_entries * 1.5f)`, from a float below `2 ^ 32`. -/
  maxEntries_le : maxEntries.toNat ≤ 2 ^ 32 - 2 ^ 8

structure Device (rows : Nat) where
  workspace : Workspace
  counter : DualCounter
  /-- `ROW_DEAD` is `none`. -/
  rowPtr : Fin rows → Option (RowPtr rows)
  colWeight : Nat → BitVec 32
  gf2ColWeight : Nat → BitVec 32

def resolve (context : Context rows) (workspace : Workspace) : RowPtr rows → PackedRow
  | .original row => context.csr row
  | .workspace slot => workspace.row slot

def Device.table (context : Context rows) (device : Device rows) (row : Fin rows) :
    Option PackedRow :=
  (device.rowPtr row).map (resolve context device.workspace)

structure MergeCandidate (rows : Nat) where
  r1 : Fin rows
  r2 : Fin rows
  pivotCol : Nat
deriving DecidableEq

def MergeCandidate.pair (candidate : MergeCandidate rows) : Fin rows × Fin rows :=
  (candidate.r1, candidate.r2)

structure Launch (rows : Nat) where
  context : Context rows
  device : Device rows
  candidates : List (MergeCandidate rows)

abbrev Launch.Thread (launch : Launch rows) := Fin launch.candidates.length

def Launch.candidate (launch : Launch rows) (thread : launch.Thread) : MergeCandidate rows :=
  launch.candidates.get thread

structure Memory (rows : Nat) extends Device rows where
  locks : Fin rows → Nat
  abortCount : Nat

def Memory.setRowPtr (memory : Memory rows) (row : Fin rows) (ptr : Option (RowPtr rows)) :
    Memory rows :=
  { memory with rowPtr := update memory.rowPtr row ptr }

/-! ## Threads -/

structure Job (rows : Nat) where
  ptr1 : RowPtr rows
  ptr2 : RowPtr rows
  row : PackedRow
  slot : Nat
  offset : Nat
deriving DecidableEq

inductive WeightUpdate where
  | colWeight (c : Nat) (delta : BitVec 32)
  | gf2ColWeight (c : Nat) (delta : BitVec 32)
deriving DecidableEq

inductive Fate (rows : Nat) where
  | aborted
  | executed (job : Job rows)
deriving DecidableEq

inductive Phase (rows : Nat) where
  | start
  | lockedFirst
  | lockedBoth
  | readFirst (ptr1 : Option (RowPtr rows))
  | readBoth (ptr1 ptr2 : RowPtr rows)
  | merged (ptr1 ptr2 : RowPtr rows) (row : PackedRow)
  | writing (job : Job rows) (written : Nat)
  | describing (job : Job rows) (written : Nat)
  | publishing (job : Job rows)
  | consuming (job : Job rows)
  | weighing (job : Job rows) (updates : List WeightUpdate)
  | releasing (fate : Fate rows) (locks : List (Fin rows))
  | exited (fate : Fate rows)
deriving DecidableEq

/-- The arrays with one place per slot, in the order in which they are written. -/
def Workspace.describe (workspace : Workspace) (job : Job rows) : Nat → Workspace
  | 0 => { workspace with rowStarts := update workspace.rowStarts job.slot job.offset }
  | 1 => { workspace with
      rowLengths := update workspace.rowLengths job.slot job.row.entries.length }
  | 2 => { workspace with sqrtQ := update workspace.sqrtQ job.slot job.row.sqrtQ }
  | 3 => { workspace with signs := update workspace.signs job.slot job.row.sign }
  | 4 => { workspace with val2Exps := update workspace.val2Exps job.slot job.row.val2Exp }
  | _ => { workspace with charBits := update workspace.charBits job.slot job.row.charBits }

/-- Both source rows leave the matrix, and the merged row enters it. -/
def weightUpdates (left right merged : List PackedEntry) : List WeightUpdate :=
  (left.map fun entry => .colWeight entry.1 (-1)) ++
    (right.map fun entry => .colWeight entry.1 (-1)) ++
    (merged.map fun entry => .colWeight entry.1 1) ++
    ((left.filter oddExp).map fun entry => .gf2ColWeight entry.1 (-1)) ++
    ((right.filter oddExp).map fun entry => .gf2ColWeight entry.1 (-1)) ++
    ((merged.filter oddExp).map fun entry => .gf2ColWeight entry.1 1)

def WeightUpdate.apply (memory : Memory rows) : WeightUpdate → Memory rows
  | .colWeight c delta =>
    { memory with colWeight := update memory.colWeight c (memory.colWeight c + delta) }
  | .gf2ColWeight c delta =>
    { memory with
      gf2ColWeight := update memory.gf2ColWeight c (memory.gf2ColWeight c + delta) }

def act (launch : Launch rows) (thread : launch.Thread) (memory : Memory rows) :
    Phase rows → Memory rows × Phase rows
  | .start =>
    let r1 := (launch.candidate thread).r1
    if memory.locks r1 = 0 then
      ({ memory with locks := update memory.locks r1 (thread + 1) }, .lockedFirst)
    else (memory, .releasing .aborted [])
  | .lockedFirst =>
    let r2 := (launch.candidate thread).r2
    if memory.locks r2 = 0 then
      ({ memory with locks := update memory.locks r2 (thread + 1) }, .lockedBoth)
    else (memory, .releasing .aborted [(launch.candidate thread).r1])
  | .lockedBoth => (memory, .readFirst (memory.rowPtr (launch.candidate thread).r1))
  | .readFirst ptr1 =>
    match ptr1, memory.rowPtr (launch.candidate thread).r2 with
    | some ptr1, some ptr2 => (memory, .readBoth ptr1 ptr2)
    | _, _ => (memory, .releasing .aborted
        [(launch.candidate thread).r1, (launch.candidate thread).r2])
  | .readBoth ptr1 ptr2 =>
    match mergeRows launch.context.mont
      (resolve launch.context memory.workspace ptr1)
      (resolve launch.context memory.workspace ptr2) with
    | some row => (memory, .merged ptr1 ptr2 row)
    | none => (memory, .releasing .aborted
        [(launch.candidate thread).r1, (launch.candidate thread).r2])
  | .merged ptr1 ptr2 row =>
    match atomicReserveDual memory.counter (BitVec.ofNat 32 row.entries.length)
      launch.context.maxRows launch.context.maxEntries with
    | some reserved => ({ memory with counter := reserved },
        .writing ⟨ptr1, ptr2, row, memory.counter.relations.toNat,
          memory.counter.factors.toNat⟩ 0)
    | none => (memory, .releasing .aborted
        [(launch.candidate thread).r1, (launch.candidate thread).r2])
  | .writing job written =>
    match job.row.entries[written]? with
    | some entry => ({ memory with workspace := { memory.workspace with
          entries := update memory.workspace.entries (job.offset + written) entry } },
        .writing job (written + 1))
    | none => (memory, .describing job 0)
  | .describing job written =>
    if written < 6 then
      ({ memory with workspace := memory.workspace.describe job written },
        .describing job (written + 1))
    else (memory, .publishing job)
  | .publishing job =>
    (memory.setRowPtr (launch.candidate thread).r1 (some (.workspace job.slot)), .consuming job)
  | .consuming job =>
    (memory.setRowPtr (launch.candidate thread).r2 none, .weighing job (weightUpdates
        (resolve launch.context memory.workspace job.ptr1).entries
        (resolve launch.context memory.workspace job.ptr2).entries job.row.entries))
  | .weighing job (change :: updates) => (change.apply memory, .weighing job updates)
  | .weighing job [] => (memory, .releasing (.executed job)
      [(launch.candidate thread).r1, (launch.candidate thread).r2])
  | .releasing fate (row :: locks) =>
    ({ memory with locks := update memory.locks row 0 }, .releasing fate locks)
  | .releasing .aborted [] =>
    ({ memory with abortCount := memory.abortCount + 1 }, .exited .aborted)
  | .releasing (.executed job) [] => (memory, .exited (.executed job))
  | .exited fate => (memory, .exited fate)

/-! ## Interleavings -/

structure KernelState (launch : Launch rows) where
  memory : Memory rows
  threads : launch.Thread → Phase rows

variable {launch : Launch rows}

def kernelStart (launch : Launch rows) : KernelState launch where
  memory := { launch.device with locks := fun _ => 0, abortCount := 0 }
  threads _ := .start

def kernelStep (state : KernelState launch) (thread : launch.Thread) : KernelState launch where
  memory := (act launch thread state.memory (state.threads thread)).1
  threads := update state.threads thread
    (act launch thread state.memory (state.threads thread)).2

def Phase.Exited : Phase rows → Bool
  | .exited _ => true
  | _ => false

def KernelState.Finished (state : KernelState launch) : Prop :=
  ∀ thread, (state.threads thread).Exited = true

instance (state : KernelState launch) : Decidable state.Finished :=
  inferInstanceAs (Decidable (∀ _ : launch.Thread, _ = _))

def Phase.job : Phase rows → Option (Job rows)
  | .writing job _ => some job
  | .describing job _ => some job
  | .publishing job => some job
  | .consuming job => some job
  | .weighing job _ => some job
  | .releasing (.executed job) _ => some job
  | .exited (.executed job) => some job
  | _ => none

/-! ## The device between launches -/

def columnWeight (count : PackedRow → Nat) (table : Fin rows → Option PackedRow) : BitVec 32 :=
  ∑ row, RowJoin.valueOf (fun packed => (count packed : BitVec 32)) (table row)

def Workspace.Apart (workspace : Workspace) (slot other : Nat) : Prop :=
  workspace.rowStarts slot + workspace.rowLengths slot ≤ workspace.rowStarts other ∨
    workspace.rowStarts other + workspace.rowLengths other ≤ workspace.rowStarts slot

/-- Pointers name their own original row or a slot in use, different rows different
slots; slots in use have entries of their own; the weights are those of the alive
rows. -/
structure Device.Valid (context : Context rows) (device : Device rows) : Prop where
  original : ∀ {row source}, device.rowPtr row = some (.original source) → source = row
  slot_lt : ∀ {row slot}, device.rowPtr row = some (.workspace slot) →
    slot < device.counter.relations.toNat
  slot_injective : ∀ {row row' slot}, device.rowPtr row = some (.workspace slot) →
    device.rowPtr row' = some (.workspace slot) → row = row'
  end_le : ∀ slot < device.counter.relations.toNat,
    device.workspace.rowStarts slot + device.workspace.rowLengths slot ≤
      device.counter.factors.toNat
  apart : ∀ slot < device.counter.relations.toNat,
    ∀ other < device.counter.relations.toNat, slot ≠ other → device.workspace.Apart slot other
  relations_le : device.counter.relations.toNat ≤ context.maxRows.toNat
  factors_le : device.counter.factors.toNat ≤ context.maxEntries.toNat
  colWeight : ∀ c, device.colWeight c = columnWeight (entryCount c) (device.table context)
  gf2ColWeight : ∀ c, device.gf2ColWeight c = columnWeight (oddCount c) (device.table context)

def freshDevice (context : Context rows) (workspace : Workspace) : Device rows where
  workspace := workspace
  counter := ⟨0, 0⟩
  rowPtr row := some (.original row)
  colWeight c := columnWeight (entryCount c) fun row => some (context.csr row)
  gf2ColWeight c := columnWeight (oddCount c) fun row => some (context.csr row)

theorem freshDevice_valid (context : Context rows) (workspace : Workspace) :
    (freshDevice context workspace).Valid context where
  original pointer := by
    injection pointer with equal
    injection equal with same
    exact same.symm
  slot_lt pointer := nomatch pointer
  slot_injective pointer := nomatch pointer
  end_le slot below := absurd below (Nat.not_lt_zero slot)
  apart slot below := absurd below (Nat.not_lt_zero slot)
  relations_le := Nat.zero_le _
  factors_le := Nat.zero_le _
  colWeight _ := rfl
  gf2ColWeight _ := rfl

end CudaMpqs.BatchMerge
