import CudaMpqs.Foundation.ThreadTotals
import CudaMpqs.Largeprimes.SlabProbe

/-! # Appending to the slab table

`global_append_kernel`: a thread reserves a place in the witness store and copies
its partial there, takes the lock of its bucket, writes the payload into the
bucket's row and releases the lock with the new count. -/

namespace CudaMpqs.SlabTable

open Combine Transition Function ThreadTotals

namespace Dispatch

variable {launch : Dispatch}

/-! ## The kernel -/

inductive AppendFate where
  | skipped
  | witnessOverflow
  | slabOverflow
  | appended (index row slot : Nat)
deriving DecidableEq

inductive AppendThread where
  | start
  | spinning (index : Nat)
  | locked (index currentDir : Nat)
  | exhausted (currentDir : Nat)
  | writing (index count row : Nat)
  | releasing (count row : Nat) (fate : AppendFate)
  | exited (fate : AppendFate)
deriving DecidableEq

variable (launch) in
structure AppendState where
  counter : DualCounter
  witnesses : List Relation
  directory : Nat → Nat
  slabs : Nat → Nat → Nat
  allocator : Nat
  slabOverflow : Nat
  witnessOverflow : Nat
  threads : launch.Thread → AppendThread

def appendStart (slabs : Nat → Nat → Nat) : AppendState launch where
  counter := launch.device.witnessCounter
  witnesses := launch.device.witnesses
  directory := launch.device.directory
  slabs := slabs
  allocator := launch.device.globalRowAllocator
  slabOverflow := launch.device.slabOverflow
  witnessOverflow := launch.device.witnessOverflow
  threads _ := .start

def bucket (thread : launch.Thread) : Nat := hash thread % 2 ^ 32

theorem bucket_eq (thread : launch.Thread) : bucket thread = hash thread := by
  apply Nat.mod_eq_of_lt
  calc hash thread < 2 ^ launch.config.hashBits := Nat.mod_lt _ (Nat.two_pow_pos _)
    _ ≤ 2 ^ 31 := Nat.pow_le_pow_right (by decide) launch.config.hashBits_le
    _ < 2 ^ 32 := by decide

def Appends (status : launch.Thread → SlpStatus) (thread : launch.Thread) : Prop :=
  status thread = .needsAllocation ∨ status thread = .needsAppend

instance (status : launch.Thread → SlpStatus) (thread : launch.Thread) :
    Decidable (Appends status thread) := inferInstanceAs (Decidable (_ ∨ _))

def reserveWitness (state : AppendState launch) (thread : launch.Thread) : Option DualCounter :=
  atomicReserveDual state.counter (BitVec.ofNat 32 (input thread).factors.length)
    launch.config.maxWitnesses launch.config.maxWitnessFactors

def appendStep (status : launch.Thread → SlpStatus) (state : AppendState launch)
    (thread : launch.Thread) : AppendState launch :=
  match state.threads thread with
  | .start =>
    if Appends status thread then
      match reserveWitness state thread with
      | none => { state with
          witnessOverflow := state.witnessOverflow + 1
          threads := update state.threads thread (.exited .witnessOverflow) }
      | some reserved => { state with
          counter := reserved
          witnesses := state.witnesses ++ [input thread]
          threads :=
            update state.threads thread (.spinning state.counter.relations.toNat) }
    else { state with threads := update state.threads thread (.exited .skipped) }
  | .spinning index =>
    let currentDir := state.directory (bucket thread)
    if lockMask ≤ currentDir then state
    else { state with
      directory := update state.directory (bucket thread) (currentDir + lockMask)
      threads := update state.threads thread (.locked index currentDir) }
  | .locked index currentDir =>
    if dirCount currentDir = 0 then
      let row := state.allocator
      if launch.config.maxSlabRows ≤ row then { state with
        allocator := (row + 1) % 2 ^ 32
        slabOverflow := state.slabOverflow + 1
        threads := update state.threads thread (.exhausted currentDir) }
      else { state with
        allocator := (row + 1) % 2 ^ 32
        threads := update state.threads thread (.writing index 0 row) }
    else { state with
      threads := update state.threads thread
        (.writing index (dirCount currentDir) (dirRow currentDir)) }
  | .exhausted currentDir => { state with
      directory := update state.directory (bucket thread) currentDir
      threads := update state.threads thread (.exited .slabOverflow) }
  | .writing index count row =>
    if count < rowWidthElems then { state with
      slabs := setSlot state.slabs row count (payload (keyTag thread) index)
      threads := update state.threads thread
        (.releasing (count + 1) row (.appended index row count)) }
    else { state with
      slabOverflow := state.slabOverflow + 1
      threads := update state.threads thread (.releasing count row .slabOverflow) }
  | .releasing count row fate => { state with
      directory := update state.directory (bucket thread) (newDir count row)
      threads := update state.threads thread (.exited fate) }
  | .exited _ => state

def AppendThread.Exited : AppendThread → Bool
  | .exited _ => true
  | _ => false

def AppendState.Finished (state : AppendState launch) : Prop :=
  ∀ thread, (state.threads thread).Exited

instance (state : AppendState launch) : Decidable state.Finished :=
  inferInstanceAs (Decidable (∀ thread, _))

def AppendState.fate (state : AppendState launch) (thread : launch.Thread) : AppendFate :=
  match state.threads thread with
  | .exited fate => fate
  | _ => .skipped

end Dispatch

/-! ## The table between kernels -/

structure TableInvariant (device : DeviceState) : Prop where
  unlocked : ∀ bucket, device.directory bucket < lockMask
  count_le : ∀ bucket, dirCount (device.directory bucket) ≤ rowWidthElems
  row_lt : ∀ bucket, 0 < dirCount (device.directory bucket) →
    dirRow (device.directory bucket) < device.globalRowAllocator
  row_injective : ∀ bucket bucket', 0 < dirCount (device.directory bucket) →
    0 < dirCount (device.directory bucket') →
    dirRow (device.directory bucket) = dirRow (device.directory bucket') →
    bucket = bucket'
  allocator_le : device.globalRowAllocator ≤ device.witnesses.length
  store : device.witnesses.length = device.witnessCounter.relations.toNat
  narrow : ∀ witness ∈ device.witnesses, witness.largePrime.toNat < 2 ^ 64

theorem TableInvariant.initiate : TableInvariant initiate where
  unlocked _ := Nat.two_pow_pos 63
  count_le _ := show dirCount 0 ≤ rowWidthElems by decide
  row_lt _ used := absurd used (show ¬0 < dirCount 0 by decide)
  row_injective _ _ used := absurd used (show ¬0 < dirCount 0 by decide)
  allocator_le := Nat.le_refl 0
  store := rfl
  narrow _ member := by cases member

end CudaMpqs.SlabTable
