import CudaMpqs.Largeprimes.Combine

/-! # The slab table of single large primes

`largeprime.cu`: a directory word per bucket names a row of sixteen payload
words, each the tag and the store index of one witness. `directory_fetch_kernel`
reads the directory and packs a routing key for every partial of a batch. -/

namespace CudaMpqs

open Combine

namespace SlabTable

/-! ## Words -/

def rowWidthElems : Nat := 16

def lockMask : Nat := 2 ^ 63

def dirCount (entry : Nat) : Nat := entry / 2 ^ 48 % 2 ^ 15

def dirRow (entry : Nat) : Nat := entry % 2 ^ 48

def newDir (count row : Nat) : Nat := count * 2 ^ 48 + row

def payload (tag index : Nat) : Nat := tag * 2 ^ 32 + index

def payloadTag (word : Nat) : Nat := word / 2 ^ 32

def payloadIndex (word : Nat) : Nat := word % 2 ^ 32

def unusedPayload : Nat := 2 ^ 64 - 1

theorem dirCount_newDir {count row : Nat} (countFits : count < 2 ^ 15)
    (rowFits : row < 2 ^ 48) : dirCount (newDir count row) = count := by
  unfold dirCount newDir
  omega

theorem dirRow_newDir {count row : Nat} (rowFits : row < 2 ^ 48) :
    dirRow (newDir count row) = row := by
  unfold dirRow newDir
  omega

theorem newDir_lt_lockMask {count row : Nat} (countFits : count < 2 ^ 15)
    (rowFits : row < 2 ^ 48) : newDir count row < lockMask := by
  unfold newDir lockMask
  omega

theorem payloadTag_payload {tag index : Nat} (fits : index < 2 ^ 32) :
    payloadTag (payload tag index) = tag := by
  unfold payloadTag payload
  omega

theorem payloadIndex_payload (tag : Nat) {index : Nat} (fits : index < 2 ^ 32) :
    payloadIndex (payload tag index) = index := by
  unfold payloadIndex payload
  omega

theorem payload_eta (word : Nat) : payload (payloadTag word) (payloadIndex word) = word := by
  unfold payload payloadTag payloadIndex
  omega

/-! ## The device -/

/-- `LargePrimeConfig`. `initLargePrimes` makes the capacity a power of two, and
`initiate` refuses more than 31 hash bits. -/
structure LargePrimeConfig where
  logWitnessCapacity : Nat
  maxCombinedOutput : BitVec 32
  hashBits : Nat
  purgeAfterMatch : Bool
  modulus : UInt512
  hashBits_le : hashBits ≤ 31

namespace LargePrimeConfig

variable (config : LargePrimeConfig)

def maxWitnesses : BitVec 32 := BitVec.ofNat 32 (2 ^ config.logWitnessCapacity)

def maxWitnessFactors : BitVec 32 :=
  BitVec.ofNat 32 (2 ^ config.logWitnessCapacity * 64)

def maxOutputFactors : BitVec 32 :=
  BitVec.ofNat 32 (config.maxCombinedOutput.toNat * 64)

def maxSlabRows : Nat :=
  min (2 ^ config.logWitnessCapacity) (2 ^ config.hashBits) % 2 ^ 32

def hash (largePrime : Nat) : Nat := largePrime / 2 % 2 ^ config.hashBits

def tag (largePrime : Nat) : Nat := largePrime / 2 / 2 ^ config.hashBits % 2 ^ 32

end LargePrimeConfig

structure DeviceState where
  directory : Nat → Nat
  payloadSlabs : Nat → Nat → Nat
  globalRowAllocator : Nat
  witnesses : List Relation
  witnessCounter : DualCounter
  outputs : List Relation
  outputCounter : DualCounter
  slabOverflow : Nat
  witnessOverflow : Nat
  outputOverflow : Nat

def initiate : DeviceState where
  directory _ := 0
  payloadSlabs _ _ := unusedPayload
  globalRowAllocator := 0
  witnesses := []
  witnessCounter := ⟨0, 0⟩
  outputs := []
  outputCounter := ⟨0, 0⟩
  slabOverflow := 0
  witnessOverflow := 0
  outputOverflow := 0

def DeviceState.resetOutput (device : DeviceState) : DeviceState :=
  { device with outputs := [], outputCounter := ⟨0, 0⟩ }

/-- The partials of one dispatch. Post-processing passes on only remainders below
`lp1_bound`, a 64-bit number. -/
structure PartialBatch where
  rows : List Relation
  largePrime_lt : ∀ row ∈ rows, row.largePrime.toNat < 2 ^ 64

inductive SlpStatus where
  | consumed
  | needsAllocation
  | needsProbe
  | matchFound
  | needsAppend
deriving DecidableEq

namespace SlpStatus

def code : SlpStatus → Nat
  | consumed => 0
  | needsAllocation => 2
  | needsProbe => 3
  | matchFound => 4
  | needsAppend => 5

def ofCode : Nat → SlpStatus
  | 2 => needsAllocation
  | 3 => needsProbe
  | 4 => matchFound
  | 5 => needsAppend
  | _ => consumed

theorem ofCode_code (status : SlpStatus) : ofCode status.code = status := by
  cases status <;> rfl

end SlpStatus

/-! ## Directory fetch -/

/-- One call of `processAndCommit`: its kernels run one after the other, a thread
for each partial. -/
structure Dispatch where
  config : LargePrimeConfig
  device : DeviceState
  batch : PartialBatch

namespace Dispatch

variable (launch : Dispatch)

abbrev Thread := Fin launch.batch.rows.length

variable {launch}

def input (thread : launch.Thread) : Relation := launch.batch.rows.get thread

def largePrime (thread : launch.Thread) : Nat :=
  ((input thread).largePrime.setWidth 64).toNat

def hash (thread : launch.Thread) : Nat := launch.config.hash (largePrime thread)

def tag (thread : launch.Thread) : Nat := launch.config.tag (largePrime thread)

def entry (thread : launch.Thread) : Nat := launch.device.directory (hash thread)

def fetchedStatus (thread : launch.Thread) : SlpStatus :=
  if dirCount (entry thread) = 0 then .needsAllocation else .needsProbe

def routingKey (thread : launch.Thread) : Nat :=
  (fetchedStatus thread).code * 2 ^ 60 + entry thread % 2 ^ 32 % 2 ^ 28 * 2 ^ 32 + tag thread

/-! What the later kernels read back from the key. -/

def keyStatus (thread : launch.Thread) : SlpStatus :=
  SlpStatus.ofCode (routingKey thread / 2 ^ 60)

def keyRow (thread : launch.Thread) : Nat := routingKey thread / 2 ^ 32 % 2 ^ 28

def keyTag (thread : launch.Thread) : Nat := routingKey thread % 2 ^ 32

theorem tag_lt (thread : launch.Thread) : tag thread < 2 ^ 32 :=
  Nat.mod_lt _ (by decide)

@[simp] theorem keyStatus_eq (thread : launch.Thread) :
    keyStatus thread = fetchedStatus thread := by
  have row := Nat.mod_lt (entry thread % 2 ^ 32) (show 0 < 2 ^ 28 by decide)
  have tagFits := tag_lt thread
  have shifted : routingKey thread / 2 ^ 60 = (fetchedStatus thread).code := by
    unfold routingKey
    omega
  rw [keyStatus, shifted, SlpStatus.ofCode_code]

@[simp] theorem keyTag_eq (thread : launch.Thread) : keyTag thread = tag thread := by
  have tagFits := tag_lt thread
  unfold keyTag routingKey
  omega

@[simp] theorem keyRow_eq (thread : launch.Thread) : keyRow thread = entry thread % 2 ^ 28 := by
  have tagFits := tag_lt thread
  unfold keyRow routingKey
  omega

end Dispatch

end SlabTable

end CudaMpqs
