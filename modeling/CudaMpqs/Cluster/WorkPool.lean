import CudaMpqs.Foundation.Interval
import CudaMpqs.Foundation.Transition

/-! # The cluster work pool

The tracked-checkout pool of `work_pool.cpp`. Cursors and counts are `uint64_t`
and chunk ids `uint32_t`. -/

namespace CudaMpqs

abbrev WorkUnit := Interval

structure CheckedOutWork where
  chunkId : Nat
  unit : WorkUnit
  workerId : Nat
deriving DecidableEq

structure WorkPool where
  next : Nat
  endCursor : Nat
  unitSize : Nat
  nextChunkId : Nat
  inFlightChunks : List CheckedOutWork
  returned : List WorkUnit
deriving DecidableEq

namespace WorkPool

open CudaMpqs.Interval

def wrap64 (number : Nat) : Nat := number % 2 ^ 64

def create (aStart totalA unitSize : Nat) : WorkPool where
  next := aStart
  endCursor := wrap64 (aStart + totalA)
  unitSize := unitSize
  nextChunkId := 0
  inFlightChunks := []
  returned := []

def track (self : WorkPool) (unit : WorkUnit) (workerId : Nat) : Option CheckedOutWork × WorkPool :=
  let checkedOut : CheckedOutWork := ⟨self.nextChunkId, unit, workerId⟩
  (some checkedOut,
    { self with
      nextChunkId := (self.nextChunkId + 1) % 2 ^ 32
      inFlightChunks := self.inFlightChunks ++ [checkedOut] })

def checkoutWork (self : WorkPool) (count workerId : Nat) : Option CheckedOutWork × WorkPool :=
  match self.returned.getLast? with
  | some unit =>
    if count < unit.count then
      let remainder : WorkUnit :=
        ⟨wrap64 (unit.start + count), unit.count - count⟩
      track { self with returned := self.returned.dropLast ++ [remainder] }
        ⟨unit.start, count⟩ workerId
    else
      track { self with returned := self.returned.dropLast } unit workerId
  | none =>
    if self.endCursor ≤ self.next then (none, self)
    else
      let actual := min count (self.endCursor - self.next)
      track { self with next := wrap64 (self.next + actual) }
        ⟨self.next, actual⟩ workerId

def findChunk (self : WorkPool) (chunkId : Nat) : Option CheckedOutWork :=
  self.inFlightChunks.find? (·.chunkId == chunkId)

def eraseChunk (self : WorkPool) (chunkId : Nat) : WorkPool :=
  { self with
    inFlightChunks := self.inFlightChunks.eraseP (·.chunkId == chunkId) }

def completeChunk (self : WorkPool) (chunkId : Nat) : WorkPool :=
  self.eraseChunk chunkId

def returnChunk (self : WorkPool) (chunkId : Nat) : Nat × WorkPool :=
  match self.findChunk chunkId with
  | some chunk =>
    (chunk.unit.count,
      { self.eraseChunk chunkId with
        returned := self.returned ++ [chunk.unit] })
  | none => (0, self)

def reclaimWork (self : WorkPool) (workerId : Nat) : Nat × WorkPool :=
  let reclaimed :=
    (self.inFlightChunks.filter (·.workerId == workerId)).map (·.unit)
  (reclaimed.foldl (fun total unit => wrap64 (total + unit.count)) 0,
    { self with
      inFlightChunks :=
        self.inFlightChunks.filter fun chunk => !(chunk.workerId == workerId)
      returned := self.returned ++ reclaimed })

def consumedPart (unit : WorkUnit) (consumedCount : Nat) : WorkUnit :=
  ⟨unit.start, min consumedCount unit.count⟩

def reclaimPartial (self : WorkPool) (chunkId consumedCount : Nat) : WorkPool :=
  match self.findChunk chunkId with
  | none => self
  | some chunk =>
    let actualConsumed := min consumedCount chunk.unit.count
    let remainder := chunk.unit.count - actualConsumed
    { self.eraseChunk chunkId with
      returned :=
        if 0 < remainder then
          self.returned ++ [⟨wrap64 (chunk.unit.start + actualConsumed), remainder⟩]
        else self.returned }

def exhausted (self : WorkPool) : Bool :=
  decide (self.endCursor ≤ self.next) && self.returned.isEmpty

def completedPrefixCursor (self : WorkPool) : Nat :=
  self.returned.foldl (fun cursor unit => min cursor unit.start)
    (self.inFlightChunks.foldl (fun cursor chunk => min cursor chunk.unit.start) self.next)

/-- `setCursor`, for a pool without live chunks. -/
def setCursor (self : WorkPool) (cursor : Nat) : WorkPool :=
  { self with next := cursor }

end WorkPool

end CudaMpqs
