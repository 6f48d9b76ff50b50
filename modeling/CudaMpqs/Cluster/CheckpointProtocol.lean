import CudaMpqs.Cluster.ChunkProtocol
import CudaMpqs.Cluster.ResumeLegs

/-! # Relations and checkpoints of a cluster run

The data path beside the chunk protocol: the ring of `AsyncNetworkDataTap` and
its I/O thread, the `DirectChannel` of the coordinator, the drain pass of Thread
A and its checkpoints. A batch of relations is named by the a-values that it
comes from. -/

namespace CudaMpqs

open CudaMpqs.Interval WorkPool

def ringCapacity : Nat := 31

def channelCapacity : Nat := 64

/-- What a worker puts on the connection. The content of a report is kept with
its peer. -/
inductive WireFrame where
  | incrementalBatch (relations : List WorkUnit)
  | report
deriving DecidableEq

def WireFrame.relations? : WireFrame → Option (List WorkUnit)
  | .incrementalBatch relations => some relations
  | .report => none

structure Tap where
  polyRangeStart : Nat
  rangeAConsumed : Nat := 0
  ring : List WorkUnit := []
  items : List WorkUnit := []
  wire : List WireFrame := []
deriving DecidableEq

namespace Tap

def batch (tap : Tap) (aValues : Nat) : WorkUnit :=
  ⟨tap.polyRangeStart + tap.rangeAConsumed, aValues⟩

def onBatchComplete (tap : Tap) (aValues : Nat) : Tap :=
  { tap with
    ring := if tap.ring.length < ringCapacity then tap.ring ++ [tap.batch aValues]
      else tap.ring
    rangeAConsumed := tap.rangeAConsumed + aValues }

def droppedBatch (tap : Tap) (aValues : Nat) : List WorkUnit :=
  if tap.ring.length < ringCapacity then [] else [tap.batch aValues]

def popBatch (tap : Tap) (count : Nat) : Tap :=
  if tap.items.isEmpty then
    { tap with ring := tap.ring.drop count, items := tap.ring.take count }
  else tap

def sendBatch (tap : Tap) : Tap :=
  if tap.items.isEmpty then tap
  else { tap with items := [], wire := tap.wire ++ [.incrementalBatch tap.items] }

def setRange (tap : Tap) (polyRangeStart : Nat) : Tap :=
  { tap with polyRangeStart := polyRangeStart, rangeAConsumed := 0 }

def sendReport (tap : Tap) : Tap :=
  { tap with wire := tap.wire ++ [.report] }

end Tap

structure DirectChannel where
  polyRangeStart : Nat
  rangeAConsumed : Nat := 0
  buffer : List WorkUnit := []
deriving DecidableEq

namespace DirectChannel

def onBatchComplete (channel : DirectChannel) (aValues : Nat) : DirectChannel :=
  { channel with
    buffer :=
      (if channel.buffer.length = channelCapacity then channel.buffer.tail else channel.buffer) ++
        [⟨channel.polyRangeStart + channel.rangeAConsumed, aValues⟩]
    rangeAConsumed := channel.rangeAConsumed + aValues }

def setRange (channel : DirectChannel) (polyRangeStart : Nat) : DirectChannel :=
  { channel with polyRangeStart := polyRangeStart, rangeAConsumed := 0 }

end DirectChannel

/-- The initial ranges of the coordinator (node 0) and its workers, and the
overflow pool. -/
structure ClusterPlan (workers : Nat) extends InitialRanges (workers + 1) where
  overflowStart : Nat
  overflowSize : Nat
  unitSize : Nat

def ClusterPlan.pool {workers : Nat} (plan : ClusterPlan workers) : WorkPool :=
  create plan.overflowStart plan.overflowSize plan.unitSize

structure ClusterCheckpoint (workers : Nat) where
  completedPrefixCursor : Nat
  initialHighWater : Fin (workers + 1) → Nat
  pooled : List WorkUnit

def ClusterPlan.accepts {workers : Nat} (plan : ClusterPlan workers)
    (checkpoint : ClusterCheckpoint workers) : Bool :=
  decide (plan.overflowStart ≤ checkpoint.completedPrefixCursor) &&
    decide (checkpoint.completedPrefixCursor ≤ plan.overflowStart + plan.overflowSize)

/-- Where Thread A is in its loop: polling the direct channel, receiving frames,
or past the replay of the deferred batches. -/
inductive NetworkLoop where
  | polling
  | draining
  | settled
deriving DecidableEq

/-- The chunk protocol with its data path; which batches were counted as ring
drops stays known over all legs. -/
structure ClusterSieve (workers : Nat) where
  cluster : Cluster workers
  trims : Fin (workers + 1) → ResumeTrim
  taps : Fin workers → Tap
  channel : DirectChannel
  ownInitial : Bool
  networkLoop : NetworkLoop
  deferredBatches : List WorkUnit
  initialHighWater : Fin (workers + 1) → Nat
  pooled : List WorkUnit
  dropped : List WorkUnit
  checkpoints : List (ClusterCheckpoint workers)

namespace ClusterSieve

variable {workers : Nat}

/-- A leg works on trimmed ranges, on the overflow pool behind a cursor and on
the relations that were saved. -/
def startLeg (plan : ClusterPlan workers) (cursor : Nat)
    (trims : Fin (workers + 1) → ResumeTrim) (pooled dropped : List WorkUnit)
    (checkpoints : List (ClusterCheckpoint workers)) : ClusterSieve workers where
  cluster := {
    ledger := .start (plan.pool.setCursor cursor)
    ownChunk := none
    peers := fun _ => {}
    sieved := [] }
  trims := trims
  taps := fun worker => { polyRangeStart := (trims worker.succ).start }
  channel := { polyRangeStart := (trims 0).start }
  ownInitial := true
  networkLoop := .polling
  deferredBatches := []
  initialHighWater := fun node => (trims node).effHw
  pooled := pooled
  dropped := dropped
  checkpoints := checkpoints

def freshLeg (plan : ClusterPlan workers) (dropped : List WorkUnit)
    (checkpoints : List (ClusterCheckpoint workers)) : ClusterSieve workers :=
  startLeg plan plan.overflowStart (ClusterLegs.freshTrims plan.toInitialRanges) []
    dropped checkpoints

def start (plan : ClusterPlan workers) : ClusterSieve workers :=
  freshLeg plan [] []

def setTap (sieve : ClusterSieve workers) (worker : Fin workers) (tap : Tap) :
    ClusterSieve workers :=
  { sieve with taps := Function.update sieve.taps worker tap }

/-! ## The worker -/

def onBatchComplete (sieve : ClusterSieve workers) (worker : Fin workers)
    (aValues : Nat) : ClusterSieve workers :=
  match (sieve.cluster.peers worker).loop with
  | .waiting => sieve
  | _ =>
    { sieve.setTap worker ((sieve.taps worker).onBatchComplete aValues) with
      dropped := sieve.dropped ++ (sieve.taps worker).droppedBatch aValues }

/-- The main thread sends the completion, whatever is still in the ring. -/
def workerCompletes (sieve : ClusterSieve workers) (worker : Fin workers) : ClusterSieve workers :=
  match (sieve.cluster.peers worker).loop with
  | .waiting => sieve
  | _ =>
    { sieve.setTap worker (sieve.taps worker).sendReport with
      cluster := sieve.cluster.workerCompletes worker
        (sieve.taps worker).rangeAConsumed }

def sendChunkRequest (sieve : ClusterSieve workers) (worker : Fin workers) : ClusterSieve workers :=
  match (sieve.cluster.peers worker).loop with
  | .waiting =>
    { sieve.setTap worker (sieve.taps worker).sendReport with
      cluster := sieve.cluster.setPeer worker
        (sieve.cluster.peers worker).sendChunkRequest }
  | _ => sieve

def tryTakeChunkAssign (sieve : ClusterSieve workers) (worker : Fin workers) :
    ClusterSieve workers :=
  match (sieve.cluster.peers worker).loop, (sieve.cluster.peers worker).pendingAssign with
  | .waiting, some assign =>
    { sieve.setTap worker ((sieve.taps worker).setRange assign.polyRange.start) with
      cluster := sieve.cluster.setPeer worker
        (sieve.cluster.peers worker).tryTakeChunkAssign }
  | _, _ => sieve

/-! ## The coordinator's own sieving thread -/

def ownSieving (sieve : ClusterSieve workers) : Bool :=
  sieve.ownInitial || sieve.cluster.ownChunk.isSome

def ownBatchComplete (sieve : ClusterSieve workers) (aValues : Nat) : ClusterSieve workers :=
  if sieve.ownSieving then
    { sieve with channel := sieve.channel.onBatchComplete aValues }
  else sieve

def ownInitialComplete (plan : ClusterPlan workers) (sieve : ClusterSieve workers) :
    ClusterSieve workers :=
  if sieve.ownInitial && decide (0 < (sieve.trims 0).count) then
    { sieve with
      ownInitial := false
      initialHighWater := Function.update sieve.initialHighWater 0
        (ClusterLegs.reportedHighWater plan.toInitialRanges sieve.trims 0
          sieve.channel.rangeAConsumed) }
  else sieve

def selfAssign (sieve : ClusterSieve workers) (size : Nat) (targetReached : Bool) :
    ClusterSieve workers :=
  if sieve.ownSieving then sieve
  else
    let cluster := sieve.cluster.selfAssign size targetReached
    match cluster.ownChunk with
    | none => { sieve with cluster := cluster }
    | some chunk =>
      { sieve with
        cluster := cluster
        channel := sieve.channel.setRange chunk.unit.start }

def selfComplete (sieve : ClusterSieve workers) : ClusterSieve workers :=
  { sieve with cluster := sieve.cluster.selfComplete sieve.channel.rangeAConsumed }

/-! ## Thread A -/

def pollChannel (sieve : ClusterSieve workers) : ClusterSieve workers :=
  match sieve.networkLoop, sieve.channel.buffer with
  | .polling, payload :: rest =>
    { sieve with
      channel := { sieve.channel with buffer := rest }
      pooled := sieve.pooled ++ [payload] }
  | _, _ => sieve

def beginDrain (sieve : ClusterSieve workers) : ClusterSieve workers :=
  if sieve.networkLoop = .polling ∧ sieve.channel.buffer = [] then
    { sieve with networkLoop := .draining }
  else sieve

def highWaterAfter (plan : ClusterPlan workers) (sieve : ClusterSieve workers)
    (worker : Fin workers) : Fin (workers + 1) → Nat :=
  match (sieve.cluster.peers worker).toCoordinator with
  | .chunkComplete _ aValuesConsumed :: _ =>
    if (sieve.cluster.peers worker).currentChunkId = kInitialChunk then
      Function.update sieve.initialHighWater worker.succ
        (ClusterLegs.reportedHighWater plan.toInitialRanges sieve.trims worker.succ
          aValuesConsumed)
    else sieve.initialHighWater
  | _ => sieve.initialHighWater

def receive (plan : ClusterPlan workers) (sieve : ClusterSieve workers)
    (worker : Fin workers) (dispatch : Dispatch) : ClusterSieve workers :=
  if sieve.networkLoop = .draining ∧ (sieve.cluster.peers worker).alive = true then
    match (sieve.taps worker).wire with
    | [] => sieve
    | .incrementalBatch relations :: rest =>
      { sieve.setTap worker { sieve.taps worker with wire := rest } with
        deferredBatches := sieve.deferredBatches ++ relations }
    | .report :: rest =>
      { sieve.setTap worker { sieve.taps worker with wire := rest } with
        cluster := sieve.cluster.receive worker dispatch
        initialHighWater := sieve.highWaterAfter plan worker }
  else sieve

def endDrain (sieve : ClusterSieve workers) : ClusterSieve workers :=
  if sieve.networkLoop = .draining then
    { sieve with
      networkLoop := .settled
      deferredBatches := []
      pooled := sieve.pooled ++ sieve.deferredBatches }
  else sieve

def writeClusterCheckpoint (plan : ClusterPlan workers) (sieve : ClusterSieve workers) :
    ClusterCheckpoint workers where
  completedPrefixCursor := sieve.cluster.pool.completedPrefixCursor
  initialHighWater :=
    ClusterLegs.recorded plan.toInitialRanges sieve.initialHighWater
  pooled := sieve.pooled

def killAndResume (plan : ClusterPlan workers) (sieve : ClusterSieve workers)
    (checkpoint : Nat) : ClusterSieve workers :=
  match sieve.checkpoints[checkpoint]? with
  | some saved =>
    if plan.accepts saved then
      startLeg plan saved.completedPrefixCursor
        (ClusterLegs.resumeTrims plan.toInitialRanges saved.initialHighWater)
        saved.pooled sieve.dropped sieve.checkpoints
    else freshLeg plan sieve.dropped sieve.checkpoints
  | none => freshLeg plan sieve.dropped sieve.checkpoints

inductive Event (workers : Nat) where
  | onBatchComplete (worker : Fin workers) (aValues : Nat)
  | workerCompletes (worker : Fin workers)
  | sendChunkRequest (worker : Fin workers)
  | tryTakeChunkAssign (worker : Fin workers)
  | popBatch (worker : Fin workers) (count : Nat)
  | sendBatch (worker : Fin workers)
  | ioThreadReceive (worker : Fin workers)
  | ownBatchComplete (aValues : Nat)
  | ownInitialComplete
  | selfAssign (size : Nat) (targetReached : Bool)
  | selfComplete
  | pollChannel
  | beginDrain
  | receive (worker : Fin workers) (dispatch : Dispatch)
  | checkStraggler (worker : Fin workers) (chunkId : Nat)
  | endDrain
  | heartbeatTimeout (worker : Fin workers)
  | idleSweep (worker : Fin workers) (dispatch : Dispatch)
  | writeCheckpoint
  | nextPass
  | killAndResume (checkpoint : Nat)
deriving DecidableEq

def step (plan : ClusterPlan workers) (sieve : ClusterSieve workers) :
    Event workers → ClusterSieve workers
  | .onBatchComplete worker aValues => sieve.onBatchComplete worker aValues
  | .workerCompletes worker => sieve.workerCompletes worker
  | .sendChunkRequest worker => sieve.sendChunkRequest worker
  | .tryTakeChunkAssign worker => sieve.tryTakeChunkAssign worker
  | .popBatch worker count => sieve.setTap worker ((sieve.taps worker).popBatch count)
  | .sendBatch worker => sieve.setTap worker (sieve.taps worker).sendBatch
  | .ioThreadReceive worker =>
    { sieve with
      cluster := sieve.cluster.setPeer worker
        (sieve.cluster.peers worker).ioThreadReceive }
  | .ownBatchComplete aValues => sieve.ownBatchComplete aValues
  | .ownInitialComplete => sieve.ownInitialComplete plan
  | .selfAssign size targetReached => sieve.selfAssign size targetReached
  | .selfComplete => sieve.selfComplete
  | .pollChannel => sieve.pollChannel
  | .beginDrain => sieve.beginDrain
  | .receive worker dispatch => sieve.receive plan worker dispatch
  | .checkStraggler worker chunkId =>
    if sieve.networkLoop = .draining then
      { sieve with cluster := sieve.cluster.checkStraggler worker chunkId }
    else sieve
  | .endDrain => sieve.endDrain
  | .heartbeatTimeout worker =>
    if sieve.networkLoop = .settled then
      { sieve with cluster := sieve.cluster.heartbeatTimeout worker }
    else sieve
  | .idleSweep worker dispatch =>
    if sieve.networkLoop = .settled then
      { sieve with cluster := sieve.cluster.idleSweep worker dispatch }
    else sieve
  | .writeCheckpoint =>
    if sieve.networkLoop = .settled then
      { sieve with
        checkpoints := sieve.checkpoints ++ [sieve.writeClusterCheckpoint plan] }
    else sieve
  | .nextPass =>
    if sieve.networkLoop = .settled then { sieve with networkLoop := .polling }
    else sieve
  | .killAndResume checkpoint => sieve.killAndResume plan checkpoint

/-! ## Data before progress -/

def HasChunkIds (sieve : ClusterSieve workers) : Event workers → Prop
  | .receive .. | .idleSweep .. | .selfAssign .. =>
    sieve.cluster.pool.nextChunkId < kInitialChunk
  | _ => True

/-- A range is reported only when none of its batches waits in front of the
connection or in the direct channel, and the direct channel is never full. -/
def DataFirst (sieve : ClusterSieve workers) : Event workers → Prop
  | .workerCompletes worker =>
    (sieve.cluster.peers worker).loop ≠ .waiting →
      (sieve.taps worker).ring = [] ∧ (sieve.taps worker).items = []
  | .ownInitialComplete => sieve.ownInitial = true → sieve.channel.buffer = []
  | .selfComplete => sieve.cluster.ownChunk.isSome = true → sieve.channel.buffer = []
  | .ownBatchComplete _ =>
    sieve.ownSieving = true → sieve.channel.buffer.length < channelCapacity
  | _ => True

instance (sieve : ClusterSieve workers) : DecidablePred sieve.HasChunkIds
  | .receive .. | .idleSweep .. | .selfAssign .. => inferInstanceAs (Decidable (_ < _))
  | .onBatchComplete .. | .workerCompletes .. | .sendChunkRequest ..
  | .tryTakeChunkAssign .. | .popBatch .. | .sendBatch .. | .ioThreadReceive ..
  | .ownBatchComplete .. | .ownInitialComplete | .selfComplete | .pollChannel
  | .beginDrain | .checkStraggler .. | .endDrain | .heartbeatTimeout ..
  | .writeCheckpoint | .nextPass | .killAndResume .. => isTrue trivial

instance (sieve : ClusterSieve workers) : DecidablePred sieve.DataFirst
  | .workerCompletes _ => inferInstanceAs (Decidable (_ → _ ∧ _))
  | .ownInitialComplete => inferInstanceAs (Decidable (_ → _))
  | .selfComplete => inferInstanceAs (Decidable (_ → _))
  | .ownBatchComplete _ => inferInstanceAs (Decidable (_ → _))
  | .onBatchComplete .. | .sendChunkRequest .. | .tryTakeChunkAssign .. | .popBatch ..
  | .sendBatch .. | .ioThreadReceive .. | .selfAssign .. | .pollChannel | .beginDrain
  | .receive .. | .checkStraggler .. | .endDrain | .heartbeatTimeout .. | .idleSweep ..
  | .writeCheckpoint | .nextPass | .killAndResume .. => isTrue trivial

end ClusterSieve

end CudaMpqs
