import CudaMpqs.Foundation.Mailbox
import CudaMpqs.Cluster.WorkLedger

/-! # The chunk protocol of the cluster

The coordinator's dispatch of overflow chunks in `orchestrator.cpp`, the
worker's chunk-wait loop and the control frames of `AsyncNetworkDataTap`. What
the environment decides (chunk sizes, the target, whether a send succeeds, how
many a-values were consumed and when a heartbeat is overdue) comes with the
events; the frames of a channel keep their order and may wait in it forever. -/

namespace CudaMpqs

def idleChunk : Nat := 2 ^ 32 - 1

def kInitialChunk : Nat := 2 ^ 32 - 2

structure ChunkAssign where
  chunkId : Nat
  polyRange : WorkUnit
deriving DecidableEq

inductive ControlFrame where
  | chunkAssign (assign : ChunkAssign)
  | chunkRecall (chunkId : Nat)
deriving DecidableEq

def ControlFrame.assign? : ControlFrame → Option ChunkAssign
  | .chunkAssign assign => some assign
  | .chunkRecall _ => none

inductive ReportFrame where
  | chunkComplete (chunkId aValuesConsumed : Nat)
  | chunkRequest
deriving DecidableEq

inductive SieveLoop where
  | initialRange
  | chunk (assign : ChunkAssign)
  | waiting
deriving DecidableEq

/-- A worker, its tracker at the coordinator and the two channels between them.
The tap of a worker labels its initial range with chunk id 0. -/
structure Peer where
  currentChunkId : Nat := kInitialChunk
  alive : Bool := true
  loop : SieveLoop := .initialRange
  tapChunkId : Nat := 0
  pendingAssign : Option ChunkAssign := none
  recalled : Bool := false
  toWorker : List ControlFrame := []
  toCoordinator : List ReportFrame := []
deriving DecidableEq

namespace Peer

def Untracked (peer : Peer) : Prop :=
  peer.currentChunkId = idleChunk ∨ peer.currentChunkId = kInitialChunk

instance (peer : Peer) : Decidable peer.Untracked :=
  inferInstanceAs (Decidable (_ ∨ _))

def ioThreadReceive (peer : Peer) : Peer :=
  match peer.toWorker with
  | [] => peer
  | .chunkAssign assign :: rest =>
    { peer with toWorker := rest, pendingAssign := some assign }
  | .chunkRecall chunkId :: rest =>
    { peer with
      toWorker := rest
      recalled := peer.recalled || chunkId == peer.tapChunkId }

def tryTakeChunkAssign (peer : Peer) : Peer :=
  match peer.loop, peer.pendingAssign with
  | .waiting, some assign =>
    { peer with
      loop := .chunk assign
      tapChunkId := assign.chunkId
      pendingAssign := none }
  | _, _ => peer

def sendChunkComplete (peer : Peer) (aValuesConsumed : Nat) : Peer :=
  match peer.loop with
  | .waiting => peer
  | _ =>
    { peer with
      loop := .waiting
      recalled := false
      toCoordinator := peer.toCoordinator ++
        [.chunkComplete peer.tapChunkId aValuesConsumed] }

def consumedUnit (peer : Peer) (aValuesConsumed : Nat) : Option WorkUnit :=
  match peer.loop with
  | .chunk assign =>
    some (WorkPool.consumedPart assign.polyRange aValuesConsumed)
  | _ => none

def sendChunkRequest (peer : Peer) : Peer :=
  match peer.loop with
  | .waiting =>
    { peer with toCoordinator := peer.toCoordinator ++ [.chunkRequest] }
  | _ => peer

@[simp] theorem alive_ioThreadReceive (peer : Peer) : peer.ioThreadReceive.alive = peer.alive := by
  rw [ioThreadReceive]
  split <;> rfl

@[simp] theorem alive_tryTakeChunkAssign (peer : Peer) :
    peer.tryTakeChunkAssign.alive = peer.alive := by
  rw [tryTakeChunkAssign]
  split <;> rfl

@[simp] theorem alive_sendChunkComplete (peer : Peer) (aValuesConsumed : Nat) :
    (peer.sendChunkComplete aValuesConsumed).alive = peer.alive := by
  rw [sendChunkComplete]
  split <;> rfl

@[simp] theorem alive_sendChunkRequest (peer : Peer) :
    peer.sendChunkRequest.alive = peer.alive := by
  rw [sendChunkRequest]
  split <;> rfl

/-! ### The assignments of a peer -/

def mailbox (peer : Peer) : Mailbox ChunkAssign where
  taken := match peer.loop with
    | .chunk assign => some assign
    | _ => none
  slot := peer.pendingAssign
  channel := peer.toWorker.filterMap ControlFrame.assign?

theorem mailbox_ioThreadReceive (peer : Peer) :
    peer.ioThreadReceive.mailbox = peer.mailbox.deliver ∨
      peer.ioThreadReceive.mailbox = peer.mailbox := by
  rw [ioThreadReceive]
  split
  next empty => exact Or.inr rfl
  next assign rest frames =>
    apply Or.inl
    simp [mailbox, frames, Mailbox.deliver, ControlFrame.assign?]
  next chunkId rest frames =>
    apply Or.inr
    simp [mailbox, frames, ControlFrame.assign?, List.filterMap_cons]

theorem contents_tryTakeChunkAssign (peer : Peer) :
    peer.tryTakeChunkAssign.mailbox.contents = peer.mailbox.contents := by
  rw [tryTakeChunkAssign]
  split
  next assign waiting pending => simp [mailbox, Mailbox.contents, waiting, pending]
  next => rfl

theorem mailbox_sendChunkComplete (peer : Peer) (aValuesConsumed : Nat) :
    (peer.sendChunkComplete aValuesConsumed).mailbox = peer.mailbox.finish := by
  rw [sendChunkComplete]
  split
  next waiting => simp [mailbox, Mailbox.finish, waiting]
  next => rfl

end Peer

structure Dispatch where
  nextChunkSize : Nat
  targetReached : Bool
  assignSent : Bool
deriving DecidableEq

/-- The coordinator with its own chunk, its peers and, beside the pool, the
parts of the units that some node sieved. -/
structure Cluster (workers : Nat) where
  ledger : WorkPool.Ledger
  ownChunk : Option CheckedOutWork
  peers : Fin workers → Peer
  sieved : List WorkUnit

namespace Cluster

variable {workers : Nat}

def nodeId (worker : Fin workers) : Nat := worker + 1

def start (aStart totalA unitSize : Nat) : Cluster workers where
  ledger := .start (.create aStart totalA unitSize)
  ownChunk := none
  peers := fun _ => {}
  sieved := []

def pool (self : Cluster workers) : WorkPool := self.ledger.pool

def setPeer (self : Cluster workers) (worker : Fin workers) (peer : Peer) : Cluster workers :=
  { self with peers := Function.update self.peers worker peer }

def apply (self : Cluster workers) (operation : WorkPool.Operation) : Cluster workers :=
  { self with ledger := self.ledger.apply operation }

@[simp] theorem ledger_setPeer (self : Cluster workers) (worker : Fin workers)
    (peer : Peer) : (self.setPeer worker peer).ledger = self.ledger := rfl

@[simp] theorem pool_setPeer (self : Cluster workers) (worker : Fin workers)
    (peer : Peer) : (self.setPeer worker peer).pool = self.pool := rfl

@[simp] theorem peers_setPeer (self : Cluster workers) (worker : Fin workers)
    (peer : Peer) : (self.setPeer worker peer).peers worker = peer := by
  simp [setPeer]

@[simp] theorem ledger_apply (self : Cluster workers) (operation : WorkPool.Operation) :
    (self.apply operation).ledger = self.ledger.apply operation := rfl

def assignChunkTo (self : Cluster workers) (worker : Fin workers)
    (dispatch : Dispatch) : Cluster workers :=
  let peer := self.peers worker
  if peer.currentChunkId ≠ idleChunk then self
  else if dispatch.targetReached || self.pool.exhausted then self
  else
    match (self.pool.checkoutWork dispatch.nextChunkSize (nodeId worker)).1 with
    | none => self
    | some checkout =>
      let taken := self.apply
        (.checkoutWork dispatch.nextChunkSize (nodeId worker))
      if dispatch.assignSent then
        taken.setPeer worker
          { peer with
            currentChunkId := checkout.chunkId
            toWorker := peer.toWorker ++
              [.chunkAssign ⟨checkout.chunkId, checkout.unit⟩] }
      else taken.apply (.returnChunk checkout.chunkId)

def chunkComplete (self : Cluster workers) (worker : Fin workers)
    (chunkId aValuesConsumed : Nat) (rest : List ReportFrame) :
    Cluster workers :=
  let peer := self.peers worker
  let settled :=
    if peer.currentChunkId = chunkId ∧ ¬ peer.Untracked then
      self.apply (.reclaimPartial chunkId aValuesConsumed)
    else self
  settled.setPeer worker
    { peer with currentChunkId := idleChunk, toCoordinator := rest }

def chunkRequest (self : Cluster workers) (worker : Fin workers)
    (rest : List ReportFrame) : Cluster workers :=
  let peer := self.peers worker
  let settled :=
    if ¬ peer.Untracked then self.apply (.returnChunk peer.currentChunkId)
    else self
  settled.setPeer worker
    { peer with currentChunkId := idleChunk, toCoordinator := rest }

def receive (self : Cluster workers) (worker : Fin workers)
    (dispatch : Dispatch) : Cluster workers :=
  let peer := self.peers worker
  if peer.alive then
    match peer.toCoordinator with
    | [] => self
    | .chunkComplete chunkId aValuesConsumed :: rest =>
      (self.chunkComplete worker chunkId aValuesConsumed rest).assignChunkTo
        worker dispatch
    | .chunkRequest :: rest =>
      (self.chunkRequest worker rest).assignChunkTo worker dispatch
  else self

def idleSweep (self : Cluster workers) (worker : Fin workers)
    (dispatch : Dispatch) : Cluster workers :=
  if (self.peers worker).alive then self.assignChunkTo worker dispatch else self

def heartbeatTimeout (self : Cluster workers) (worker : Fin workers) : Cluster workers :=
  let peer := self.peers worker
  if peer.alive then
    let settled :=
      if ¬ peer.Untracked then self.apply (.reclaimWork (nodeId worker))
      else self
    settled.setPeer worker { peer with alive := false, currentChunkId := idleChunk }
  else self

def checkStraggler (self : Cluster workers) (worker : Fin workers)
    (chunkId : Nat) : Cluster workers :=
  let peer := self.peers worker
  self.setPeer worker
    { peer with toWorker := peer.toWorker ++ [.chunkRecall chunkId] }

def workerCompletes (self : Cluster workers) (worker : Fin workers)
    (aValuesConsumed : Nat) : Cluster workers :=
  let peer := self.peers worker
  { self.setPeer worker (peer.sendChunkComplete aValuesConsumed) with
    sieved := self.sieved ++ (peer.consumedUnit aValuesConsumed).toList }

/-- The coordinator's own thread checks a chunk out of the same pool. -/
def selfAssign (self : Cluster workers) (size : Nat) (targetReached : Bool) : Cluster workers :=
  if self.ownChunk.isSome || targetReached || self.pool.exhausted then self
  else
    { self.apply (.checkoutWork size 0) with
      ownChunk := (self.pool.checkoutWork size 0).1 }

def selfComplete (self : Cluster workers) (consumed : Nat) : Cluster workers :=
  match self.ownChunk with
  | none => self
  | some chunk =>
    { self.apply (.reclaimPartial chunk.chunkId consumed) with
      ownChunk := none
      sieved := self.sieved ++ [WorkPool.consumedPart chunk.unit consumed] }

inductive Event (workers : Nat) where
  | receive (worker : Fin workers) (dispatch : Dispatch)
  | idleSweep (worker : Fin workers) (dispatch : Dispatch)
  | heartbeatTimeout (worker : Fin workers)
  | checkStraggler (worker : Fin workers) (chunkId : Nat)
  | ioThreadReceive (worker : Fin workers)
  | tryTakeChunkAssign (worker : Fin workers)
  | workerCompletes (worker : Fin workers) (aValuesConsumed : Nat)
  | sendChunkRequest (worker : Fin workers)
  | selfAssign (size : Nat) (targetReached : Bool)
  | selfComplete (consumed : Nat)
deriving DecidableEq

def step (self : Cluster workers) : Event workers → Cluster workers
  | .receive worker dispatch => self.receive worker dispatch
  | .idleSweep worker dispatch => self.idleSweep worker dispatch
  | .heartbeatTimeout worker => self.heartbeatTimeout worker
  | .checkStraggler worker chunkId => self.checkStraggler worker chunkId
  | .ioThreadReceive worker =>
    self.setPeer worker (self.peers worker).ioThreadReceive
  | .tryTakeChunkAssign worker =>
    self.setPeer worker (self.peers worker).tryTakeChunkAssign
  | .workerCompletes worker consumed => self.workerCompletes worker consumed
  | .sendChunkRequest worker =>
    self.setPeer worker (self.peers worker).sendChunkRequest
  | .selfAssign size targetReached => self.selfAssign size targetReached
  | .selfComplete consumed => self.selfComplete consumed

def Event.dispatches : Event workers → Bool
  | .receive .. | .idleSweep .. | .selfAssign .. => true
  | _ => false

def HasChunkIds (self : Cluster workers) (event : Event workers) : Prop :=
  event.dispatches = true → self.pool.nextChunkId < kInitialChunk

instance (self : Cluster workers) (event : Event workers) :
    Decidable (self.HasChunkIds event) :=
  inferInstanceAs (Decidable (_ → _))

end Cluster

end CudaMpqs
