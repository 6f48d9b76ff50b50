import CudaMpqs.Cluster.NoDoubleWork
import CudaMpqs.Cluster.SieveTap

/-! # Recall of a chunk

The chunk protocol together with the sieve threads of the workers: a recall that the I/O
thread processes, the count that a CHUNK_COMPLETE reports, and the remainder that the
coordinator gives back to the pool. -/

namespace CudaMpqs

open WorkPool CudaMpqs.Interval

theorem WorkPool.reclaimPartial_splits {aStart : Nat} {pool : WorkPool}
    (bounded : Bounded aStart pool) {chunkId : Nat} {chunk : CheckedOutWork}
    (found : pool.findChunk chunkId = some chunk) (consumedCount : Nat) :
    ∃ remainder, (pool.reclaimPartial chunkId consumedCount).returned = pool.returned ++ remainder ∧
      ∀ index, coverage (consumedPart chunk.unit consumedCount :: remainder) index =
        coverage [chunk.unit] index := by
  have unitBound := bounded.inFlight _ (unit_mem_of_findChunk found)
  have consumedLe : min consumedCount chunk.unit.count ≤ chunk.unit.count := Nat.min_le_right _ _
  rw [reclaimPartial, found]
  dsimp only
  split
  next some_ =>
    refine ⟨[⟨wrap64 (chunk.unit.start + min consumedCount chunk.unit.count),
      chunk.unit.count - min consumedCount chunk.unit.count⟩], rfl, fun index => ?_⟩
    have fits : chunk.unit.start + min consumedCount chunk.unit.count ≤ pool.endCursor := by
      omega
    have split := coverage_split chunk.unit.start (min consumedCount chunk.unit.count)
      (chunk.unit.count - min consumedCount chunk.unit.count) index
    rw [Nat.add_sub_cancel' consumedLe] at split
    rw [wrap64_of_le fits bounded.endLt, ← List.singleton_append, coverage_append]
    exact split
  next none_ =>
    have all : min consumedCount chunk.unit.count = chunk.unit.count := by omega
    refine ⟨[], (List.append_nil _).symm, fun index => ?_⟩
    rw [consumedPart, all]

namespace ChunkRecall

open Cluster

structure Report where
  chunkId : Nat
  aValuesConsumed : Nat
  sieved : Nat
deriving DecidableEq

/-- The cluster with its workers' sieve threads, and beside it what was reported and the
parts of the chunks that were sieved. -/
structure System (workers : Nat) where
  cluster : Cluster workers
  threads : Fin workers → SieveThread
  reports : List Report
  prefixes : List WorkUnit

inductive Input (workers : Nat)
  | event (event : Event workers)
  | stopFrame (worker : Fin workers)
  | batch (worker : Fin workers) (turn : Turn)
  | leaveLoop (worker : Fin workers) (truncated remaining : Bool)
  | takeChunk (worker : Fin workers)
  | complete (worker : Fin workers)
deriving DecidableEq

namespace System

variable {workers : Nat}

def peer (self : System workers) (worker : Fin workers) : Peer := self.cluster.peers worker

def setThread (self : System workers) (worker : Fin workers) (thread : SieveThread) :
    System workers :=
  { self with threads := Function.update self.threads worker thread }

@[simp] theorem threads_setThread (self : System workers) (worker : Fin workers)
    (thread : SieveThread) :
    (self.setThread worker thread).threads = Function.update self.threads worker thread :=
  rfl

def start (configs : Fin workers → SieveConfig) (initialCounts : Fin workers → Nat)
    (aStart totalA unitSize : Nat) : System workers where
  cluster := .start aStart totalA unitSize
  threads worker :=
    { tap := ⟨false, initialCounts worker, 0, (configs worker).batchAVals⟩
      sieving := true
      extractPending := none
      sieved := 0 }
  reports := []
  prefixes := []

def ofSieveThread : Event workers → Bool
  | .tryTakeChunkAssign _ | .workerCompletes .. => true
  | _ => false

def ownPart (cluster : Cluster workers) : Event workers → List WorkUnit
  | .selfComplete consumed =>
    (cluster.ownChunk.map fun chunk => consumedPart chunk.unit consumed).toList
  | _ => []

def handle (self : System workers) (event : Event workers) : System workers :=
  if ofSieveThread event then self
  else
    { self with
      cluster := self.cluster.step event
      prefixes := self.prefixes ++ ownPart self.cluster event }

def takeChunk (self : System workers) (config : SieveConfig) (worker : Fin workers) :
    System workers :=
  match (self.peer worker).loop, (self.peer worker).pendingAssign with
  | .waiting, some assign =>
    { self.setThread worker ((self.threads worker).enterStage config assign.polyRange.count) with
      cluster := self.cluster.step (.tryTakeChunkAssign worker) }
  | _, _ => self

/-- Behind `SieveStage`: a worker that received STOP leaves, the others clear the recall
and report what the tap counted. -/
def complete (self : System workers) (worker : Fin workers) : System workers :=
  let thread := self.threads worker
  if (self.peer worker).loop ≠ .waiting ∧ thread.sieving = false ∧ thread.tap.stop = false then
    { self with
      cluster := self.cluster.step (.workerCompletes worker thread.tap.rangeAConsumed)
      reports := self.reports ++
        [⟨(self.peer worker).tapChunkId, thread.tap.rangeAConsumed, thread.sieved⟩]
      prefixes := self.prefixes ++ ((self.peer worker).consumedUnit thread.sieved).toList }
  else self

def stopFrame (self : System workers) (worker : Fin workers) : System workers :=
  let thread := self.threads worker
  self.setThread worker { thread with tap := { thread.tap with stop := true } }

def step (configs : Fin workers → SieveConfig) (self : System workers) :
    Input workers → System workers
  | .event event => self.handle event
  | .stopFrame worker => self.stopFrame worker
  | .batch worker turn =>
    self.setThread worker ((self.threads worker).batch (configs worker) turn)
  | .leaveLoop worker truncated remaining =>
    self.setThread worker ((self.threads worker).leaveLoop truncated remaining)
  | .takeChunk worker => self.takeChunk (configs worker) worker
  | .complete worker => self.complete worker

/-! ## What a recall promises -/

/-- A worker with a recall that is not cleared is told to stop, every report has the count
that was sieved, and the coordinator's remainder and the sieved part of a chunk are the
chunk. -/
structure RecallsExactly (system : System workers) : Prop where
  stops : ∀ worker, (system.peer worker).recalled = true →
    (system.threads worker).tap.shouldStop = true
  reported : ∀ report ∈ system.reports, report.aValuesConsumed = report.sieved
  reclaimed : ∀ worker chunkId consumed rest, (system.peer worker).alive = true →
    (system.peer worker).toCoordinator = .chunkComplete chunkId consumed :: rest →
    ¬ (system.peer worker).Untracked →
    ∃ chunk remainder, system.cluster.pool.findChunk chunkId = some chunk ∧
      chunk.workerId = nodeId worker ∧ consumedPart chunk.unit consumed ∈ system.prefixes ∧
      (system.cluster.chunkComplete worker chunkId consumed rest).pool.returned =
        system.cluster.pool.returned ++ remainder ∧
      ∀ index, coverage (consumedPart chunk.unit consumed :: remainder) index =
        coverage [chunk.unit] index

def RecallsLate (self : System workers) : Event workers → Prop
  | .ioThreadReceive worker =>
    (self.peer worker).toWorker.head? = some (.chunkRecall (self.peer worker).tapChunkId) →
      (self.threads worker).tap.shouldStop = true
  | _ => True

/-- Recalls come late and none is carried into the next chunk, every turn and every end of
a stage is counted, and the cluster's ids and requests are in order. -/
def Sound (configs : Fin workers → SieveConfig) (self : System workers) : Input workers → Prop
  | .event event =>
    self.RecallsLate event ∧ self.cluster.HasChunkIds event ∧
      self.cluster.Handles Peer.RequestsUntracked event
  | .batch worker turn => (self.threads worker).CountsTurn (configs worker) turn
  | .leaveLoop worker truncated remaining =>
    (self.threads worker).CountsLeave truncated remaining
  | .takeChunk worker =>
    (self.peer worker).recalled = true → (self.threads worker).tap.stop = true
  | .stopFrame _ => True
  | .complete _ => True

instance (self : System workers) : DecidablePred self.RecallsLate
  | .ioThreadReceive _ => inferInstanceAs (Decidable (_ → _))
  | .receive .. | .idleSweep .. | .heartbeatTimeout .. | .checkStraggler ..
  | .tryTakeChunkAssign .. | .workerCompletes .. | .sendChunkRequest ..
  | .selfAssign .. | .selfComplete .. => isTrue trivial

instance (configs : Fin workers → SieveConfig) (self : System workers) :
    DecidablePred (self.Sound configs)
  | .event _ => inferInstanceAs (Decidable (_ ∧ _ ∧ _))
  | .batch .. => inferInstanceAs (Decidable (SieveThread.CountsTurn ..))
  | .leaveLoop .. => inferInstanceAs (Decidable (SieveThread.CountsLeave ..))
  | .takeChunk _ => inferInstanceAs (Decidable (_ → _))
  | .stopFrame _ | .complete _ => isTrue trivial

/-! ## The recall flag -/

section Recalled

variable {cluster : Cluster workers}

theorem recalled_setPeer {worker : Fin workers} {peer : Peer}
    (same : peer.recalled = (cluster.peers worker).recalled) (other : Fin workers) :
    ((cluster.setPeer worker peer).peers other).recalled = (cluster.peers other).recalled := by
  by_cases here : other = worker
  · rw [here, peers_setPeer, same]
  · exact congrArg Peer.recalled (Function.update_of_ne here _ _)

theorem recalled_assignChunkTo (worker : Fin workers) (dispatch : Dispatch) (other : Fin workers) :
    ((cluster.assignChunkTo worker dispatch).peers other).recalled =
      (cluster.peers other).recalled := by
  rw [Cluster.assignChunkTo]
  dsimp only
  split
  next busy => rfl
  next idle =>
    split
    next stopped => rfl
    next pending =>
      split
      next refused => rfl
      next checkout issued =>
        split
        next sent => exact recalled_setPeer (by rfl) other
        next failed => rfl

private theorem recalled_receive (worker : Fin workers) (dispatch : Dispatch)
    (other : Fin workers) :
    ((cluster.receive worker dispatch).peers other).recalled = (cluster.peers other).recalled := by
  rw [Cluster.receive]
  split
  next alive =>
    split
    next empty => rfl
    next chunkId consumed rest frame =>
      rw [recalled_assignChunkTo, Cluster.chunkComplete]
      split
      · exact recalled_setPeer (by rfl) other
      · exact recalled_setPeer (by rfl) other
    next rest frame =>
      rw [recalled_assignChunkTo, Cluster.chunkRequest]
      split
      · exact recalled_setPeer (by rfl) other
      · exact recalled_setPeer (by rfl) other
  next dead => rfl

/-- Only the I/O thread of a worker sets its recall flag. -/
theorem recalled_step (event : Event workers) (other : Fin workers)
    (recalled : ((cluster.step event).peers other).recalled = true) :
    (cluster.peers other).recalled = true ∨ event = .ioThreadReceive other ∧
      (cluster.peers other).toWorker.head? =
        some (.chunkRecall (cluster.peers other).tapChunkId) := by
  cases event with
  | receive worker dispatch =>
    rw [Cluster.step, recalled_receive] at recalled
    exact Or.inl recalled
  | idleSweep worker dispatch =>
    rw [Cluster.step, Cluster.idleSweep] at recalled
    split at recalled
    · rw [recalled_assignChunkTo] at recalled
      exact Or.inl recalled
    · exact Or.inl recalled
  | heartbeatTimeout worker =>
    rw [Cluster.step, Cluster.heartbeatTimeout] at recalled
    dsimp only at recalled
    split at recalled
    · split at recalled
      · exact Or.inl ((recalled_setPeer (by rfl) other).symm.trans recalled)
      · exact Or.inl ((recalled_setPeer (by rfl) other).symm.trans recalled)
    · exact Or.inl recalled
  | checkStraggler worker chunkId =>
    exact Or.inl ((recalled_setPeer (by rfl) other).symm.trans recalled)
  | ioThreadReceive worker =>
    by_cases here : other = worker
    · subst here
      rw [Cluster.step, peers_setPeer, Peer.ioThreadReceive] at recalled
      split at recalled
      next empty => exact Or.inl recalled
      next assign rest frames => exact Or.inl recalled
      next chunkId rest frames =>
        rcases Bool.or_eq_true_iff.mp recalled with old | current
        · exact Or.inl old
        · rw [frames, ← beq_iff_eq.mp current]
          exact Or.inr ⟨rfl, rfl⟩
    · exact Or.inl ((congrArg Peer.recalled (Function.update_of_ne here _ _)).symm.trans recalled)
  | tryTakeChunkAssign worker =>
    have same : (cluster.peers worker).tryTakeChunkAssign.recalled =
        (cluster.peers worker).recalled := by
      rw [Peer.tryTakeChunkAssign]
      split <;> rfl
    exact Or.inl ((recalled_setPeer same other).symm.trans recalled)
  | workerCompletes worker consumed =>
    by_cases here : other = worker
    · subst here
      change ((cluster.setPeer other _).peers other).recalled = true at recalled
      rw [peers_setPeer, Peer.sendChunkComplete] at recalled
      split at recalled
      next => exact Or.inl recalled
      next => cases recalled
    · exact Or.inl ((congrArg Peer.recalled (Function.update_of_ne here _ _)).symm.trans recalled)
  | sendChunkRequest worker =>
    have same : (cluster.peers worker).sendChunkRequest.recalled =
        (cluster.peers worker).recalled := by
      rw [Peer.sendChunkRequest]
      split <;> rfl
    exact Or.inl ((recalled_setPeer same other).symm.trans recalled)
  | selfAssign size targetReached =>
    rw [Cluster.step, Cluster.selfAssign] at recalled
    split at recalled <;> exact Or.inl recalled
  | selfComplete consumed =>
    rw [Cluster.step, Cluster.selfComplete] at recalled
    split at recalled <;> exact Or.inl recalled

end Recalled

/-! ## What a step preserves -/

private theorem sieved_assignChunkTo (cluster : Cluster workers) (worker : Fin workers)
    (dispatch : Dispatch) : (cluster.assignChunkTo worker dispatch).sieved = cluster.sieved := by
  rw [Cluster.assignChunkTo]
  dsimp only
  split
  next busy => rfl
  next idle =>
    split
    next stopped => rfl
    next pending =>
      split
      next refused => rfl
      next checkout issued => split <;> rfl

theorem sieved_step (cluster : Cluster workers) {event : Event workers}
    (other : ofSieveThread event = false) :
    (cluster.step event).sieved = cluster.sieved ++ ownPart cluster event := by
  have same : (cluster.step event).sieved = cluster.sieved → ownPart cluster event = [] →
      (cluster.step event).sieved = cluster.sieved ++ ownPart cluster event := by
    intro unchanged nothing
    rw [unchanged, nothing, List.append_nil]
  cases event with
  | receive worker dispatch =>
    apply same _ rfl
    rw [Cluster.step, Cluster.receive]
    split
    next alive =>
      split
      next empty => rfl
      next chunkId consumed rest frame =>
        rw [sieved_assignChunkTo, Cluster.chunkComplete]
        split <;> rfl
      next rest frame =>
        rw [sieved_assignChunkTo, Cluster.chunkRequest]
        split <;> rfl
    next dead => rfl
  | idleSweep worker dispatch =>
    apply same _ rfl
    rw [Cluster.step, Cluster.idleSweep]
    split
    · exact sieved_assignChunkTo cluster worker dispatch
    · rfl
  | heartbeatTimeout worker =>
    apply same _ rfl
    rw [Cluster.step, Cluster.heartbeatTimeout]
    dsimp only
    split
    · split <;> rfl
    · rfl
  | checkStraggler worker chunkId => exact same rfl rfl
  | ioThreadReceive worker => exact same rfl rfl
  | tryTakeChunkAssign worker => cases other
  | workerCompletes worker consumed => cases other
  | sendChunkRequest worker => exact same rfl rfl
  | selfAssign size targetReached =>
    apply same _ rfl
    rw [Cluster.step, Cluster.selfAssign]
    split <;> rfl
  | selfComplete consumed =>
    rw [Cluster.step, Cluster.selfComplete, ownPart]
    cases own : cluster.ownChunk with
    | none => exact (List.append_nil _).symm
    | some chunk => rfl

/-- The cluster's invariant, exact counts in every sieve thread, and what a recall promises
of the flags and the reports. -/
structure Invariant (aStart aEnd : Nat) (system : System workers) : Prop where
  cluster : system.cluster.Invariant Peer.InLockstep
  conserves : system.cluster.ledger.Conserves aStart aEnd
  counts : ∀ worker, (system.threads worker).Exact
  stops : ∀ worker, (system.peer worker).recalled = true →
    (system.threads worker).tap.shouldStop = true
  reported : ∀ report ∈ system.reports, report.aValuesConsumed = report.sieved
  prefixes : system.cluster.sieved = system.prefixes

variable {configs : Fin workers → SieveConfig} {aStart aEnd : Nat} {system : System workers}

section

variable (invariant : system.Invariant aStart aEnd)

include invariant

theorem Invariant.recallsExactly : system.RecallsExactly where
  stops := invariant.stops
  reported := invariant.reported
  reclaimed := by
    intro worker chunkId consumed rest alive frames tracked
    have tracks := invariant.cluster.tracks worker
    have stage := invariant.cluster.related worker alive
    rcases tracks.tracked tracked with ⟨chunk, held, named⟩
    rcases stage.head_completion tracks frames tracked with ⟨same, sieved⟩
    have isHeld : chunk ∈ system.cluster.pool.heldBy (nodeId worker) :=
      held ▸ List.mem_singleton_self chunk
    rcases mem_heldBy.mp isHeld with ⟨inFlight, owner⟩
    have found := invariant.cluster.numbered.findChunk inFlight
    rw [named.trans same] at found
    rcases reclaimPartial_splits invariant.conserves.bounded found consumed with
      ⟨remainder, returned, splits⟩
    refine ⟨chunk, remainder, found, owner, ?_, ?_, splits⟩
    · rw [← invariant.prefixes]
      exact sieved chunk isHeld
    · have both : (system.cluster.peers worker).currentChunkId = chunkId ∧
          ¬ (system.cluster.peers worker).Untracked := ⟨same, tracked⟩
      rw [Cluster.chunkComplete, if_pos both]
      exact returned

theorem Invariant.setThread {worker : Fin workers} {thread : SieveThread} (exact_ : thread.Exact)
    (stops : (system.threads worker).tap.shouldStop = true → thread.tap.shouldStop = true) :
    (system.setThread worker thread).Invariant aStart aEnd where
  cluster := invariant.cluster
  conserves := invariant.conserves
  counts := by
    intro other
    by_cases here : other = worker
    · rw [here, threads_setThread, Function.update_self]
      exact exact_
    · rw [threads_setThread, Function.update_of_ne here]
      exact invariant.counts other
  stops := by
    intro other recalled
    have told := invariant.stops other recalled
    by_cases here : other = worker
    · rw [here] at told
      rw [here, threads_setThread, Function.update_self]
      exact stops told
    · rw [threads_setThread, Function.update_of_ne here]
      exact told
  reported := invariant.reported
  prefixes := invariant.prefixes

theorem Invariant.handle {event : Event workers} (late : system.RecallsLate event)
    (ids : system.cluster.HasChunkIds event)
    (requests : system.cluster.Handles Peer.RequestsUntracked event) :
    (system.handle event).Invariant aStart aEnd := by
  rw [System.handle]
  split
  next => exact invariant
  next coordinator =>
    constructor
    · exact invariant.cluster.step Peer.inLockstep_preserved ids requests
    · exact step_conserves invariant.conserves event
    · exact invariant.counts
    · intro worker recalled
      rcases recalled_step event worker recalled with old | ⟨rfl, head⟩
      · exact invariant.stops worker old
      · exact late head
    · exact invariant.reported
    · rw [sieved_step _ (Bool.not_eq_true _ ▸ coordinator), invariant.prefixes]

theorem Invariant.stopFrame (worker : Fin workers) :
    (system.stopFrame worker).Invariant aStart aEnd :=
  invariant.setThread
    { counted := nofun
      bounded := (invariant.counts worker).bounded
      left := (invariant.counts worker).left }
    fun _ => AsyncNetworkDataTap.shouldStop_iff.mpr (Or.inl rfl)

theorem Invariant.takeChunk {worker : Fin workers}
    (cleared : (system.peer worker).recalled = true → (system.threads worker).tap.stop = true)
    (config : SieveConfig) : (system.takeChunk config worker).Invariant aStart aEnd := by
  rw [System.takeChunk]
  split
  next assign waiting pending =>
    constructor
    · change (system.cluster.step (.tryTakeChunkAssign worker)).Invariant _
      exact invariant.cluster.step Peer.inLockstep_preserved (fun none_ => nomatch none_) trivial
    · exact step_conserves invariant.conserves (.tryTakeChunkAssign worker)
    · intro other
      by_cases here : other = worker
      · rw [here]
        simpa using SieveThread.exact_enterStage assign.polyRange.count
      · simpa [here] using invariant.counts other
    · intro other recalled
      rcases recalled_step (.tryTakeChunkAssign worker) other recalled with old | ⟨event, _⟩
      · by_cases here : other = worker
        · rw [here] at old ⊢
          have stopped := cleared old
          apply AsyncNetworkDataTap.shouldStop_iff.mpr
          simp [stopped]
        · simpa [here] using invariant.stops other old
      · cases event
    · exact invariant.reported
    · exact invariant.prefixes
  next => exact invariant

theorem Invariant.complete (worker : Fin workers) :
    (system.complete worker).Invariant aStart aEnd := by
  rw [System.complete]
  split
  next ready =>
    rcases ready with ⟨_, left, runs⟩
    have counts := invariant.counts worker
    have exact_ : (system.threads worker).tap.rangeAConsumed = (system.threads worker).sieved := by
      have counted := counts.counted runs
      rwa [counts.left left] at counted
    constructor
    · change (system.cluster.step (.workerCompletes worker _)).Invariant _
      exact invariant.cluster.step Peer.inLockstep_preserved (fun none_ => nomatch none_) trivial
    · exact step_conserves invariant.conserves (.workerCompletes worker _)
    · exact invariant.counts
    · intro other recalled
      rcases recalled_step (.workerCompletes worker _) other recalled with old | ⟨event, _⟩
      · exact invariant.stops other old
      · cases event
    · intro report member
      rcases List.mem_append.mp member with old | new
      · exact invariant.reported report old
      · rw [List.mem_singleton.mp new]
        exact exact_
    · rw [exact_, ← invariant.prefixes]
      rfl
  next => exact invariant

end

theorem Invariant.step (invariant : system.Invariant aStart aEnd) {input : Input workers}
    (sound : system.Sound configs input) : (system.step configs input).Invariant aStart aEnd := by
  cases input with
  | event event => exact invariant.handle sound.1 sound.2.1 sound.2.2
  | stopFrame worker => exact invariant.stopFrame worker
  | batch worker turn =>
    apply invariant.setThread ((invariant.counts worker).batch sound)
    intro stops
    rw [SieveThread.batch_of_shouldStop stops]
    exact stops
  | leaveLoop worker truncated remaining =>
    exact invariant.setThread ((invariant.counts worker).leaveLoop sound)
      ((invariant.counts worker).shouldStop_leaveLoop sound)
  | takeChunk worker => exact invariant.takeChunk sound (configs worker)
  | complete worker => exact invariant.complete worker

theorem start_invariant (initialCounts : Fin workers → Nat) (aStart totalA unitSize : Nat) :
    (start configs initialCounts aStart totalA unitSize).Invariant aStart
      (WorkPool.create aStart totalA unitSize).endCursor where
  cluster := Cluster.start_invariant Peer.inLockstep_preserved aStart totalA unitSize
  conserves := create_conserves aStart totalA unitSize
  counts := fun _ =>
    { counted := fun _ => rfl
      bounded := Nat.two_pow_pos 64
      left := nofun }
  stops := nofun
  reported := nofun
  prefixes := rfl

/-- In every run whose steps are sound, recalls are exact in every state. -/
theorem run_recallsExactly (configs : Fin workers → SieveConfig)
    (initialCounts : Fin workers → Nat) (aStart totalA unitSize : Nat)
    (inputs : List (Input workers))
    (sound : Transition.Meets (step configs) (Sound configs)
      (start configs initialCounts aStart totalA unitSize) inputs) :
    ∀ taken, taken <+: inputs → (Transition.run (step configs)
      (start configs initialCounts aStart totalA unitSize) taken).RecallsExactly := by
  intro taken isPrefix
  have meets := sound.of_prefix isPrefix
  have invariant := meets.invariant (fun _ _ sound invariant => Invariant.step invariant sound)
    (start_invariant initialCounts aStart totalA unitSize)
  exact invariant.recallsExactly

def untilChunk : List (Input 1) :=
  let worker := .last 0
  [.batch worker (.standardBatch false true), .batch worker (.standardBatch true true),
    .leaveLoop worker false false, .complete worker,
    .event (.receive worker ⟨100, false, true⟩), .event (.ioThreadReceive worker),
    .takeChunk worker, .batch worker (.standardBatch false true)]

def recalledEarly : List (Input 1) :=
  untilChunk ++ [.event (.checkStraggler (.last 0) 0), .event (.ioThreadReceive (.last 0))]

/-- The tap is not told to stop, and the worker starts the next batch of the chunk. -/
theorem not_recallsExactly_recalledEarly :
    ¬ (Transition.run (step fun _ => ⟨0, 10⟩) (start (fun _ => ⟨0, 10⟩) (fun _ => 10) 0 100 64)
        recalledEarly).RecallsExactly ∧
      ((Transition.run (step fun _ => ⟨0, 10⟩)
        (start (fun _ => ⟨0, 10⟩) (fun _ => 10) 0 100 64) recalledEarly).threads 0).Starts
        ⟨0, 10⟩ (.standardBatch true true) := by
  constructor
  · intro recalls
    have stops := recalls.stops 0 (by decide +kernel)
    have runs : ((Transition.run (step fun _ => ⟨0, 10⟩)
        (start (fun _ => ⟨0, 10⟩) (fun _ => 10) 0 100 64) recalledEarly).threads
        0).tap.shouldStop = false := by
      decide +kernel
    exact nomatch runs.symm.trans stops
  · decide +kernel

def recalledLate : List (Input 1) :=
  let worker := .last 0
  untilChunk ++ [.event (.checkStraggler worker 0), .batch worker (.standardBatch true true),
    .event (.ioThreadReceive worker), .leaveLoop worker false false, .complete worker,
    .event (.receive worker ⟨100, true, true⟩)]

theorem recallsExactly_recalledLate : (Transition.run (step fun _ => ⟨0, 50⟩)
      (start (fun _ => ⟨0, 50⟩) (fun _ => 50) 0 50 64) recalledLate).RecallsExactly :=
  run_recallsExactly (fun _ => ⟨0, 50⟩) (fun _ => 50) 0 50 64 recalledLate (by decide +kernel)
    recalledLate (List.prefix_refl _)

end System

end ChunkRecall

end CudaMpqs
