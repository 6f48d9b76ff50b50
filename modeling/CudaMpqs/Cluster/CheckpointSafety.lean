import CudaMpqs.Foundation.PromiseStream
import CudaMpqs.Cluster.ChunkSafety
import CudaMpqs.Cluster.CheckpointProtocol

/-! # Checkpoints do not run ahead of the relations

What a completion promises is known once every frame before it has been
received. The promise survives every event as long as nothing is completed before
its batches are on the way. -/

namespace CudaMpqs

open CudaMpqs.Interval WorkPool PromiseStream

namespace WorkPool

structure Evolves (before after : WorkPool) : Prop where
  numbered : after.Numbered
  next : before.nextChunkId ≤ after.nextChunkId
  inFlight : ∀ chunk ∈ after.inFlightChunks,
    chunk ∈ before.inFlightChunks ∨ before.nextChunkId ≤ chunk.chunkId

/-- A chunk id that was handed out, for a unit with a property if it is still in
flight. -/
def Names (pool : WorkPool) (chunkId : Nat) (property : WorkUnit → Prop) : Prop :=
  chunkId < pool.nextChunkId ∧
    ∀ chunk ∈ pool.inFlightChunks, chunk.chunkId = chunkId → property chunk.unit

variable {before after : WorkPool} {chunkId : Nat} {property weaker : WorkUnit → Prop}

section

variable (numbered : before.Numbered)

include numbered

theorem Evolves.refl : Evolves before before :=
  ⟨numbered, Nat.le_refl _, fun _ member => .inl member⟩

theorem Evolves.of_sublist (sublist : after.inFlightChunks.Sublist before.inFlightChunks)
    (next : after.nextChunkId = before.nextChunkId) : Evolves before after :=
  ⟨numbered.of_sublist sublist next, next.ge, fun _ member => .inl (sublist.subset member)⟩

theorem Evolves.track {chunk : CheckedOutWork} (fresh : chunk.chunkId = before.nextChunkId)
    (tracked : after.inFlightChunks = before.inFlightChunks ++ [chunk])
    (next : after.nextChunkId = before.nextChunkId + 1) : Evolves before after where
  numbered := numbered.track fresh tracked next
  next := next.symm ▸ Nat.le_succ _
  inFlight := by
    intro item member
    rcases List.mem_append.mp (tracked ▸ member) with old | new
    · exact .inl old
    · rw [List.mem_singleton.mp new]
      exact .inr fresh.ge

theorem evolves_reclaimPartial (chunkId consumed : Nat) :
    Evolves before (before.reclaimPartial chunkId consumed) := by
  have effect := reclaimPartial_inFlight before chunkId consumed
  exact .of_sublist numbered (effect.1 ▸ List.eraseP_sublist) effect.2

theorem evolves_returnChunk (chunkId : Nat) : Evolves before (before.returnChunk chunkId).2 := by
  have effect := returnChunk_inFlight before chunkId
  exact .of_sublist numbered (effect.1 ▸ List.eraseP_sublist) effect.2

theorem evolves_reclaimWork (node : Nat) : Evolves before (before.reclaimWork node).2 :=
  .of_sublist numbered List.filter_sublist rfl

end

theorem Names.imp (names : before.Names chunkId property)
    (weakens : ∀ unit, property unit → weaker unit) : before.Names chunkId weaker :=
  ⟨names.1, fun chunk member same => weakens _ (names.2 chunk member same)⟩

/-- An id keeps naming the same chunk, since ids are not used again. -/
theorem Names.carry (names : before.Names chunkId property)
    (evolves : Evolves before after) : after.Names chunkId property := by
  refine ⟨names.1.trans_le evolves.next, ?_⟩
  intro chunk member same
  rcases evolves.inFlight chunk member with old | new
  · exact names.2 chunk old same
  · have fresh := names.1
    omega

theorem names_track (numbered : before.Numbered) {unit : WorkUnit} {node : Nat}
    (tracked : after.inFlightChunks = before.inFlightChunks ++ [⟨before.nextChunkId, unit, node⟩])
    (next : after.nextChunkId = before.nextChunkId + 1) :
    after.Names before.nextChunkId (· = unit) := by
  refine ⟨next.symm ▸ Nat.lt_succ_self _, ?_⟩
  intro chunk member same
  rcases List.mem_append.mp (tracked ▸ member) with old | new
  · exact absurd same (numbered.below chunk old).ne
  · rw [List.mem_singleton.mp new]

end WorkPool

/-! ## One worker -/

theorem WireFrame.relations?_incrementalBatch (relations : List WorkUnit) :
    (WireFrame.incrementalBatch relations).relations? = some relations := rfl

theorem WireFrame.relations?_report : WireFrame.report.relations? = none := rfl

/-- What a report promises about the data before it: the progress on the initial
range if it is the first, the progress on a chunk that is still in flight
otherwise. -/
def ReportFrame.Promise (pool : WorkPool) (initialStart : Nat) (first : Bool)
    (known : List WorkUnit) : ReportFrame → Prop
  | .chunkComplete chunkId consumed =>
    if first = true then Covers known initialStart consumed
    else pool.Names chunkId fun unit =>
      Covers known unit.start (min consumed unit.count)
  | .chunkRequest => first = false

def Tap.outstanding (tap : Tap) : List WorkUnit :=
  dataOf WireFrame.relations? tap.wire ++ (tap.items ++ tap.ring)

/-- A live worker with its tap, seen from the pool and the relations that the
coordinator knows. -/
structure WorkerSafe (pool : WorkPool) (known : List WorkUnit) (initialStart : Nat)
    (peer : Peer) (tap : Tap) : Prop where
  sieved : peer.loop ≠ .waiting →
    Covers (known ++ tap.outstanding) tap.polyRangeStart tap.rangeAConsumed
  initial : peer.loop = .initialRange → tap.polyRangeStart = initialStart ∧
    peer.currentChunkId = kInitialChunk ∧ peer.toCoordinator = []
  chunk : ∀ assign, peer.loop = .chunk assign →
    tap.polyRangeStart = assign.polyRange.start ∧ peer.tapChunkId = assign.chunkId
  assigns : ∀ assign ∈ peer.mailbox.contents, pool.Names assign.chunkId (· = assign.polyRange)
  reports : Promised WireFrame.relations? (ReportFrame.Promise pool initialStart)
    (decide (peer.currentChunkId = kInitialChunk)) known tap.wire peer.toCoordinator
  reported : peer.currentChunkId = kInitialChunk →
    peer.loop = .initialRange ∨ peer.toCoordinator ≠ []

namespace WorkerSafe

variable {pool after : WorkPool} {known more : List WorkUnit} {initialStart : Nat}
  {peer : Peer} {tap : Tap}

theorem promise_carry (evolves : Evolves pool after) (first : Bool)
    (known more : List WorkUnit) (report : ReportFrame) (subset : known ⊆ more)
    (promise : report.Promise pool initialStart first known) :
    report.Promise after initialStart first more := by
  cases report with
  | chunkRequest => exact promise
  | chunkComplete chunkId consumed =>
    cases first with
    | true => exact Covers.mono promise subset
    | false =>
      have names : pool.Names chunkId fun unit =>
          Covers known unit.start (min consumed unit.count) := promise
      exact (names.carry evolves).imp fun _ covers => covers.mono subset

theorem carry (safe : WorkerSafe pool known initialStart peer tap)
    (evolves : Evolves pool after) (subset : known ⊆ more) :
    WorkerSafe after more initialStart peer tap where
  sieved busy := (safe.sieved busy).mono (List.append_subset.mpr
    ⟨List.subset_append_of_subset_left _ subset, List.subset_append_right _ _⟩)
  initial := safe.initial
  chunk := safe.chunk
  assigns assign member := (safe.assigns assign member).carry evolves
  reports := safe.reports.mono (promise_carry evolves) subset
  reported := safe.reported

theorem of_start (pool : WorkPool) (known : List WorkUnit) (initialStart : Nat) :
    WorkerSafe pool known initialStart {} { polyRangeStart := initialStart } where
  sieved _ := covers_zero _ _
  initial _ := ⟨rfl, rfl, rfl⟩
  chunk _ busy := nomatch busy
  assigns _ member := nomatch member
  reports := rfl
  reported _ := .inl rfl

section

variable (safe : WorkerSafe pool known initialStart peer tap)

include safe

theorem onBatchComplete (numbered : pool.Numbered) (busy : peer.loop ≠ .waiting) (aValues : Nat)
    (subset : known ++ tap.droppedBatch aValues ⊆ more) :
    WorkerSafe pool more initialStart peer (tap.onBatchComplete aValues) := by
  have carried := safe.carry (.refl numbered)
    (List.Subset.trans (List.subset_append_left _ _) subset)
  refine { carried with sieved := fun _ => ?_ }
  apply ((safe.sieved busy).push aValues).mono
  intro unit member
  simp only [Tap.outstanding, Tap.onBatchComplete, List.mem_append] at member ⊢
  rcases member with (inKnown | outstanding) | new
  · exact .inl (subset (List.mem_append_left _ inKnown))
  · apply Or.inr
    split
    · simp only [List.mem_append]
      exact outstanding.imp id (Or.imp id Or.inl)
    · exact outstanding
  · by_cases room : tap.ring.length < ringCapacity
    · rw [if_pos room]
      exact .inr (.inr (.inr (List.mem_append_right _ new)))
    · apply Or.inl
      apply subset
      rw [Tap.droppedBatch, if_neg room]
      exact List.mem_append_right _ new

theorem popBatch (count : Nat) : WorkerSafe pool known initialStart peer (tap.popBatch count) := by
  rw [Tap.popBatch]
  split
  next empty =>
    refine { safe with sieved := fun busy => (safe.sieved busy).mono ?_ }
    rw [Tap.outstanding, Tap.outstanding, List.isEmpty_iff.mp empty, List.nil_append,
      List.take_append_drop]
    exact List.Subset.refl _
  next pending => exact safe

theorem sendBatch : WorkerSafe pool known initialStart peer tap.sendBatch := by
  rw [Tap.sendBatch]
  split
  next empty => exact safe
  next pending =>
    refine { safe with
      sieved := fun busy => (safe.sieved busy).mono ?_
      reports := safe.reports.sendData (WireFrame.relations?_incrementalBatch _) }
    rw [Tap.outstanding, Tap.outstanding, dataOf_concat]
    simp [WireFrame.relations?]

theorem moveAssigns {moved : Peer} (loop : moved.loop = peer.loop)
    (chunkId : moved.currentChunkId = peer.currentChunkId)
    (label : moved.tapChunkId = peer.tapChunkId)
    (reports : moved.toCoordinator = peer.toCoordinator)
    (contents : moved.mailbox.contents ⊆ peer.mailbox.contents) :
    WorkerSafe pool known initialStart moved tap where
  sieved := by
    rw [loop]
    exact safe.sieved
  initial := by
    rw [loop, chunkId, reports]
    exact safe.initial
  chunk := by
    rw [loop, label]
    exact safe.chunk
  assigns assign member := safe.assigns assign (contents member)
  reports := by
    rw [chunkId, reports]
    exact safe.reports
  reported := by
    rw [loop, chunkId, reports]
    exact safe.reported

theorem ioThreadReceive : WorkerSafe pool known initialStart peer.ioThreadReceive tap := by
  have contents : peer.ioThreadReceive.mailbox.contents ⊆ peer.mailbox.contents := by
    rcases peer.mailbox_ioThreadReceive with delivered | same
    · rw [delivered]
      exact (Mailbox.contents_deliver_sublist _).subset
    · rw [same]
      exact List.Subset.refl _
  apply safe.moveAssigns _ _ _ _ contents <;>
    (rw [Peer.ioThreadReceive]; split <;> rfl)

theorem checkStraggler (chunkId : Nat) : WorkerSafe pool known initialStart
      { peer with toWorker := peer.toWorker ++ [.chunkRecall chunkId] } tap := by
  refine safe.moveAssigns rfl rfl rfl rfl ?_
  simp [Peer.mailbox, Mailbox.contents, ControlFrame.assign?, List.filterMap_cons]

theorem tryTakeChunkAssign (waiting : peer.loop = .waiting) {assign : ChunkAssign}
    (pending : peer.pendingAssign = some assign) :
    WorkerSafe pool known initialStart peer.tryTakeChunkAssign
      (tap.setRange assign.polyRange.start) := by
  have contents := peer.contents_tryTakeChunkAssign
  have taken : peer.tryTakeChunkAssign =
      { peer with
        loop := .chunk assign, tapChunkId := assign.chunkId, pendingAssign := none } := by
    simp only [Peer.tryTakeChunkAssign, waiting, pending]
  rw [taken] at contents ⊢
  exact {
    sieved := fun _ => covers_zero _ _
    initial := by rintro ⟨⟩
    chunk := fun other same => by
      rw [← SieveLoop.chunk.inj same]
      exact ⟨rfl, rfl⟩
    assigns := fun other member => safe.assigns other (contents ▸ member)
    reports := safe.reports
    reported := by
      intro initial
      refine .inr ((safe.reported initial).resolve_left fun same => ?_)
      cases waiting.symm.trans same }

theorem notFirst (later : peer.loop ≠ .initialRange) :
    (decide (peer.currentChunkId = kInitialChunk) && peer.toCoordinator.isEmpty) =
      false := by
  rw [Bool.and_eq_false_iff, decide_eq_false_iff_not, List.isEmpty_eq_false_iff]
  by_cases initial : peer.currentChunkId = kInitialChunk
  · exact .inr ((safe.reported initial).resolve_left later)
  · exact .inl initial

/-- A completion that is sent behind all its batches keeps its promise. -/
theorem sendChunkComplete (busy : peer.loop ≠ .waiting) (ring : tap.ring = [])
    (items : tap.items = []) :
    WorkerSafe pool known initialStart (peer.sendChunkComplete tap.rangeAConsumed)
      tap.sendReport := by
  have sent : peer.sendChunkComplete tap.rangeAConsumed =
      { peer with
        loop := .waiting
        recalled := false
        toCoordinator := peer.toCoordinator ++
          [.chunkComplete peer.tapChunkId tap.rangeAConsumed] } := by
    rw [Peer.sendChunkComplete]
    split
    next waiting => exact absurd waiting busy
    next => rfl
  have contents : (peer.sendChunkComplete tap.rangeAConsumed).mailbox.contents ⊆
      peer.mailbox.contents := by
    rw [Peer.mailbox_sendChunkComplete, Mailbox.contents_finish peer.mailbox]
    exact List.subset_append_right _ _
  have sieved := safe.sieved busy
  rw [Tap.outstanding, ring, items, List.append_nil, List.append_nil] at sieved
  have promise : ReportFrame.Promise pool initialStart
      (decide (peer.currentChunkId = kInitialChunk) && peer.toCoordinator.isEmpty)
      (known ++ dataOf WireFrame.relations? tap.wire)
      (.chunkComplete peer.tapChunkId tap.rangeAConsumed) := by
    cases loop : peer.loop with
    | waiting => exact absurd loop busy
    | initialRange =>
      rcases safe.initial loop with ⟨start, current, quiet⟩
      rw [current, quiet]
      rw [start] at sieved
      exact sieved
    | chunk assign =>
      rcases safe.chunk assign loop with ⟨start, label⟩
      have chunked : peer.loop ≠ .initialRange := by
        intro initial
        cases loop.symm.trans initial
      have later := safe.notFirst chunked
      have member : assign ∈ peer.mailbox.contents := by
        simp [Peer.mailbox, Mailbox.contents, loop]
      have promised : pool.Names assign.chunkId fun unit =>
          Covers (known ++ dataOf WireFrame.relations? tap.wire) unit.start
            (min tap.rangeAConsumed unit.count) := by
        apply (safe.assigns assign member).imp
        intro unit same
        rw [same, ← start]
        exact sieved.shorten (Nat.min_le_left _ _)
      rw [later, label]
      exact promised
  have reports := safe.reports.sendReport WireFrame.relations?_report promise
  rw [sent] at contents ⊢
  exact {
    sieved := fun busy => absurd rfl busy
    initial := by rintro ⟨⟩
    chunk := by rintro assign ⟨⟩
    assigns := fun assign member => safe.assigns assign (contents member)
    reports := reports
    reported := fun _ => .inr (List.concat_ne_nil _ _) }

theorem sendChunkRequest (waiting : peer.loop = .waiting) :
    WorkerSafe pool known initialStart peer.sendChunkRequest tap.sendReport := by
  have sent : peer.sendChunkRequest =
      { peer with toCoordinator := peer.toCoordinator ++ [.chunkRequest] } := by
    simp only [Peer.sendChunkRequest, waiting]
  have unstarted : peer.loop ≠ .initialRange := by
    intro initial
    cases waiting.symm.trans initial
  have promise : ReportFrame.Promise pool initialStart
      (decide (peer.currentChunkId = kInitialChunk) && peer.toCoordinator.isEmpty)
      (known ++ dataOf WireFrame.relations? tap.wire) .chunkRequest :=
    safe.notFirst unstarted
  have reports := safe.reports.sendReport WireFrame.relations?_report promise
  rw [sent]
  exact {
    sieved := fun busy => absurd waiting busy
    initial := fun initial => absurd initial unstarted
    chunk := by
      intro assign same
      cases waiting.symm.trans same
    assigns := safe.assigns
    reports := reports
    reported := fun _ => .inr (List.concat_ne_nil _ _) }

end

variable {rest : List WireFrame}

section

variable (safe : WorkerSafe pool known initialStart peer tap)

include safe

theorem receiveBatch (numbered : pool.Numbered) {relations : List WorkUnit}
    (wire : tap.wire = .incrementalBatch relations :: rest) (subset : known ++ relations ⊆ more) :
    WorkerSafe pool more initialStart peer { tap with wire := rest } := by
  have carried := safe.carry (.refl numbered)
    (List.Subset.trans (List.subset_append_left _ _) subset)
  have reports := safe.reports
  rw [wire, promised_data (WireFrame.relations?_incrementalBatch relations)] at reports
  refine { carried with
    sieved := fun busy => (safe.sieved busy).mono ?_
    reports := reports.mono (promise_carry (.refl numbered)) subset }
  rw [Tap.outstanding, Tap.outstanding, wire, dataOf_cons]
  intro unit member
  simp only [WireFrame.relations?, Option.getD_some, List.mem_append] at member ⊢
  rcases member with inKnown | (received | onWire) | waiting
  · exact .inl (subset (List.mem_append_left _ inKnown))
  · exact .inl (subset (List.mem_append_right _ received))
  · exact .inr (.inl onWire)
  · exact .inr (.inr waiting)

theorem front (wire : tap.wire = .report :: rest) :
    ∃ report reports, peer.toCoordinator = report :: reports ∧ report.Promise pool initialStart
        (decide (peer.currentChunkId = kInitialChunk)) known ∧
      Promised WireFrame.relations? (ReportFrame.Promise pool initialStart) false known
        rest reports := by
  have reports := safe.reports
  rw [wire, promised_report WireFrame.relations?_report] at reports
  exact reports

theorem handled (wire : tap.wire = .report :: rest) {report : ReportFrame}
    {reports : List ReportFrame} (frames : peer.toCoordinator = report :: reports)
    (later : Promised WireFrame.relations? (ReportFrame.Promise pool initialStart) false
      known rest reports) :
    WorkerSafe pool known initialStart
      { peer with currentChunkId := idleChunk, toCoordinator := reports }
      { tap with wire := rest } where
  sieved busy := by
    apply (safe.sieved busy).mono
    rw [Tap.outstanding, Tap.outstanding, wire, dataOf_cons]
    exact List.Subset.refl _
  initial loop := by
    have quiet := (safe.initial loop).2.2
    rw [frames] at quiet
    cases quiet
  chunk := safe.chunk
  assigns := safe.assigns
  reports := later
  reported current := nomatch current

theorem assigned (evolves : Evolves pool after) (idle : peer.currentChunkId = idleChunk)
    (ids : pool.nextChunkId < kInitialChunk) {unit : WorkUnit}
    (names : after.Names pool.nextChunkId (· = unit)) :
    WorkerSafe after known initialStart
      { peer with
        currentChunkId := pool.nextChunkId
        toWorker := peer.toWorker ++ [.chunkAssign ⟨pool.nextChunkId, unit⟩] } tap := by
  have carried := safe.carry evolves (List.Subset.refl _)
  have contents : Mailbox.contents (Peer.mailbox { peer with
      currentChunkId := pool.nextChunkId
      toWorker := peer.toWorker ++ [.chunkAssign ⟨pool.nextChunkId, unit⟩] }) =
      peer.mailbox.contents ++ [⟨pool.nextChunkId, unit⟩] := by
    simp [Peer.mailbox, Mailbox.contents, ControlFrame.assign?]
  have before : decide (peer.currentChunkId = kInitialChunk) = false := by
    rw [idle]
    rfl
  have now : decide (pool.nextChunkId = kInitialChunk) = false :=
    decide_eq_false ids.ne
  refine { carried with
    initial := fun loop => ?_
    assigns := fun assign member => ?_
    reports := ?_
    reported := fun current => absurd current ids.ne }
  · exact absurd (idle.symm.trans (safe.initial loop).2.1) (by decide)
  · rw [contents] at member
    rcases List.mem_append.mp member with old | new
    · exact carried.assigns assign old
    · rw [List.mem_singleton.mp new]
      exact names
  · have reports := carried.reports
    rw [before] at reports
    rw [now]
    exact reports

end

end WorkerSafe

/-! ## The coordinator's own thread -/

structure OwnSafe (pool : WorkPool) (known : List WorkUnit) (initialStart : Nat)
    (ownChunk : Option CheckedOutWork) (ownInitial : Bool) (channel : DirectChannel) :
    Prop where
  sieved : ownInitial = true ∨ ownChunk.isSome = true →
    Covers (known ++ channel.buffer) channel.polyRangeStart channel.rangeAConsumed
  initial : ownInitial = true → channel.polyRangeStart = initialStart
  chunk : ∀ chunk, ownChunk = some chunk →
    channel.polyRangeStart = chunk.unit.start ∧ pool.Names chunk.chunkId (· = chunk.unit)

theorem OwnSafe.carry {pool after : WorkPool} {known more : List WorkUnit}
    {initialStart : Nat} {ownChunk : Option CheckedOutWork} {ownInitial : Bool}
    {channel : DirectChannel}
    (safe : OwnSafe pool known initialStart ownChunk ownInitial channel)
    (evolves : Evolves pool after) (subset : known ⊆ more) :
    OwnSafe after more initialStart ownChunk ownInitial channel where
  sieved busy := (safe.sieved busy).mono (List.append_subset.mpr
    ⟨List.subset_append_of_subset_left _ subset, List.subset_append_right _ _⟩)
  initial := safe.initial
  chunk chunk own := ⟨(safe.chunk chunk own).1, (safe.chunk chunk own).2.carry evolves⟩

/-- What a checkpoint skips on resume is in the relations that it saves, apart from
the ring drops. -/
def ClusterCheckpoint.Safe {workers : Nat} (plan : ClusterPlan workers)
    (dropped : List WorkUnit) (checkpoint : ClusterCheckpoint workers) : Prop :=
  Covers (checkpoint.pooled ++ dropped) plan.overflowStart
      (checkpoint.completedPrefixCursor - plan.overflowStart) ∧
    ClusterLegs.Sound plan.toInitialRanges (checkpoint.pooled ++ dropped)
      checkpoint.initialHighWater

theorem ClusterCheckpoint.Safe.mono {workers : Nat} {plan : ClusterPlan workers}
    {dropped more : List WorkUnit} {checkpoint : ClusterCheckpoint workers}
    (safe : checkpoint.Safe plan dropped) (subset : dropped ⊆ more) :
    checkpoint.Safe plan more := by
  have larger : checkpoint.pooled ++ dropped ⊆ checkpoint.pooled ++ more :=
    List.append_subset.mpr ⟨List.subset_append_left _ _,
      List.subset_append_of_subset_right _ subset⟩
  exact ⟨safe.1.mono larger, safe.2.mono larger⟩

namespace ClusterSieve

open Cluster

variable {workers : Nat} {plan : ClusterPlan workers}
  {sieve after : ClusterSieve workers} {worker : Fin workers}

def known (sieve : ClusterSieve workers) : List WorkUnit :=
  sieve.pooled ++ (sieve.deferredBatches ++ sieve.dropped)

variable {dropped : List WorkUnit}

theorem known_subset (sieve : ClusterSieve workers) (subset : sieve.dropped ⊆ dropped) :
    sieve.known ⊆ sieve.pooled ++ (sieve.deferredBatches ++ dropped) := by
  intro unit member
  simp only [known, List.mem_append] at member ⊢
  exact member.imp_right (Or.imp_right fun inDropped => subset inDropped)

structure Invariant (plan : ClusterPlan workers) (sieve : ClusterSieve workers) :
    Prop where
  numbered : sieve.cluster.pool.Numbered
  resumed : ∃ cursor high, sieve.cluster.ledger.Conserves cursor high ∧
    Covers sieve.known plan.overflowStart (cursor - plan.overflowStart)
  completed : ∀ unit ∈ sieve.cluster.ledger.completed, Covers sieve.known unit.start unit.count
  trimmed : ClusterLegs.Trimmed plan.toInitialRanges sieve.known sieve.trims
  highWater :
    ClusterLegs.Sound plan.toInitialRanges sieve.known sieve.initialHighWater
  worker : ∀ worker, (sieve.cluster.peers worker).alive = true →
    WorkerSafe sieve.cluster.pool sieve.known (sieve.trims worker.succ).start
      (sieve.cluster.peers worker) (sieve.taps worker)
  own : OwnSafe sieve.cluster.pool sieve.known (sieve.trims 0).start
    sieve.cluster.ownChunk sieve.ownInitial sieve.channel
  deferred : sieve.networkLoop ≠ .draining → sieve.deferredBatches = []
  checkpoints : ∀ checkpoint ∈ sieve.checkpoints, checkpoint.Safe plan sieve.dropped

theorem Invariant.carry (invariant : sieve.Invariant plan)
    (evolves : Evolves sieve.cluster.pool after.cluster.pool)
    (conserves : ∀ low high, sieve.cluster.ledger.Conserves low high →
      after.cluster.ledger.Conserves low high)
    (subset : sieve.known ⊆ after.known)
    (completed : ∀ unit ∈ after.cluster.ledger.completed,
      unit ∈ sieve.cluster.ledger.completed ∨ Covers after.known unit.start unit.count)
    (trims : after.trims = sieve.trims)
    (highWater : ClusterLegs.Sound plan.toInitialRanges after.known after.initialHighWater)
    (each : ∀ other, (after.cluster.peers other).alive = true →
      after.cluster.peers other = sieve.cluster.peers other ∧ after.taps other = sieve.taps other ∨
      WorkerSafe after.cluster.pool after.known (sieve.trims other.succ).start
        (after.cluster.peers other) (after.taps other))
    (own : OwnSafe after.cluster.pool after.known (sieve.trims 0).start
      after.cluster.ownChunk after.ownInitial after.channel)
    (deferred : after.networkLoop ≠ .draining → after.deferredBatches = [])
    (dropped : sieve.dropped ⊆ after.dropped)
    (checkpoints : after.checkpoints = sieve.checkpoints) : after.Invariant plan where
  numbered := evolves.numbered
  resumed := by
    rcases invariant.resumed with ⟨cursor, high, conserved, covers⟩
    exact ⟨cursor, high, conserves cursor high conserved, covers.mono subset⟩
  completed unit member := (completed unit member).elim
    (fun old => (invariant.completed unit old).mono subset) id
  trimmed := trims.symm ▸ invariant.trimmed.mono subset
  highWater := highWater
  worker other alive := by
    rw [trims]
    rcases each other alive with ⟨peer, tap⟩ | safe
    · rw [peer] at alive
      rw [peer, tap]
      exact (invariant.worker other alive).carry evolves subset
    · exact safe
  own := trims.symm ▸ own
  deferred := deferred
  checkpoints checkpoint member :=
    (invariant.checkpoints checkpoint (checkpoints ▸ member)).mono dropped

/-! ## Events of a worker -/

/-- An event that works on the pool, one peer and its tap. -/
theorem Invariant.update (invariant : sieve.Invariant plan) (cluster : Cluster workers)
    (evolves : Evolves sieve.cluster.pool cluster.pool)
    (conserves : ∀ low high, sieve.cluster.ledger.Conserves low high →
      cluster.ledger.Conserves low high)
    (subset : sieve.dropped ⊆ dropped)
    (completed : ∀ unit ∈ cluster.ledger.completed, unit ∈ sieve.cluster.ledger.completed ∨
        Covers (sieve.pooled ++ (sieve.deferredBatches ++ dropped)) unit.start unit.count)
    (same : cluster.ownChunk = sieve.cluster.ownChunk ∧ cluster.peers = sieve.cluster.peers)
    (peer : Peer) (tap : Tap) {highWater : Fin (workers + 1) → Nat}
    (sound : ClusterLegs.Sound plan.toInitialRanges
      (sieve.pooled ++ (sieve.deferredBatches ++ dropped)) highWater)
    (safe : peer.alive = true → WorkerSafe cluster.pool
      (sieve.pooled ++ (sieve.deferredBatches ++ dropped))
      (sieve.trims worker.succ).start peer tap) :
    Invariant plan { sieve.setTap worker tap with
      cluster := cluster.setPeer worker peer
      initialHighWater := highWater
      dropped := dropped } := by
  have grows : sieve.known ⊆ sieve.pooled ++ (sieve.deferredBatches ++ dropped) :=
    sieve.known_subset subset
  refine invariant.carry evolves conserves grows completed rfl sound ?_ ?_
    invariant.deferred subset rfl
  · intro other alive
    change (Function.update cluster.peers worker peer other).alive = true at alive
    change Function.update cluster.peers worker peer other = _ ∧
        Function.update sieve.taps worker tap other = _ ∨
      WorkerSafe cluster.pool _ _ (Function.update cluster.peers worker peer other)
        (Function.update sieve.taps worker tap other)
    by_cases equal : other = worker
    · subst equal
      rw [Function.update_self] at alive ⊢
      rw [Function.update_self]
      exact .inr (safe alive)
    · rw [Function.update_of_ne equal, Function.update_of_ne equal, same.2]
      exact .inl ⟨rfl, rfl⟩
  · have own := invariant.own.carry evolves grows
    rw [← same.1] at own
    exact own

theorem Invariant.setWorker (invariant : sieve.Invariant plan) (sieved : List WorkUnit)
    (peer : Peer) (tap : Tap) (subset : sieve.dropped ⊆ dropped)
    (safe : peer.alive = true → WorkerSafe sieve.cluster.pool
      (sieve.pooled ++ (sieve.deferredBatches ++ dropped))
      (sieve.trims worker.succ).start peer tap) :
    Invariant plan { sieve.setTap worker tap with
      cluster := Cluster.setPeer { sieve.cluster with sieved := sieved } worker peer
      dropped := dropped } :=
  invariant.update { sieve.cluster with sieved := sieved } (.refl invariant.numbered)
    (fun _ _ => id) subset (fun _ => .inl) ⟨rfl, rfl⟩ peer tap
    (invariant.highWater.mono (sieve.known_subset subset)) safe

theorem setPeer_peers (cluster : Cluster workers) (worker : Fin workers) :
    cluster.setPeer worker (cluster.peers worker) = cluster := by
  rw [Cluster.setPeer, Function.update_eq_self]

theorem setTap_taps (sieve : ClusterSieve workers) (worker : Fin workers) :
    sieve.setTap worker (sieve.taps worker) = sieve := by
  rw [ClusterSieve.setTap, Function.update_eq_self]

section

variable (invariant : sieve.Invariant plan)

include invariant

theorem Invariant.setTap (tap : Tap) (subset : sieve.dropped ⊆ dropped)
    (safe : (sieve.cluster.peers worker).alive = true →
      WorkerSafe sieve.cluster.pool (sieve.pooled ++ (sieve.deferredBatches ++ dropped))
        (sieve.trims worker.succ).start (sieve.cluster.peers worker) tap) :
    Invariant plan { sieve.setTap worker tap with dropped := dropped } := by
  have updated := invariant.setWorker sieve.cluster.sieved (sieve.cluster.peers worker)
    tap subset safe
  rw [setPeer_peers] at updated
  exact updated

theorem Invariant.setPeer (peer : Peer)
    (safe : peer.alive = true → WorkerSafe sieve.cluster.pool sieve.known
      (sieve.trims worker.succ).start peer (sieve.taps worker)) :
    Invariant plan { sieve with cluster := sieve.cluster.setPeer worker peer } := by
  have updated := invariant.setWorker sieve.cluster.sieved peer (sieve.taps worker)
    (List.Subset.refl _) safe
  rw [setTap_taps] at updated
  exact updated

theorem Invariant.onBatchComplete (worker : Fin workers) (aValues : Nat) :
    Invariant plan (sieve.onBatchComplete worker aValues) := by
  rw [ClusterSieve.onBatchComplete]
  split
  next waiting => exact invariant
  next busy =>
    refine invariant.setTap _ (List.subset_append_left _ _) fun alive => ?_
    refine (invariant.worker worker alive).onBatchComplete invariant.numbered
      (fun waiting => busy waiting) aValues ?_
    simp [known]

theorem Invariant.workerCompletes (worker : Fin workers)
    (dataFirst : sieve.DataFirst (.workerCompletes worker)) :
    Invariant plan (sieve.workerCompletes worker) := by
  rw [ClusterSieve.workerCompletes]
  split
  next waiting => exact invariant
  next busy =>
    refine invariant.setWorker (sieve.cluster.sieved ++
        ((sieve.cluster.peers worker).consumedUnit (sieve.taps worker).rangeAConsumed).toList)
      ((sieve.cluster.peers worker).sendChunkComplete (sieve.taps worker).rangeAConsumed)
      _ (List.Subset.refl _) fun alive => ?_
    rw [Peer.alive_sendChunkComplete] at alive
    have sent := dataFirst fun waiting => busy waiting
    exact (invariant.worker worker alive).sendChunkComplete (fun waiting => busy waiting)
      sent.1 sent.2

theorem Invariant.sendChunkRequest (worker : Fin workers) :
    Invariant plan (sieve.sendChunkRequest worker) := by
  rw [ClusterSieve.sendChunkRequest]
  split
  next waiting =>
    refine invariant.setWorker sieve.cluster.sieved _ _ (List.Subset.refl _)
      fun alive => ?_
    rw [Peer.alive_sendChunkRequest] at alive
    exact (invariant.worker worker alive).sendChunkRequest waiting
  next busy => exact invariant

theorem Invariant.tryTakeChunkAssign (worker : Fin workers) :
    Invariant plan (sieve.tryTakeChunkAssign worker) := by
  rw [ClusterSieve.tryTakeChunkAssign]
  split
  next assign waiting pending =>
    refine invariant.setWorker sieve.cluster.sieved _ _ (List.Subset.refl _)
      fun alive => ?_
    rw [Peer.alive_tryTakeChunkAssign] at alive
    exact (invariant.worker worker alive).tryTakeChunkAssign waiting pending
  next => exact invariant

end

/-! ## Events of the coordinator's own thread -/

theorem selfAssign_cases {cluster : Cluster workers} (none : cluster.ownChunk = none)
    (ids : cluster.pool.nextChunkId < kInitialChunk) (size : Nat) (targetReached : Bool) :
    let assigned := cluster.selfAssign size targetReached
    assigned.ledger.completed = cluster.ledger.completed ∧ assigned.peers = cluster.peers ∧
      (assigned.ownChunk = .none ∧ assigned.pool = cluster.pool ∨
        ∃ unit, assigned.ownChunk = some ⟨cluster.pool.nextChunkId, unit, 0⟩ ∧
          assigned.pool.inFlightChunks =
            cluster.pool.inFlightChunks ++ [⟨cluster.pool.nextChunkId, unit, 0⟩] ∧
          assigned.pool.nextChunkId = cluster.pool.nextChunkId + 1) := by
  dsimp only
  rw [Cluster.selfAssign]
  split
  next stopped => exact ⟨rfl, rfl, .inl ⟨none, rfl⟩⟩
  next pending =>
    refine ⟨rfl, rfl, ?_⟩
    rcases checkoutWork_tracks cluster.pool size 0 with
      refused | ⟨unit, issued, inFlight, next⟩
    · exact .inl ⟨congrArg Prod.fst refused, congrArg Prod.snd refused⟩
    · rw [Nat.mod_eq_of_lt (by simp only [kInitialChunk] at ids; omega)] at next
      exact .inr ⟨unit, issued, inFlight, next⟩

theorem completed_reclaimPartial {ledger : Ledger} {chunkId consumed : Nat} {known : List WorkUnit}
    (names : ledger.pool.Names chunkId fun unit =>
      Covers known unit.start (min consumed unit.count)) :
    ∀ unit ∈ (ledger.apply (.reclaimPartial chunkId consumed)).completed,
      unit ∈ ledger.completed ∨ Covers known unit.start unit.count := by
  intro unit member
  rcases List.mem_append.mp member with old | new
  · exact .inl old
  · cases found : ledger.pool.findChunk chunkId with
    | none => rw [found] at new; cases new
    | some chunk =>
      rw [found] at new
      rw [List.mem_singleton.mp new]
      exact .inr (names.2 chunk (List.mem_of_find?_eq_some found)
        (by simpa using List.find?_some found))

section

variable (invariant : sieve.Invariant plan)

include invariant

/-- An event that changes only the channel and the progress of the own range. -/
theorem Invariant.setOwn (cluster : Cluster workers) (channel : DirectChannel) (ownInitial : Bool)
    (highWater : Fin (workers + 1) → Nat) (evolves : Evolves sieve.cluster.pool cluster.pool)
    (conserves : ∀ low high, sieve.cluster.ledger.Conserves low high →
      cluster.ledger.Conserves low high)
    (completed : ∀ unit ∈ cluster.ledger.completed,
      unit ∈ sieve.cluster.ledger.completed ∨ Covers sieve.known unit.start unit.count)
    (peers : cluster.peers = sieve.cluster.peers)
    (sound : ClusterLegs.Sound plan.toInitialRanges sieve.known highWater)
    (own : OwnSafe cluster.pool sieve.known (sieve.trims 0).start cluster.ownChunk
      ownInitial channel) :
    Invariant plan { sieve with
      cluster := cluster, channel := channel, ownInitial := ownInitial
      initialHighWater := highWater } :=
  invariant.carry evolves conserves (List.Subset.refl _) completed rfl sound
    (fun other _ => .inl ⟨congrFun peers other, rfl⟩) own invariant.deferred
    (List.Subset.refl _) rfl

theorem Invariant.ownBatchComplete (aValues : Nat)
    (dataFirst : sieve.DataFirst (.ownBatchComplete aValues)) :
    Invariant plan (sieve.ownBatchComplete aValues) := by
  rw [ClusterSieve.ownBatchComplete]
  split
  next sieving =>
    have room : ¬ sieve.channel.buffer.length = channelCapacity := (dataFirst sieving).ne
    refine invariant.setOwn sieve.cluster (sieve.channel.onBatchComplete aValues)
      sieve.ownInitial sieve.initialHighWater (.refl invariant.numbered) (fun _ _ => id)
      (fun _ => .inl) rfl invariant.highWater ?_
    refine { invariant.own with sieved := fun busy => ?_ }
    have pushed := (invariant.own.sieved busy).push aValues
    rw [DirectChannel.onBatchComplete, if_neg room, ← List.append_assoc]
    exact pushed
  next idle => exact invariant

theorem Invariant.ownInitialComplete (dataFirst : sieve.DataFirst .ownInitialComplete) :
    Invariant plan (sieve.ownInitialComplete plan) := by
  rw [ClusterSieve.ownInitialComplete]
  split
  next through =>
    have initial := (Bool.and_eq_true_iff.mp through).1
    have sieved := invariant.own.sieved (.inl initial)
    rw [dataFirst initial, List.append_nil, invariant.own.initial initial] at sieved
    exact invariant.setOwn sieve.cluster sieve.channel false _
      (.refl invariant.numbered) (fun _ _ => id) (fun _ => .inl) rfl
      (invariant.highWater.report invariant.trimmed sieved)
      { invariant.own with
        sieved := fun busy => invariant.own.sieved (.inr (busy.resolve_left Bool.false_ne_true))
        initial := fun initial => nomatch initial }
  next unbounded => exact invariant

theorem Invariant.selfAssign (ids : sieve.cluster.pool.nextChunkId < kInitialChunk) (size : Nat)
    (targetReached : Bool) : Invariant plan (sieve.selfAssign size targetReached) := by
  rw [ClusterSieve.selfAssign]
  split
  next sieving => exact invariant
  next idle =>
    simp only [ClusterSieve.ownSieving, Bool.or_eq_true, not_or, Bool.not_eq_true]
      at idle
    have none : sieve.cluster.ownChunk = none := Option.isSome_eq_false_iff.mp idle.2
      |> Option.isNone_iff_eq_none.mp
    have conserves : ∀ low high, sieve.cluster.ledger.Conserves low high →
        (sieve.cluster.selfAssign size targetReached).ledger.Conserves low high :=
      fun _ _ conserved => step_conserves conserved (.selfAssign size targetReached)
    rcases selfAssign_cases none ids size targetReached with
      ⟨completed, peers, ⟨own, pool⟩ | ⟨unit, own, inFlight, next⟩⟩
    · dsimp only
      rw [own]
      refine invariant.setOwn _ sieve.channel sieve.ownInitial sieve.initialHighWater
        (pool.symm ▸ .refl invariant.numbered) conserves
        (fun unit member => .inl (completed ▸ member)) peers invariant.highWater ?_
      have same := invariant.own
      rw [none] at same
      rw [own, pool]
      exact same
    · have evolves : Evolves sieve.cluster.pool
          (sieve.cluster.selfAssign size targetReached).pool :=
        .track invariant.numbered rfl inFlight next
      dsimp only
      rw [own]
      refine invariant.setOwn _ (sieve.channel.setRange unit.start) sieve.ownInitial
        sieve.initialHighWater evolves conserves
        (fun unit member => .inl (completed ▸ member)) peers invariant.highWater ?_
      rw [own]
      exact {
        sieved := fun _ => covers_zero _ _
        initial := fun initial => nomatch idle.1.symm.trans initial
        chunk := fun chunk same => by
          rw [← Option.some.inj same]
          exact ⟨rfl, names_track invariant.numbered inFlight next⟩ }

theorem Invariant.selfComplete (dataFirst : sieve.DataFirst .selfComplete) :
    Invariant plan sieve.selfComplete := by
  rw [ClusterSieve.selfComplete, Cluster.selfComplete]
  cases own : sieve.cluster.ownChunk with
  | none => exact invariant
  | some chunk =>
    have busy : sieve.cluster.ownChunk.isSome = true := by rw [own]; rfl
    have sieved := invariant.own.sieved (.inr busy)
    rw [dataFirst busy, List.append_nil] at sieved
    rcases invariant.own.chunk chunk own with ⟨start, names⟩
    rw [start] at sieved
    refine invariant.setOwn _ sieve.channel sieve.ownInitial sieve.initialHighWater
      (evolves_reclaimPartial invariant.numbered chunk.chunkId sieve.channel.rangeAConsumed)
      (fun _ _ conserved => Ledger.apply_conserves _ (.reclaimPartial chunk.chunkId
        sieve.channel.rangeAConsumed) conserved)
      (completed_reclaimPartial (names.imp fun unit same => ?_)) rfl
      invariant.highWater
      { invariant.own with
        sieved := fun initial => invariant.own.sieved
          (.inl (initial.resolve_right Bool.false_ne_true))
        chunk := by rintro next ⟨⟩ }
    rw [same]
    exact sieved.shorten (Nat.min_le_left _ _)

/-! ## Events of Thread A -/

theorem Invariant.pollChannel : Invariant plan sieve.pollChannel := by
  rw [ClusterSieve.pollChannel]
  split
  next payload rest polling buffer =>
    have subset : sieve.known ⊆
        (sieve.pooled ++ [payload]) ++ (sieve.deferredBatches ++ sieve.dropped) := by
      simp [known]
    refine invariant.carry (.refl invariant.numbered) (fun _ _ => id) subset
      (fun _ => .inl) rfl (invariant.highWater.mono subset)
      (fun _ _ => .inl ⟨rfl, rfl⟩) ?_ invariant.deferred (List.Subset.refl _) rfl
    refine { invariant.own with
      sieved := fun busy => (invariant.own.sieved busy).mono ?_
      chunk := invariant.own.chunk }
    rw [buffer]
    intro unit member
    simp only [known, List.mem_append, List.mem_cons, List.not_mem_nil, or_false]
      at member ⊢
    tauto
  next => exact invariant

theorem Invariant.setLoop {networkLoop : NetworkLoop}
    (deferred : networkLoop ≠ .draining → sieve.deferredBatches = []) :
    Invariant plan { sieve with networkLoop := networkLoop } :=
  invariant.carry (.refl invariant.numbered) (fun _ _ => id) (List.Subset.refl _)
    (fun _ => .inl) rfl invariant.highWater (fun _ _ => .inl ⟨rfl, rfl⟩) invariant.own
    deferred (List.Subset.refl _) rfl

theorem Invariant.endDrain : Invariant plan sieve.endDrain := by
  rw [ClusterSieve.endDrain]
  split
  next draining =>
    have subset : sieve.known ⊆
        (sieve.pooled ++ sieve.deferredBatches) ++ ([] ++ sieve.dropped) := by
      simp [known]
    exact invariant.carry (.refl invariant.numbered) (fun _ _ => id) subset
      (fun _ => .inl) rfl (invariant.highWater.mono subset) (fun _ _ => .inl ⟨rfl, rfl⟩)
      (invariant.own.carry (.refl invariant.numbered) subset) (fun _ => rfl)
      (List.Subset.refl _) rfl
  next => exact invariant

theorem Invariant.settle (cluster : Cluster workers)
    (evolves : Evolves sieve.cluster.pool cluster.pool)
    (conserves : ∀ low high, sieve.cluster.ledger.Conserves low high →
      cluster.ledger.Conserves low high)
    (completed : ∀ unit ∈ cluster.ledger.completed,
      unit ∈ sieve.cluster.ledger.completed ∨ Covers sieve.known unit.start unit.count)
    (same : cluster.ownChunk = sieve.cluster.ownChunk ∧ cluster.peers = sieve.cluster.peers)
    (peer : Peer)
    (safe : peer.alive = true → WorkerSafe cluster.pool sieve.known
      (sieve.trims worker.succ).start peer (sieve.taps worker)) :
    Invariant plan { sieve with cluster := cluster.setPeer worker peer } := by
  have updated := invariant.update cluster evolves conserves (List.Subset.refl _) completed
    same peer (sieve.taps worker) invariant.highWater safe
  rw [setTap_taps] at updated
  exact updated

theorem Invariant.assignChunkTo (alive : (sieve.cluster.peers worker).alive = true)
    (ids : sieve.cluster.pool.nextChunkId < kInitialChunk) (dispatch : Dispatch) :
    Invariant plan { sieve with
      cluster := sieve.cluster.assignChunkTo worker dispatch } := by
  have conserves : ∀ low high, sieve.cluster.ledger.Conserves low high →
      (sieve.cluster.assignChunkTo worker dispatch).ledger.Conserves low high :=
    fun _ _ conserved => assignChunkTo_conserves conserved worker dispatch
  have safe := invariant.worker worker alive
  rcases assignChunkTo_cases invariant.numbered ids worker dispatch with
    ⟨ledger, completed, ⟨result, inFlight, next⟩ | ⟨unit, idle, result, inFlight, next⟩⟩
  · rw [result] at conserves ⊢
    have evolves : Evolves sieve.cluster.pool ledger.pool := {
      numbered := {
        distinct := inFlight.symm ▸ invariant.numbered.distinct
        below := fun chunk member =>
          (invariant.numbered.below chunk (inFlight ▸ member)).trans_le next }
      next := next
      inFlight := fun chunk member => .inl (inFlight ▸ member) }
    have updated := invariant.settle { sieve.cluster with ledger := ledger } evolves
      conserves (fun unit member => .inl (completed ▸ member)) ⟨rfl, rfl⟩
      (sieve.cluster.peers worker) fun _ => safe.carry evolves (List.Subset.refl _)
    rw [show sieve.cluster.peers worker =
      ({ sieve.cluster with ledger := ledger } : Cluster workers).peers worker from rfl,
      setPeer_peers] at updated
    exact updated
  · rw [result] at conserves ⊢
    have evolves : Evolves sieve.cluster.pool ledger.pool :=
      .track invariant.numbered rfl inFlight next
    exact invariant.settle { sieve.cluster with ledger := ledger } evolves
      conserves (fun unit member => .inl (completed ▸ member)) ⟨rfl, rfl⟩ _
      fun _ => safe.assigned evolves idle ids (names_track invariant.numbered inFlight next)

end

variable {rest : List WireFrame}

section

variable (invariant : sieve.Invariant plan)

include invariant

theorem Invariant.receiveBatch {relations : List WorkUnit}
    (draining : sieve.networkLoop = .draining)
    (wire : (sieve.taps worker).wire = .incrementalBatch relations :: rest) :
    Invariant plan { sieve.setTap worker { sieve.taps worker with wire := rest } with
      deferredBatches := sieve.deferredBatches ++ relations } := by
  have received : sieve.known ++ relations ⊆
      sieve.pooled ++ ((sieve.deferredBatches ++ relations) ++ sieve.dropped) := by
    intro unit member
    simp only [known, List.mem_append] at member ⊢
    tauto
  have subset := List.Subset.trans (List.subset_append_left sieve.known relations) received
  refine invariant.carry (.refl invariant.numbered) (fun _ _ => id) subset
    (fun _ => .inl) rfl (invariant.highWater.mono subset) ?_
    (invariant.own.carry (.refl invariant.numbered) subset)
    (fun stopped => absurd draining stopped) (List.Subset.refl _) rfl
  intro other alive
  by_cases same : other = worker
  · subst same
    have safe := (invariant.worker other alive).receiveBatch invariant.numbered wire received
    simp only [ClusterSieve.setTap, Function.update_self]
    exact .inr safe
  · exact .inl ⟨rfl, Function.update_of_ne same _ _⟩

/-- The promise of a completion at the head is kept: what it adds to the books is
known. -/
theorem Invariant.chunkComplete (alive : (sieve.cluster.peers worker).alive = true)
    (wire : (sieve.taps worker).wire = .report :: rest) {chunkId consumed : Nat}
    {reports : List ReportFrame}
    (frames : (sieve.cluster.peers worker).toCoordinator =
      .chunkComplete chunkId consumed :: reports) :
    Invariant plan { sieve.setTap worker { sieve.taps worker with wire := rest } with
      cluster := sieve.cluster.chunkComplete worker chunkId consumed reports
      initialHighWater := sieve.highWaterAfter plan worker } := by
  have safe := invariant.worker worker alive
  rcases safe.front wire with ⟨report, others, headed, promise, later⟩
  rw [frames, List.cons.injEq] at headed
  rcases headed with ⟨rfl, rfl⟩
  have handled := safe.handled wire frames later
  have highWater : sieve.highWaterAfter plan worker =
      if (sieve.cluster.peers worker).currentChunkId = kInitialChunk then
        Function.update sieve.initialHighWater worker.succ
          (ClusterLegs.reportedHighWater plan.toInitialRanges sieve.trims worker.succ consumed)
      else sieve.initialHighWater := by
    rw [highWaterAfter, frames]
  rw [highWater, Cluster.chunkComplete]
  dsimp only
  by_cases initial : (sieve.cluster.peers worker).currentChunkId = kInitialChunk
  · have untracked : (sieve.cluster.peers worker).Untracked := .inr initial
    rw [if_pos initial, if_neg fun tracked => tracked.2 untracked]
    rw [decide_eq_true initial] at promise
    exact invariant.update sieve.cluster (.refl invariant.numbered) (fun _ _ => id)
      (List.Subset.refl _) (fun _ => .inl) ⟨rfl, rfl⟩ _ _
      (invariant.highWater.report invariant.trimmed promise) fun _ => handled
  · rw [if_neg initial]
    rw [decide_eq_false initial] at promise
    have names : sieve.cluster.pool.Names chunkId fun unit =>
        Covers sieve.known unit.start (min consumed unit.count) := promise
    split
    next tracked =>
      have evolves := evolves_reclaimPartial invariant.numbered chunkId consumed
      exact invariant.update (sieve.cluster.apply (.reclaimPartial chunkId consumed))
        evolves (fun _ _ => Ledger.apply_conserves _ (.reclaimPartial chunkId consumed))
        (List.Subset.refl _) (completed_reclaimPartial names) ⟨rfl, rfl⟩ _ _
        invariant.highWater fun _ => handled.carry evolves (List.Subset.refl _)
    next untracked =>
      exact invariant.update sieve.cluster (.refl invariant.numbered) (fun _ _ => id)
        (List.Subset.refl _) (fun _ => .inl) ⟨rfl, rfl⟩ _ _ invariant.highWater
        fun _ => handled

theorem Invariant.chunkRequest (alive : (sieve.cluster.peers worker).alive = true)
    (wire : (sieve.taps worker).wire = .report :: rest) {reports : List ReportFrame}
    (frames : (sieve.cluster.peers worker).toCoordinator = .chunkRequest :: reports) :
    Invariant plan { sieve.setTap worker { sieve.taps worker with wire := rest } with
      cluster := sieve.cluster.chunkRequest worker reports
      initialHighWater := sieve.highWaterAfter plan worker } := by
  have safe := invariant.worker worker alive
  rcases safe.front wire with ⟨report, others, headed, promise, later⟩
  rw [frames, List.cons.injEq] at headed
  rcases headed with ⟨rfl, rfl⟩
  have handled := safe.handled wire frames later
  have highWater : sieve.highWaterAfter plan worker = sieve.initialHighWater := by
    rw [highWaterAfter, frames]
  rw [highWater, Cluster.chunkRequest]
  dsimp only
  split
  next tracked =>
    have evolves := evolves_returnChunk invariant.numbered
      (sieve.cluster.peers worker).currentChunkId
    exact invariant.update (sieve.cluster.apply
      (.returnChunk (sieve.cluster.peers worker).currentChunkId)) evolves
      (fun _ _ => Ledger.apply_conserves _ (.returnChunk _)) (List.Subset.refl _)
      (fun _ => .inl) ⟨rfl, rfl⟩ _ _ invariant.highWater
      fun _ => handled.carry evolves (List.Subset.refl _)
  next untracked =>
    exact invariant.update sieve.cluster (.refl invariant.numbered) (fun _ _ => id)
      (List.Subset.refl _) (fun _ => .inl) ⟨rfl, rfl⟩ _ _ invariant.highWater
      fun _ => handled

theorem Invariant.receive (worker : Fin workers)
    (ids : sieve.cluster.pool.nextChunkId < kInitialChunk) (dispatch : Dispatch) :
    Invariant plan (sieve.receive plan worker dispatch) := by
  rw [ClusterSieve.receive]
  split
  next enabled =>
    rcases enabled with ⟨draining, alive⟩
    split
    next => exact invariant
    next relations rest wire => exact invariant.receiveBatch draining wire
    next rest wire =>
      rcases (invariant.worker worker alive).front wire with ⟨report, reports, frames, _⟩
      rw [Cluster.receive, if_pos alive]
      cases report with
      | chunkComplete chunkId consumed =>
        have completed := invariant.chunkComplete alive wire frames
        rw [frames]
        apply completed.assignChunkTo
        · rw [Cluster.chunkComplete, peers_setPeer]
          exact alive
        · rw [Cluster.chunkComplete]
          split
          · exact (reclaimPartial_inFlight _ chunkId consumed).2.symm ▸ ids
          · exact ids
      | chunkRequest =>
        have requested := invariant.chunkRequest alive wire frames
        rw [frames]
        apply requested.assignChunkTo
        · rw [Cluster.chunkRequest, peers_setPeer]
          exact alive
        · rw [Cluster.chunkRequest]
          split
          · exact (returnChunk_inFlight _ _).2.symm ▸ ids
          · exact ids
  next => exact invariant

theorem Invariant.heartbeatTimeout (worker : Fin workers) :
    Invariant plan { sieve with
      cluster := sieve.cluster.heartbeatTimeout worker } := by
  rw [Cluster.heartbeatTimeout]
  dsimp only
  split
  next alive =>
    split
    next tracked =>
      exact invariant.settle (sieve.cluster.apply (.reclaimWork (nodeId worker)))
        (evolves_reclaimWork invariant.numbered _)
        (fun _ _ => Ledger.apply_conserves _ (.reclaimWork _)) (fun _ => .inl) ⟨rfl, rfl⟩ _
        (by rintro ⟨⟩)
    next untracked =>
      exact invariant.settle sieve.cluster (.refl invariant.numbered) (fun _ _ => id)
        (fun _ => .inl) ⟨rfl, rfl⟩ _ (by rintro ⟨⟩)
  next dead => exact invariant

/-! ## Checkpoints and legs -/

theorem Invariant.safe (settled : sieve.networkLoop = .settled) :
    (sieve.writeClusterCheckpoint plan).Safe plan sieve.dropped := by
  have known : sieve.known = sieve.pooled ++ sieve.dropped := by
    rw [ClusterSieve.known, invariant.deferred (by rw [settled]; exact nofun),
      List.nil_append]
  rcases invariant.resumed with ⟨cursor, high, conserves, resumed⟩
  refine ⟨?_, ?_⟩
  · change Covers (sieve.pooled ++ sieve.dropped) _ _
    rw [← known]
    intro index above below
    rcases Nat.lt_or_ge index cursor with before | behind
    · exact resumed index above (by omega)
    · have prefixed : index < sieve.cluster.ledger.pool.completedPrefixCursor := by
        change index < plan.overflowStart +
          (sieve.cluster.ledger.pool.completedPrefixCursor - plan.overflowStart) at below
        omega
      rcases conserves.completed_below_cursor behind prefixed with
        ⟨unit, member, contains⟩
      exact invariant.completed unit member index contains.1 contains.2
  · have recorded := invariant.highWater.recorded
    rw [known] at recorded
    exact recorded

end

/-- A leg may start behind whatever the saved relations cover. -/
theorem invariant_startLeg (plan : ClusterPlan workers) {cursor : Nat}
    {trims : Fin (workers + 1) → ResumeTrim} {pooled dropped : List WorkUnit}
    {checkpoints : List (ClusterCheckpoint workers)}
    (resumed : Covers (pooled ++ dropped) plan.overflowStart (cursor - plan.overflowStart))
    (trimmed : ClusterLegs.Trimmed plan.toInitialRanges (pooled ++ dropped) trims)
    (safe : ∀ checkpoint ∈ checkpoints, checkpoint.Safe plan dropped) :
    Invariant plan (startLeg plan cursor trims pooled dropped checkpoints) where
  numbered := ⟨List.nodup_nil, nofun⟩
  resumed := ⟨cursor, _, Ledger.start_conserves ⟨rfl, rfl⟩ rfl
    (Nat.mod_lt _ (Nat.two_pow_pos 64)), resumed⟩
  completed := nofun
  trimmed := trimmed
  highWater node := ⟨Nat.le.intro (trimmed node).2.1, (trimmed node).2.2⟩
  worker _ _ := WorkerSafe.of_start _ _ _
  own := {
    sieved := fun _ => covers_zero _ _
    initial := fun _ => rfl
    chunk := nofun }
  deferred _ := rfl
  checkpoints := safe

theorem invariant_freshLeg (plan : ClusterPlan workers)
    {checkpoints : List (ClusterCheckpoint workers)}
    (safe : ∀ checkpoint ∈ checkpoints, checkpoint.Safe plan dropped) :
    Invariant plan (freshLeg plan dropped checkpoints) := by
  apply invariant_startLeg plan _ (ClusterLegs.trimmed_freshTrims _ _) safe
  rw [Nat.sub_self]
  exact covers_zero _ _

theorem Invariant.killAndResume (invariant : sieve.Invariant plan) (checkpoint : Nat) :
    Invariant plan (sieve.killAndResume plan checkpoint) := by
  rw [ClusterSieve.killAndResume]
  split
  next saved loaded =>
    split
    next accepted =>
      have safe := invariant.checkpoints saved (List.mem_of_getElem? loaded)
      exact invariant_startLeg plan safe.1 safe.2.trimmed invariant.checkpoints
    next rejected => exact invariant_freshLeg plan invariant.checkpoints
  next absent => exact invariant_freshLeg plan invariant.checkpoints

theorem Invariant.step (invariant : sieve.Invariant plan) {event : Event workers}
    (ids : sieve.HasChunkIds event) (dataFirst : sieve.DataFirst event) :
    Invariant plan (sieve.step plan event) := by
  cases event with
  | onBatchComplete worker aValues => exact invariant.onBatchComplete worker aValues
  | workerCompletes worker => exact invariant.workerCompletes worker dataFirst
  | sendChunkRequest worker => exact invariant.sendChunkRequest worker
  | tryTakeChunkAssign worker => exact invariant.tryTakeChunkAssign worker
  | popBatch worker count =>
    exact invariant.setTap _ (List.Subset.refl _)
      fun alive => (invariant.worker worker alive).popBatch count
  | sendBatch worker =>
    exact invariant.setTap _ (List.Subset.refl _)
      fun alive => (invariant.worker worker alive).sendBatch
  | ioThreadReceive worker =>
    refine invariant.setPeer _ fun alive => ?_
    rw [Peer.alive_ioThreadReceive] at alive
    exact (invariant.worker worker alive).ioThreadReceive
  | ownBatchComplete aValues => exact invariant.ownBatchComplete aValues dataFirst
  | ownInitialComplete => exact invariant.ownInitialComplete dataFirst
  | selfAssign size targetReached => exact invariant.selfAssign ids size targetReached
  | selfComplete => exact invariant.selfComplete dataFirst
  | pollChannel => exact invariant.pollChannel
  | beginDrain =>
    rw [ClusterSieve.step, beginDrain]
    split
    · exact invariant.setLoop fun stopped => absurd rfl stopped
    · exact invariant
  | receive worker dispatch => exact invariant.receive worker ids dispatch
  | checkStraggler worker chunkId =>
    rw [ClusterSieve.step]
    split
    · exact invariant.setPeer _
        fun alive => (invariant.worker worker alive).checkStraggler chunkId
    · exact invariant
  | endDrain => exact invariant.endDrain
  | heartbeatTimeout worker =>
    rw [ClusterSieve.step]
    split
    · exact invariant.heartbeatTimeout worker
    · exact invariant
  | idleSweep worker dispatch =>
    rw [ClusterSieve.step, Cluster.idleSweep]
    split
    · split
      next alive => exact invariant.assignChunkTo alive ids dispatch
      next dead => exact invariant
    · exact invariant
  | writeCheckpoint =>
    rw [ClusterSieve.step]
    split
    next settled =>
      refine { invariant with checkpoints := fun checkpoint member => ?_ }
      rcases List.mem_append.mp member with earlier | written
      · exact invariant.checkpoints checkpoint earlier
      · rw [List.mem_singleton.mp written]
        exact invariant.safe settled
    next => exact invariant
  | nextPass =>
    rw [ClusterSieve.step]
    split
    next settled =>
      have drained : sieve.networkLoop ≠ .draining := by
        rw [settled]
        rintro ⟨⟩
      exact invariant.setLoop fun _ => invariant.deferred drained
    next => exact invariant
  | killAndResume checkpoint => exact invariant.killAndResume checkpoint

end ClusterSieve

end CudaMpqs
