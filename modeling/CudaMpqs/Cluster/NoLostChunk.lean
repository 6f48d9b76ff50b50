import CudaMpqs.Cluster.ChunkSafety

/-! # No chunk is lost

The chunk that was assigned to a peer last is never overwritten on its way, so
the coordinator loses sight of a chunk only where it clears its tracker for the
completion of another one. -/

namespace CudaMpqs

open WorkPool

namespace Peer

/-- The chunk is held by the worker, in its pending slot, or named by a frame on
the way. -/
def Locates (peer : Peer) (chunk : CheckedOutWork) : Prop :=
  peer.loop = .chunk ⟨chunk.chunkId, chunk.unit⟩ ∨
    peer.pendingAssign = some ⟨chunk.chunkId, chunk.unit⟩ ∨
    ControlFrame.chunkAssign ⟨chunk.chunkId, chunk.unit⟩ ∈ peer.toWorker ∨
    ∃ consumed, ReportFrame.chunkComplete chunk.chunkId consumed ∈ peer.toCoordinator

def NamesTracked (peer : Peer) : List ReportFrame → Prop
  | .chunkComplete chunkId _ :: _ =>
    peer.alive = true → ¬ peer.Untracked → peer.currentChunkId = chunkId
  | _ => True

instance (peer : Peer) : DecidablePred peer.NamesTracked
  | .chunkComplete .. :: _ => inferInstanceAs (Decidable (_ → _ → _))
  | .chunkRequest :: _ => isTrue trivial
  | [] => isTrue trivial

def CompletesTracked (peer : Peer) : Prop :=
  peer.NamesTracked peer.toCoordinator

instance : DecidablePred CompletesTracked := fun peer =>
  inferInstanceAs (Decidable (peer.NamesTracked peer.toCoordinator))

/-- The reports of overflow chunks. The first report of a peer is about its
initial range. -/
def overflowReports (peer : Peer) : List ReportFrame :=
  if peer.currentChunkId = kInitialChunk then peer.toCoordinator.tail
  else peer.toCoordinator

theorem overflowReports_subset (peer : Peer) : peer.overflowReports ⊆ peer.toCoordinator := by
  rw [overflowReports]
  split
  · exact List.tail_subset _
  · exact List.Subset.refl _

variable {peer : Peer}

theorem overflowReports_of_tracked (tracked : ¬ peer.Untracked) :
    peer.overflowReports = peer.toCoordinator :=
  if_neg fun initial => tracked (Or.inr initial)

structure Reaches (held : List CheckedOutWork) (next : Nat) (sieved : List WorkUnit)
    (peer : Peer) : Prop where
  located : ∀ chunk ∈ held,
    (∃ consumed, .chunkComplete chunk.chunkId consumed ∈ peer.toCoordinator) ∨
      peer.mailbox.contents.getLast? = some ⟨chunk.chunkId, chunk.unit⟩
  assigns : ∀ assign ∈ peer.mailbox.contents, assign.chunkId < next ∧
    ∀ chunk ∈ held, assign.chunkId = chunk.chunkId → assign.polyRange = chunk.unit
  reports : ∀ chunkId consumed,
    .chunkComplete chunkId consumed ∈ peer.overflowReports → chunkId < next ∧
      ∀ chunk ∈ held, chunkId = chunk.chunkId → consumedPart chunk.unit consumed ∈ sieved
  label : ∀ assign, peer.loop = .chunk assign → peer.tapChunkId = assign.chunkId
  initial : peer.loop = .initialRange →
    peer.currentChunkId = kInitialChunk ∧ held = [] ∧ peer.toCoordinator = []

def KeepsReach : PeerRelation := fun held next sieved peer =>
  peer.alive = true → Reaches held next sieved peer

variable {held : List CheckedOutWork} {next : Nat} {sieved : List WorkUnit}

theorem Reaches.locates (reaches : Reaches held next sieved peer) {chunk : CheckedOutWork}
    (member : chunk ∈ held) : peer.Locates chunk := by
  rcases reaches.located chunk member with completed | last
  · exact Or.inr (Or.inr (Or.inr completed))
  · have inside := List.mem_of_getLast? last
    simp only [Mailbox.contents, List.mem_append, Option.mem_toList] at inside
    rcases inside with (taken | slot) | channel
    · apply Or.inl
      cases loop : peer.loop with
      | chunk assign =>
        simp only [mailbox, loop, Option.some.injEq] at taken
        rw [taken]
      | initialRange => simp [mailbox, loop] at taken
      | waiting => simp [mailbox, loop] at taken
    · exact Or.inr (Or.inl slot)
    · apply Or.inr (Or.inr (Or.inl _))
      simp only [mailbox, List.mem_filterMap] at channel
      rcases channel with ⟨frame, frameMember, same⟩
      cases frame with
      | chunkAssign assign =>
        rw [← Option.some.inj same]
        exact frameMember
      | chunkRecall chunkId => cases same

theorem Reaches.handled (reaches : Reaches held next sieved peer) {frame : ReportFrame}
    {rest : List ReportFrame} (frames : peer.toCoordinator = frame :: rest) :
    Reaches [] next sieved { peer with currentChunkId := idleChunk, toCoordinator := rest } where
  located := nofun
  assigns := fun assign member => ⟨(reaches.assigns assign member).1, nofun⟩
  reports := by
    intro chunkId consumed member
    refine ⟨(reaches.reports chunkId consumed ?_).1, nofun⟩
    rw [overflowReports, frames]
    split
    · exact member
    · exact List.mem_cons_of_mem _ member
  label := reaches.label
  initial := by
    intro loop
    have empty := (reaches.initial loop).2.2
    rw [frames] at empty
    cases empty

theorem Reaches.assigned (reaches : Reaches [] next sieved peer)
    (idle : peer.currentChunkId = idleChunk) (unit : WorkUnit) (node : Nat) :
    Reaches [⟨next, unit, node⟩] (next + 1) sieved
      { peer with
        currentChunkId := next
        toWorker := peer.toWorker ++ [.chunkAssign ⟨next, unit⟩] } := by
  have contents : Mailbox.contents (mailbox { peer with
      currentChunkId := next
      toWorker := peer.toWorker ++ [.chunkAssign ⟨next, unit⟩] }) =
      peer.mailbox.contents ++ [⟨next, unit⟩] := by
    simp [mailbox, Mailbox.contents, ControlFrame.assign?]
  constructor
  · intro chunk member
    rw [List.mem_singleton.mp member, contents]
    exact Or.inr (List.getLast?_concat)
  · intro assign member
    rw [contents] at member
    rcases List.mem_append.mp member with old | new
    · have below := (reaches.assigns assign old).1
      refine ⟨below.trans (Nat.lt_succ_self _), fun chunk same named => ?_⟩
      rw [List.mem_singleton.mp same] at named
      exact absurd named below.ne
    · rw [List.mem_singleton.mp new]
      refine ⟨Nat.lt_succ_self _, fun chunk same _ => ?_⟩
      rw [List.mem_singleton.mp same]
  · intro chunkId consumed member
    have inside : ReportFrame.chunkComplete chunkId consumed ∈ peer.overflowReports := by
      have frame := overflowReports_subset _ member
      rw [overflowReports, if_neg (idle ▸ by decide)]
      exact frame
    have below := (reaches.reports chunkId consumed inside).1
    refine ⟨below.trans (Nat.lt_succ_self _), fun chunk same named => ?_⟩
    rw [List.mem_singleton.mp same] at named
    exact absurd named below.ne
  · exact reaches.label
  · intro loop
    exact absurd (idle.symm.trans (reaches.initial loop).1) (by decide)

theorem mem_overflowReports_append {peer after : Peer} {frame report : ReportFrame}
    (same : after.currentChunkId = peer.currentChunkId)
    (frames : after.toCoordinator = peer.toCoordinator ++ [frame])
    (member : report ∈ after.overflowReports) :
    report ∈ peer.overflowReports ∨ report = frame := by
  rw [← List.mem_singleton, ← List.mem_append]
  rw [overflowReports, same, frames] at member
  rw [overflowReports]
  split at member
  next initial =>
    rw [if_pos initial]
    cases old : peer.toCoordinator with
    | nil => simp [old] at member
    | cons head tail =>
      rw [old] at member
      exact member
  next later =>
    rw [if_neg later]
    exact member

theorem Reaches.of_mailbox {peer after : Peer} (reaches : Reaches held next sieved peer)
    (current : after.currentChunkId = peer.currentChunkId)
    (frames : after.toCoordinator = peer.toCoordinator)
    (subset : after.mailbox.contents ⊆ peer.mailbox.contents)
    (last : after.mailbox.contents.getLast? = peer.mailbox.contents.getLast?)
    (label : ∀ assign, after.loop = .chunk assign → after.tapChunkId = assign.chunkId)
    (initial : after.loop = .initialRange → peer.loop = .initialRange) :
    Reaches held next sieved after where
  located := by
    rw [frames, last]
    exact reaches.located
  assigns := fun assign member => reaches.assigns assign (subset member)
  reports := by
    rw [overflowReports, current, frames]
    exact reaches.reports
  label := label
  initial := by
    rw [current, frames]
    exact fun loop => reaches.initial (initial loop)

theorem Reaches.received (reaches : Reaches held next sieved peer) :
    Reaches held next sieved peer.ioThreadReceive := by
  have same : peer.ioThreadReceive.currentChunkId = peer.currentChunkId ∧
      peer.ioThreadReceive.toCoordinator = peer.toCoordinator ∧
      peer.ioThreadReceive.loop = peer.loop ∧
      peer.ioThreadReceive.tapChunkId = peer.tapChunkId := by
    rw [ioThreadReceive]
    split <;> exact ⟨rfl, rfl, rfl, rfl⟩
  have label : ∀ assign, peer.ioThreadReceive.loop = .chunk assign →
      peer.ioThreadReceive.tapChunkId = assign.chunkId := by
    rw [same.2.2.1, same.2.2.2]
    exact reaches.label
  rcases mailbox_ioThreadReceive peer with delivered | unchanged
  · apply reaches.of_mailbox same.1 same.2.1 _ _ label fun loop => same.2.2.1 ▸ loop
    · rw [delivered]
      exact (Mailbox.contents_deliver_sublist _).subset
    · rw [delivered]
      exact Mailbox.getLast?_deliver _
  · exact reaches.of_mailbox same.1 same.2.1 (unchanged ▸ List.Subset.refl _)
      (unchanged ▸ rfl) label fun loop => same.2.2.1 ▸ loop

theorem Reaches.taken (reaches : Reaches held next sieved peer) :
    Reaches held next sieved peer.tryTakeChunkAssign := by
  have contents := contents_tryTakeChunkAssign peer
  have same : peer.tryTakeChunkAssign.currentChunkId = peer.currentChunkId ∧
      peer.tryTakeChunkAssign.toCoordinator = peer.toCoordinator ∧
      (∀ assign, peer.tryTakeChunkAssign.loop = .chunk assign →
        peer.tryTakeChunkAssign.tapChunkId = assign.chunkId) ∧
      (peer.tryTakeChunkAssign.loop = .initialRange → peer.loop = .initialRange) := by
    rw [tryTakeChunkAssign]
    split
    next assign waiting pending =>
      refine ⟨rfl, rfl, ?_, ?_⟩
      · rintro other ⟨rfl⟩
        rfl
      · rintro ⟨⟩
    next => exact ⟨rfl, rfl, reaches.label, id⟩
  exact reaches.of_mailbox same.1 same.2.1 (contents ▸ List.Subset.refl _) (contents ▸ rfl)
    same.2.2.1 same.2.2.2

/-- A completed chunk is on its way back, and what it reports was sieved. -/
theorem Reaches.reported (reaches : Reaches held next sieved peer) (consumed : Nat) :
    Reaches held next (sieved ++ (peer.consumedUnit consumed).toList)
      (peer.sendChunkComplete consumed) := by
  have box := mailbox_sendChunkComplete peer consumed
  have inside : (peer.sendChunkComplete consumed).mailbox.contents ⊆
      peer.mailbox.contents := by
    rw [box, Mailbox.contents_finish peer.mailbox]
    exact List.subset_append_right _ _
  cases loop : peer.loop with
  | waiting =>
    have same : peer.sendChunkComplete consumed = peer := by
      simp [sendChunkComplete, loop]
    have none : peer.consumedUnit consumed = none := by simp [consumedUnit, loop]
    rw [same, none, Option.toList_none, List.append_nil]
    exact reaches
  | initialRange =>
    rcases reaches.initial loop with ⟨initial, empty, quiet⟩
    have after : (peer.sendChunkComplete consumed).overflowReports = [] := by
      simp [sendChunkComplete, loop, overflowReports, initial, quiet]
    constructor
    · rw [empty]
      rintro chunk ⟨⟩
    · exact fun assign member => reaches.assigns assign (inside member)
    · rw [after]
      rintro chunkId reported ⟨⟩
    · simp [sendChunkComplete, loop]
    · simp [sendChunkComplete, loop]
  | chunk assign =>
    have current : (peer.sendChunkComplete consumed).currentChunkId =
        peer.currentChunkId := by simp [sendChunkComplete, loop]
    have frames : (peer.sendChunkComplete consumed).toCoordinator =
        peer.toCoordinator ++ [.chunkComplete assign.chunkId consumed] := by
      simp [sendChunkComplete, loop, reaches.label assign loop]
    have unit : peer.consumedUnit consumed =
        some (consumedPart assign.polyRange consumed) := by simp [consumedUnit, loop]
    have taken : peer.mailbox.taken = some assign := by simp [mailbox, loop]
    have mine := reaches.assigns assign (by simp [Mailbox.contents, taken])
    rw [unit, Option.toList_some]
    constructor
    · intro chunk member
      rw [frames, box]
      rcases reaches.located chunk member with ⟨before, completed⟩ | last
      · exact Or.inl ⟨before, List.mem_append_left _ completed⟩
      · rcases Mailbox.getLast?_finish last with held | rest
        · rw [taken] at held
          apply Or.inl
          refine ⟨consumed, List.mem_append_right _ ?_⟩
          rw [Option.some.inj held]
          exact List.mem_singleton_self _
        · exact Or.inr rest
    · exact fun other member => reaches.assigns other (inside member)
    · intro chunkId reportedConsumed member
      rcases mem_overflowReports_append current frames member with old | new
      · refine ⟨(reaches.reports _ _ old).1, fun chunk holds named => ?_⟩
        exact List.mem_append_left _ ((reaches.reports _ _ old).2 chunk holds named)
      · injection new with sameId sameConsumed
        subst sameId sameConsumed
        refine ⟨mine.1, fun chunk holds named => ?_⟩
        rw [mine.2 chunk holds named]
        exact List.mem_append_right _ (List.mem_singleton_self _)
    · simp [sendChunkComplete, loop]
    · simp [sendChunkComplete, loop]

theorem Reaches.requested (reaches : Reaches held next sieved peer) :
    Reaches held next sieved peer.sendChunkRequest := by
  rw [sendChunkRequest]
  split
  next waiting =>
    constructor
    · intro chunk member
      rcases reaches.located chunk member with ⟨consumed, completed⟩ | last
      · exact Or.inl ⟨consumed, List.mem_append_left _ completed⟩
      · exact Or.inr last
    · exact reaches.assigns
    · intro chunkId consumed member
      rcases @mem_overflowReports_append peer
        { peer with toCoordinator := peer.toCoordinator ++ [.chunkRequest] } _ _ rfl rfl
        member with old | new
      · exact reaches.reports chunkId consumed old
      · cases new
    · exact reaches.label
    · intro loop
      cases waiting.symm.trans loop
  next => exact reaches

theorem keepsReach_preserved : Preserved CompletesTracked KeepsReach where
  start := fun _ => ⟨nofun, nofun, nofun, nofun, fun _ => ⟨rfl, rfl, rfl⟩⟩
  weaken := by
    intro held next next' sieved sieved' peer later grows keeps alive
    have reaches := keeps alive
    refine ⟨reaches.located, ?_, ?_, reaches.label, reaches.initial⟩
    · exact fun assign member => ⟨(reaches.assigns assign member).1.trans_le later,
        (reaches.assigns assign member).2⟩
    · intro chunkId consumed member
      have report := reaches.reports chunkId consumed member
      exact ⟨report.1.trans_le later, fun chunk holds named =>
        grows (report.2 chunk holds named)⟩
  assigned := fun unit node keeps alive idle _ => (keeps alive).assigned idle unit node
  completed := by
    intro held next sieved peer chunkId consumed rest keeps tracks guarded alive frames
      tracked
    have same : peer.currentChunkId = chunkId := by
      rw [CompletesTracked, frames] at guarded
      exact guarded alive tracked
    refine ⟨same, fun chunk member => ?_⟩
    have report := (keeps alive).reports chunkId consumed (by
      rw [overflowReports_of_tracked tracked, frames]
      exact List.mem_cons_self)
    rcases tracks.tracked tracked with ⟨only, holds, named⟩
    apply report.2 chunk member
    rw [holds, List.mem_singleton] at member
    rw [member, named, same]
  handled := fun keeps _ _ alive frames _ => (keeps alive).handled frames
  timedOut := fun _ dead => nomatch dead
  recalled := by
    intro held next sieved peer chunkId keeps alive
    have same : Peer.mailbox { peer with
        toWorker := peer.toWorker ++ [.chunkRecall chunkId] } = peer.mailbox := by
      simp [mailbox, ControlFrame.assign?, List.filterMap_cons]
    exact (keeps alive).of_mailbox rfl rfl (same ▸ List.Subset.refl _) (same ▸ rfl)
      (keeps alive).label id
  received := by
    intro held next sieved peer keeps alive
    rw [alive_ioThreadReceive] at alive
    exact (keeps alive).received
  taken := by
    intro held next sieved peer keeps alive
    rw [alive_tryTakeChunkAssign] at alive
    exact (keeps alive).taken
  reported := by
    intro held next sieved peer consumed keeps alive
    rw [alive_sendChunkComplete] at alive
    exact (keeps alive).reported consumed
  requested := by
    intro held next sieved peer keeps alive
    rw [alive_sendChunkRequest] at alive
    exact (keeps alive).requested

end Peer

namespace Cluster

variable {workers : Nat}

def KeepsChunks (self : Cluster workers) : Prop :=
  ∀ worker, (self.peers worker).alive = true →
    ∀ chunk ∈ self.pool.inFlightChunks, chunk.workerId = nodeId worker →
      chunk.chunkId = (self.peers worker).currentChunkId ∧ (self.peers worker).Locates chunk

/-- What was taken from the pool is completed and sieved, returned, or in flight
for the coordinator or a live worker who can still complete it. -/
def AccountsFor (self : Cluster workers) (index : Nat) : Prop :=
  (∃ unit ∈ self.ledger.completed, unit.Contains index ∧ unit ∈ self.sieved) ∨
    (∃ unit ∈ self.pool.returned, unit.Contains index) ∨
    ∃ chunk ∈ self.pool.inFlightChunks, chunk.unit.Contains index ∧
      (self.ownChunk = some chunk ∨ ∃ worker : Fin workers,
        chunk.workerId = nodeId worker ∧ (self.peers worker).alive = true ∧
          (self.peers worker).Locates chunk)

variable {self : Cluster workers}

theorem Invariant.keepsChunks (invariant : self.Invariant Peer.KeepsReach) : self.KeepsChunks := by
  intro worker alive chunk member owned
  have holds : chunk ∈ self.pool.heldBy (nodeId worker) := mem_heldBy.mpr ⟨member, owned⟩
  have tracks := invariant.tracks worker
  refine ⟨?_, (invariant.related worker alive).locates holds⟩
  by_cases untracked : (self.peers worker).Untracked
  · rw [tracks.untracked untracked] at holds
    cases holds
  · rcases tracks.tracked untracked with ⟨only, held, named⟩
    rw [held, List.mem_singleton] at holds
    rw [holds, named]

/-- A tracker that is cleared for another chunk's completion forgets its own. -/
theorem Invariant.not_keepsChunks (invariant : self.Invariant Peer.KeepsReach)
    {worker : Fin workers} {dispatch : Dispatch} (ids : self.pool.nextChunkId < kInitialChunk)
    (stale : ¬ (self.peers worker).CompletesTracked) :
    ¬ (self.receive worker dispatch).KeepsChunks := by
  intro keeps
  cases frames : (self.peers worker).toCoordinator with
  | nil =>
    rw [Peer.CompletesTracked, frames] at stale
    exact stale trivial
  | cons frame rest =>
    cases frame with
    | chunkRequest =>
      rw [Peer.CompletesTracked, frames] at stale
      exact stale trivial
    | chunkComplete chunkId consumed =>
      rw [Peer.CompletesTracked, frames] at stale
      simp only [Peer.NamesTracked, Classical.not_imp] at stale
      rcases stale with ⟨alive, tracked, different⟩
      rcases (invariant.tracks worker).tracked tracked with ⟨chunk, held, named⟩
      have mine : chunk ∈ self.pool.inFlightChunks ∧ chunk.workerId = nodeId worker :=
        mem_heldBy.mp (held ▸ List.mem_singleton_self chunk)
      have below := invariant.numbered.below chunk mine.1
      have cleared : self.chunkComplete worker chunkId consumed rest =
          self.setPeer worker { self.peers worker with
            currentChunkId := idleChunk, toCoordinator := rest } := by
        rw [Cluster.chunkComplete, if_neg fun both => different both.1]
      rw [Cluster.receive, if_pos alive, frames] at keeps
      dsimp only at keeps
      rw [cleared] at keeps
      have notIdle : chunk.chunkId ≠ idleChunk := fun idle =>
        tracked (Or.inl (named.symm.trans idle))
      rcases @assignChunkTo_cases workers (self.setPeer worker { self.peers worker with
          currentChunkId := idleChunk, toCoordinator := rest })
        invariant.numbered ids worker dispatch with
        ⟨ledger, _, ⟨result, inFlight, _⟩ | ⟨unit, _, result, inFlight, _⟩⟩
      · rw [result] at keeps
        have kept := keeps worker (by simpa using alive) chunk
          (inFlight.symm ▸ mine.1) mine.2
        exact notIdle (by simpa using kept.1)
      · rw [result] at keeps
        have kept := keeps worker (by simpa using alive) chunk
          (inFlight.symm ▸ List.mem_append_left _ mine.1) mine.2
        have same : chunk.chunkId = self.pool.nextChunkId := by simpa using kept.1
        exact below.ne same

theorem Invariant.accountsFor (invariant : self.Invariant Peer.KeepsReach) {aStart aEnd index : Nat}
    (conserves : self.ledger.Conserves aStart aEnd) (above : aStart ≤ index)
    (taken : index < self.pool.next) : self.AccountsFor index := by
  rcases conserves.taken_cases above taken with
    ⟨unit, member, contains⟩ | ⟨unit, member, contains⟩ | returned
  · exact Or.inl ⟨unit, member, contains, invariant.completed unit member⟩
  · apply Or.inr (Or.inr _)
    rcases List.mem_map.mp member with ⟨chunk, chunkMember, rfl⟩
    refine ⟨chunk, chunkMember, contains, ?_⟩
    rcases invariant.owners chunk chunkMember with own | ⟨worker, owned⟩
    · have mine : chunk ∈ self.pool.heldBy 0 := mem_heldBy.mpr ⟨chunkMember, own⟩
      rw [invariant.own] at mine
      exact Or.inl (Option.mem_toList.mp mine)
    · have alive : (self.peers worker).alive = true := by
        by_contra dead
        have none := (invariant.tracks worker).untracked
          ((invariant.tracks worker).dead (Bool.not_eq_true _ ▸ dead))
        have mine : chunk ∈ self.pool.heldBy (nodeId worker) :=
          mem_heldBy.mpr ⟨chunkMember, owned⟩
        rw [none] at mine
        cases mine
      exact Or.inr ⟨worker, owned, alive,
        (invariant.keepsChunks worker alive chunk chunkMember owned).2⟩
  · exact Or.inr (Or.inl returned)

/-- In every run the coordinator keeps sight of every chunk in flight exactly as
long as no completion that it handles names another chunk than the tracked one,
and until then everything taken from the pool is accounted for. -/
theorem keepsChunks_iff (aStart totalA unitSize : Nat) (events : List (Event workers))
    (ids : Transition.Meets step HasChunkIds (start aStart totalA unitSize) events) :
    let initial : Cluster workers := start aStart totalA unitSize
    let final := Transition.run step initial events
    (Transition.Meets step (Handles Peer.CompletesTracked) initial events ↔
      Transition.Meets step (fun self event => (self.step event).KeepsChunks) initial
        events) ∧
    (Transition.Meets step (Handles Peer.CompletesTracked) initial events →
      ∀ index, aStart ≤ index → index < final.pool.next → final.AccountsFor index) := by
  intro initial final
  have starts : initial.Invariant Peer.KeepsReach :=
    start_invariant Peer.keepsReach_preserved aStart totalA unitSize
  constructor
  · apply ids.iff_of_invariant _ _ starts
    · exact fun _ _ hasIds handles invariant =>
        invariant.step Peer.keepsReach_preserved hasIds handles
    · intro self event hasIds invariant
      constructor
      · exact fun handles =>
          (invariant.step Peer.keepsReach_preserved hasIds handles).keepsChunks
      · intro keeps
        cases event with
        | receive worker dispatch =>
          by_contra stale
          exact invariant.not_keepsChunks (hasIds rfl) stale keeps
        | _ => trivial
  · intro handles index above taken
    have invariant := (Transition.meets_and.mpr ⟨ids, handles⟩).invariant
      (fun (self : Cluster workers) event both (invariant : self.Invariant Peer.KeepsReach) =>
        invariant.step Peer.keepsReach_preserved both.1 both.2) starts
    exact invariant.accountsFor (run_conserves aStart totalA unitSize events) above taken

def crossing : List (Event 1) :=
  let worker := .last 0
  let dispatch : Dispatch := ⟨10, false, true⟩
  [.workerCompletes worker 5, .receive worker ⟨10, false, false⟩, .sendChunkRequest worker,
    .idleSweep worker dispatch, .receive worker dispatch, .ioThreadReceive worker,
    .tryTakeChunkAssign worker, .ioThreadReceive worker, .workerCompletes worker 10,
    .receive worker dispatch, .ioThreadReceive worker]

/-- Chunk 2 is in flight for a live worker, and nobody has it. -/
theorem not_locates_crossing :
    let final := Transition.run step (start 0 100 64) crossing
    let chunk : CheckedOutWork := ⟨2, ⟨0, 10⟩, nodeId (0 : Fin 1)⟩
    chunk ∈ final.pool.inFlightChunks ∧ (final.peers 0).alive = true ∧
      ¬ (final.peers 0).Locates chunk := by
  intro final chunk
  have peer : final.peers 0 =
      { currentChunkId := 3
        loop := .waiting
        tapChunkId := 1
        pendingAssign := some ⟨3, ⟨10, 10⟩⟩ } := by decide +kernel
  refine ⟨by decide +kernel, by rw [peer], ?_⟩
  rw [peer]
  simp [Peer.Locates, chunk]

theorem keepsChunks_idleSweep :
    Transition.Meets step (fun self event => (self.step event).KeepsChunks)
      (start 0 100 64) (crossing.take 4) :=
  (keepsChunks_iff 0 100 64 (crossing.take 4) (by decide +kernel)).1.mp (by decide +kernel)

end Cluster

end CudaMpqs
