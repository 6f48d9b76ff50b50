import CudaMpqs.Cluster.ChunkSafety

/-! # No overflow work is done twice

As long as no request overtakes the assignment it asks for, a peer and its
tracker move in lockstep: the tracked chunk is the only one the peer has or will
get, or its completion is on the way back. -/

namespace CudaMpqs

open WorkPool

def ReportFrame.complete? : ReportFrame → Option (Nat × Nat)
  | .chunkComplete chunkId aValuesConsumed => some (chunkId, aValuesConsumed)
  | .chunkRequest => none

namespace Peer

def completions (peer : Peer) : List (Nat × Nat) :=
  peer.toCoordinator.filterMap ReportFrame.complete?

def RequestsWork (peer : Peer) : List ReportFrame → Prop
  | .chunkRequest :: _ => peer.alive = true → peer.Untracked
  | _ => True

instance (peer : Peer) : DecidablePred peer.RequestsWork
  | .chunkRequest :: _ => inferInstanceAs (Decidable (_ → _))
  | .chunkComplete .. :: _ => isTrue trivial
  | [] => isTrue trivial

def RequestsUntracked (peer : Peer) : Prop :=
  peer.RequestsWork peer.toCoordinator

instance : DecidablePred RequestsUntracked := fun peer =>
  inferInstanceAs (Decidable (peer.RequestsWork peer.toCoordinator))

inductive Stage (held : List CheckedOutWork) (sieved : List WorkUnit) (peer : Peer) :
    Prop where
  | initial (none : held = []) (empty : peer.mailbox.contents = [])
      (current : peer.currentChunkId = kInitialChunk)
      (loop : peer.loop = .initialRange) (label : peer.tapChunkId = 0)
      (quiet : peer.toCoordinator = [])
  | initialDone (none : held = []) (empty : peer.mailbox.contents = [])
      (current : peer.currentChunkId = kInitialChunk)
      (loop : peer.loop = .waiting) (consumed : Nat) (rest : List ReportFrame)
      (frames : peer.toCoordinator = .chunkComplete 0 consumed :: rest)
      (quiet : rest.filterMap ReportFrame.complete? = [])
  | idle (none : held = []) (empty : peer.mailbox.contents = [])
      (loop : peer.loop = .waiting) (quiet : peer.completions = [])
  | assigned (chunk : CheckedOutWork) (holds : held = [chunk])
      (only : peer.mailbox.contents = [⟨chunk.chunkId, chunk.unit⟩])
      (busy : peer.loop ≠ .initialRange)
      (label : ∀ assign, peer.loop = .chunk assign → peer.tapChunkId = assign.chunkId)
      (quiet : peer.completions = [])
  | completed (chunk : CheckedOutWork) (holds : held = [chunk])
      (empty : peer.mailbox.contents = []) (loop : peer.loop = .waiting)
      (consumed : Nat) (report : peer.completions = [(chunk.chunkId, consumed)])
      (done : consumedPart chunk.unit consumed ∈ sieved)

def InLockstep : PeerRelation := fun held _ sieved peer =>
  peer.alive = true → Stage held sieved peer

variable {held : List CheckedOutWork} {sieved sieved' : List WorkUnit} {peer : Peer}

theorem completions_cons {frame : ReportFrame} {rest : List ReportFrame}
    (frames : peer.toCoordinator = frame :: rest) :
    peer.completions = frame.complete?.toList ++ rest.filterMap ReportFrame.complete? := by
  rw [completions, frames, List.filterMap_cons]
  cases frame.complete? <;> rfl

theorem Stage.weaken (stage : Stage held sieved peer) (grows : sieved ⊆ sieved') :
    Stage held sieved' peer := by
  cases stage with
  | initial none empty current loop label quiet =>
    exact .initial none empty current loop label quiet
  | initialDone none empty current loop consumed rest frames quiet =>
    exact .initialDone none empty current loop consumed rest frames quiet
  | idle none empty loop quiet => exact .idle none empty loop quiet
  | assigned chunk holds only busy label quiet =>
    exact .assigned chunk holds only busy label quiet
  | completed chunk holds empty loop consumed report done =>
    exact .completed chunk holds empty loop consumed report (grows done)

theorem Stage.dispatched {next : Nat} (stage : Stage [] sieved peer)
    (current : peer.currentChunkId = idleChunk) (unit : WorkUnit) (node : Nat) :
    Stage [⟨next, unit, node⟩] sieved
      { peer with
        currentChunkId := next
        toWorker := peer.toWorker ++ [.chunkAssign ⟨next, unit⟩] } := by
  have contents : Mailbox.contents (mailbox { peer with
      currentChunkId := next
      toWorker := peer.toWorker ++ [.chunkAssign ⟨next, unit⟩] }) =
      peer.mailbox.contents ++ [⟨next, unit⟩] := by
    simp [mailbox, Mailbox.contents, ControlFrame.assign?]
  cases stage with
  | initial _ _ started => exact absurd (current.symm.trans started) (by decide)
  | initialDone _ _ started => exact absurd (current.symm.trans started) (by decide)
  | idle none empty loop quiet =>
    rw [empty, List.nil_append] at contents
    refine .assigned _ rfl contents ?_ ?_ quiet
    · intro started
      cases loop.symm.trans started
    · intro assign busy
      cases loop.symm.trans busy
  | assigned chunk holds => cases holds
  | completed chunk holds => cases holds

section

variable (stage : Stage held sieved peer)

include stage

theorem Stage.head_completion (tracks : peer.Tracks held) {chunkId consumed : Nat}
    {rest : List ReportFrame}
    (frames : peer.toCoordinator = .chunkComplete chunkId consumed :: rest)
    (tracked : ¬ peer.Untracked) :
    peer.currentChunkId = chunkId ∧ ∀ chunk ∈ held, consumedPart chunk.unit consumed ∈ sieved := by
  rcases tracks.tracked tracked with ⟨only, holdsOnly, named⟩
  have head := completions_cons frames
  cases stage with
  | initial none => cases none.symm.trans holdsOnly
  | initialDone none => cases none.symm.trans holdsOnly
  | idle none => cases none.symm.trans holdsOnly
  | assigned chunk holds only busy label quiet => cases quiet.symm.trans head
  | completed chunk holds empty loop reported report done =>
    cases List.cons.inj (report.symm.trans head)
    next first _ =>
      injection first with sameId sameConsumed
      subst sameConsumed
      have same : only = chunk := List.singleton_inj.mp (holdsOnly.symm.trans holds)
      refine ⟨by rw [← named, same, sameId], fun item member => ?_⟩
      rw [holds, List.mem_singleton] at member
      rw [member]
      exact done

theorem Stage.handled (tracks : peer.Tracks held) (guarded : peer.RequestsUntracked)
    (alive : peer.alive = true) {frame : ReportFrame} {rest : List ReportFrame}
    (frames : peer.toCoordinator = frame :: rest) :
    Stage [] sieved { peer with currentChunkId := idleChunk, toCoordinator := rest } := by
  have head := completions_cons frames
  have requested : frame.complete? = none → held = [] := by
    intro none
    cases frame with
    | chunkComplete => cases none
    | chunkRequest =>
      rw [RequestsUntracked, frames] at guarded
      exact tracks.untracked (guarded alive)
  cases stage with
  | initial _ _ _ _ _ quiet => cases quiet.symm.trans frames
  | initialDone none empty current loop consumed later sameFrames quiet =>
    rw [sameFrames] at frames
    injection frames with _ sameRest
    subst sameRest
    exact .idle rfl empty loop quiet
  | idle none empty loop quiet =>
    exact .idle rfl empty loop (List.append_eq_nil_iff.mp (head.symm.trans quiet)).2
  | assigned chunk holds only busy label quiet =>
    have none := (List.append_eq_nil_iff.mp (head.symm.trans quiet)).1
    cases holds.symm.trans (requested (Option.toList_eq_nil_iff.mp none))
  | completed chunk holds empty loop consumed report done =>
    cases first : frame.complete? with
    | none => cases holds.symm.trans (requested first)
    | some pair =>
      rw [first] at head
      have rest := (List.cons.inj (report.symm.trans head)).2
      exact .idle rfl empty loop rest.symm

theorem Stage.of_contents {after : Peer} (contents : after.mailbox.contents = peer.mailbox.contents)
    (current : after.currentChunkId = peer.currentChunkId) (loop : after.loop = peer.loop)
    (label : after.tapChunkId = peer.tapChunkId)
    (frames : after.toCoordinator = peer.toCoordinator) : Stage held sieved after := by
  have reports : after.completions = peer.completions := by
    rw [completions, frames, completions]
  cases stage with
  | initial none empty started busy labelled quiet =>
    exact .initial none (contents.trans empty) (current.trans started) (loop.trans busy)
      (label.trans labelled) (frames.trans quiet)
  | initialDone none empty started waiting consumed rest report quiet =>
    exact .initialDone none (contents.trans empty) (current.trans started)
      (loop.trans waiting) consumed rest (frames.trans report) quiet
  | idle none empty waiting quiet =>
    exact .idle none (contents.trans empty) (loop.trans waiting) (reports.trans quiet)
  | assigned chunk holds only busy labelled quiet =>
    exact .assigned chunk holds (contents.trans only) (fun started => busy (loop ▸ started))
      (fun assign sieving => label.trans (labelled assign (loop ▸ sieving)))
      (reports.trans quiet)
  | completed chunk holds empty waiting consumed report done =>
    exact .completed chunk holds (contents.trans empty) (loop.trans waiting) consumed
      (reports.trans report) done

theorem Stage.contents_length : peer.mailbox.contents.length ≤ 1 := by
  cases stage with
  | initial _ empty => rw [empty]; exact Nat.zero_le 1
  | initialDone _ empty => rw [empty]; exact Nat.zero_le 1
  | idle _ empty => rw [empty]; exact Nat.zero_le 1
  | assigned _ _ only => rw [only]; exact Nat.le_refl 1
  | completed _ _ empty => rw [empty]; exact Nat.zero_le 1

theorem Stage.received : Stage held sieved peer.ioThreadReceive := by
  have contents : peer.ioThreadReceive.mailbox.contents = peer.mailbox.contents := by
    rcases mailbox_ioThreadReceive peer with delivered | unchanged
    · rw [delivered]
      exact Mailbox.contents_deliver_of_single stage.contents_length
    · rw [unchanged]
  rw [ioThreadReceive] at contents ⊢
  split at contents
  all_goals exact stage.of_contents contents rfl rfl rfl rfl

theorem Stage.taken : Stage held sieved peer.tryTakeChunkAssign := by
  have contents := contents_tryTakeChunkAssign peer
  rw [tryTakeChunkAssign] at contents ⊢
  split at contents
  next assign waiting pending =>
    have inside : assign ∈ peer.mailbox.contents := by
      simp [mailbox, Mailbox.contents, pending]
    cases stage with
    | initial _ empty => cases empty ▸ inside
    | initialDone _ empty => cases empty ▸ inside
    | idle _ empty => cases empty ▸ inside
    | completed _ _ empty => cases empty ▸ inside
    | assigned chunk holds only busy label quiet =>
      refine .assigned chunk holds (contents.trans only) ?_ ?_ quiet
      · rintro ⟨⟩
      · rintro other ⟨rfl⟩
        rfl
  next => exact stage

theorem Stage.reported (consumed : Nat) : Stage held (sieved ++ (peer.consumedUnit consumed).toList)
      (peer.sendChunkComplete consumed) := by
  have idle : peer.loop = .waiting → Stage held
      (sieved ++ (peer.consumedUnit consumed).toList) (peer.sendChunkComplete consumed) := by
    intro waiting
    have same : peer.sendChunkComplete consumed = peer := by
      simp [sendChunkComplete, waiting]
    rw [same]
    exact stage.weaken (List.subset_append_left _ _)
  have box := mailbox_sendChunkComplete peer consumed
  cases stage with
  | initialDone _ _ _ waiting => exact idle waiting
  | idle _ _ waiting => exact idle waiting
  | completed _ _ _ waiting => exact idle waiting
  | initial none empty current loop label quiet =>
    refine .initialDone none ?_ ?_ ?_ consumed [] ?_ rfl
    · rw [Mailbox.contents_finish] at empty
      rw [box]
      exact (List.append_eq_nil_iff.mp empty).2
    · simp [sendChunkComplete, loop, current]
    · simp [sendChunkComplete, loop]
    · simp [sendChunkComplete, loop, label, quiet]
  | assigned chunk holds only busy label quiet =>
    cases loop : peer.loop with
    | waiting => exact idle loop
    | initialRange => exact absurd loop busy
    | chunk assign =>
      have taken : peer.mailbox.taken = some assign := by simp [mailbox, loop]
      rw [Mailbox.contents_finish, taken] at only
      have parts := List.cons.inj only
      refine .completed chunk holds ?_ ?_ consumed ?_ ?_
      · rw [box]
        exact parts.2
      · simp [sendChunkComplete, loop]
      · have frames : (peer.sendChunkComplete consumed).toCoordinator =
            peer.toCoordinator ++ [.chunkComplete assign.chunkId consumed] := by
          simp [sendChunkComplete, loop, label assign loop]
        rw [completions, frames, List.filterMap_append, parts.1]
        rw [completions] at quiet
        rw [quiet]
        rfl
      · simp [consumedUnit, loop, parts.1]

theorem Stage.requested : Stage held sieved peer.sendChunkRequest := by
  rw [sendChunkRequest]
  split
  next waiting =>
    have reports : completions { peer with
        toCoordinator := peer.toCoordinator ++ [.chunkRequest] } = peer.completions := by
      simp [completions, ReportFrame.complete?]
    cases stage with
    | initial _ _ _ loop => cases waiting.symm.trans loop
    | initialDone none empty current loop consumed rest frames quiet =>
      refine .initialDone none empty current loop consumed (rest ++ [.chunkRequest]) ?_ ?_
      · simp [frames]
      · rw [List.filterMap_append, quiet]
        rfl
    | idle none empty loop quiet => exact .idle none empty loop (reports.trans quiet)
    | assigned chunk holds only busy label quiet =>
      exact .assigned chunk holds only busy label (reports.trans quiet)
    | completed chunk holds empty loop consumed report done =>
      exact .completed chunk holds empty loop consumed (reports.trans report) done
  next => exact stage

end

theorem inLockstep_preserved : Preserved RequestsUntracked InLockstep where
  start := fun _ => .initial rfl rfl rfl rfl rfl rfl
  weaken := fun _ grows stage alive => (stage alive).weaken grows
  assigned := fun unit node stage alive idle _ => (stage alive).dispatched idle unit node
  completed := fun stage tracks _ alive frames tracked =>
    (stage alive).head_completion tracks frames tracked
  handled := fun stage tracks guarded alive frames _ =>
    (stage alive).handled tracks guarded alive frames
  timedOut := fun _ dead => nomatch dead
  recalled := by
    intro held next sieved peer chunkId stage alive
    refine (stage alive).of_contents ?_ rfl rfl rfl rfl
    simp [mailbox, Mailbox.contents, ControlFrame.assign?, List.filterMap_cons]
  received := by
    intro held next sieved peer stage alive
    rw [alive_ioThreadReceive] at alive
    exact (stage alive).received
  taken := by
    intro held next sieved peer stage alive
    rw [alive_tryTakeChunkAssign] at alive
    exact (stage alive).taken
  reported := by
    intro held next sieved peer consumed stage alive
    rw [alive_sendChunkComplete] at alive
    exact (stage alive).reported consumed
  requested := by
    intro held next sieved peer stage alive
    rw [alive_sendChunkRequest] at alive
    exact (stage alive).requested

theorem Stage.ranges (stage : Stage held sieved peer) :
    (peer.mailbox.contents.map (·.polyRange)).Sublist (held.map (·.unit)) := by
  cases stage with
  | initial _ empty => rw [empty]; exact List.nil_sublist _
  | initialDone _ empty => rw [empty]; exact List.nil_sublist _
  | idle _ empty => rw [empty]; exact List.nil_sublist _
  | completed _ _ empty => rw [empty]; exact List.nil_sublist _
  | assigned chunk holds only => rw [only, holds]; exact List.Sublist.refl _

end Peer

namespace Cluster

open CudaMpqs.Interval

variable {workers : Nat} {self : Cluster workers}

def heldRanges (self : Cluster workers) : List WorkUnit :=
  (self.ownChunk.toList.map (·.unit)) ++ (List.finRange workers).flatMap fun worker =>
      if (self.peers worker).alive then
        (self.peers worker).mailbox.contents.map (·.polyRange)
      else []

def NoDoubleWork (self : Cluster workers) : Prop :=
  ∀ index, coverage self.heldRanges index ≤ 1

/-- A request takes the tracked chunk back only from a worker that has not
received it and will not. -/
def RequestsSafely (self : Cluster workers) : Event workers → Prop
  | .receive worker _ =>
    let peer := self.peers worker
    peer.alive = true → peer.toCoordinator.head? = some .chunkRequest → ¬ peer.Untracked →
        (∀ assign ∈ peer.mailbox.contents, assign.chunkId ≠ peer.currentChunkId) ∧
          ∀ completion ∈ peer.completions, completion.1 ≠ peer.currentChunkId
  | _ => True

def heldChunks (self : Cluster workers) : List CheckedOutWork :=
  self.pool.heldBy 0 ++
    (List.finRange workers).flatMap fun worker => self.pool.heldBy (nodeId worker)

theorem heldChunks_subperm (numbered : self.pool.Numbered) :
    self.heldChunks.Subperm self.pool.inFlightChunks := by
  have distinct : self.pool.inFlightChunks.Nodup := numbered.distinct.of_map
  have apart : ∀ node other, node ≠ other →
      (self.pool.heldBy node).Disjoint (self.pool.heldBy other) := by
    intro node other different chunk member otherMember
    exact different ((mem_heldBy.mp member).2.symm.trans (mem_heldBy.mp otherMember).2)
  apply List.subperm_of_subset
  · rw [heldChunks, List.nodup_append']
    refine ⟨distinct.filter _, ?_, ?_⟩
    · rw [List.nodup_flatMap]
      refine ⟨fun worker _ => distinct.filter _, ?_⟩
      exact (List.nodup_finRange workers).imp fun different =>
        apart _ _ fun equal => different (nodeId_injective equal)
    · intro chunk own member
      rcases List.mem_flatMap.mp member with ⟨worker, _, holds⟩
      exact apart _ _ (nodeId_ne_zero worker).symm own holds
  · intro chunk member
    rcases List.mem_append.mp member with own | member
    · exact (mem_heldBy.mp own).1
    · rcases List.mem_flatMap.mp member with ⟨worker, _, holds⟩
      exact (mem_heldBy.mp holds).1

private theorem heldRanges_sublist (invariant : self.Invariant Peer.InLockstep) :
    self.heldRanges.Sublist (self.heldChunks.map (·.unit)) := by
  have pointwise : ∀ list : List (Fin workers),
      (list.flatMap fun worker => if (self.peers worker).alive then
        (self.peers worker).mailbox.contents.map (·.polyRange) else []).Sublist
      ((list.flatMap fun worker => self.pool.heldBy (nodeId worker)).map (·.unit)) := by
    intro list
    induction list with
    | nil => exact List.Sublist.refl _
    | cons worker list induction =>
      rw [List.flatMap_cons, List.flatMap_cons, List.map_append]
      apply List.Sublist.append _ induction
      split
      next alive => exact (invariant.related worker alive).ranges
      next dead => exact List.nil_sublist _
  rw [heldRanges, heldChunks, List.map_append, invariant.own]
  exact (List.Sublist.refl _).append (pointwise _)

theorem Invariant.noDoubleWork (invariant : self.Invariant Peer.InLockstep)
    {aStart aEnd : Nat} (conserves : self.ledger.Conserves aStart aEnd) :
    self.NoDoubleWork := by
  intro index
  have held : coverage self.heldRanges index ≤
      coverage (self.heldChunks.map (·.unit)) index :=
    (heldRanges_sublist invariant).countP_le
  have inFlight : coverage (self.heldChunks.map (·.unit)) index ≤
      coverage self.pool.inFlightUnits index := by
    rw [coverage, coverage, List.countP_map, inFlightUnits, List.countP_map]
    exact (heldChunks_subperm invariant.numbered).countP_le _
  have partitioned := conserves.partitioned index
  have whole : coverage [⟨aStart, aEnd - aStart⟩] index ≤ 1 := by
    rw [coverage_singleton]
    split <;> omega
  have bound : coverage self.pool.inFlightUnits index ≤ 1 := by
    change coverage self.ledger.pool.inFlightUnits index ≤ 1
    rw [Ledger.accounted] at partitioned
    omega
  exact held.trans (inFlight.trans bound)

/-- In lockstep a request is safe exactly when it finds no tracked chunk. -/
theorem Invariant.requestsSafely_iff (invariant : self.Invariant Peer.InLockstep)
    (event : Event workers) :
    self.Handles Peer.RequestsUntracked event ↔ self.RequestsSafely event := by
  cases event with
  | receive worker dispatch =>
    rw [Handles, Peer.RequestsUntracked, RequestsSafely]
    have related := invariant.related worker
    have tracks := invariant.tracks worker
    generalize self.pool.heldBy (nodeId worker) = held at related tracks
    generalize self.peers worker = peer at related tracks ⊢
    constructor
    · intro guarded alive head tracked
      rcases List.head?_eq_some_iff.mp head with ⟨rest, frames⟩
      rw [frames] at guarded
      exact absurd (guarded alive) tracked
    · intro safe
      cases frames : peer.toCoordinator with
      | nil => trivial
      | cons frame rest =>
        cases frame with
        | chunkComplete => trivial
        | chunkRequest =>
          intro alive
          by_contra tracked
          rcases tracks.tracked tracked with ⟨only, holdsOnly, named⟩
          rcases safe alive (by rw [frames]; rfl) tracked with ⟨unassigned, unfinished⟩
          cases related alive with
          | initial none => cases none.symm.trans holdsOnly
          | initialDone none => cases none.symm.trans holdsOnly
          | idle none => cases none.symm.trans holdsOnly
          | assigned chunk holds contents =>
            have same := List.singleton_inj.mp (holdsOnly.symm.trans holds)
            apply unassigned ⟨chunk.chunkId, chunk.unit⟩
            · rw [contents]
              exact List.mem_singleton_self _
            · rw [← named, same]
          | completed chunk holds empty loop consumed report =>
            have same := List.singleton_inj.mp (holdsOnly.symm.trans holds)
            apply unfinished (chunk.chunkId, consumed)
            · rw [report]
              exact List.mem_singleton_self _
            · rw [← named, same]
  | _ => exact Iff.rfl

/-- In every run no work is held twice and no request takes a chunk back that its
worker has or will get, exactly as long as each request that is handled finds no
tracked chunk. -/
theorem noDoubleWork_iff (aStart totalA unitSize : Nat) (events : List (Event workers))
    (ids : Transition.Meets step HasChunkIds (start aStart totalA unitSize) events) :
    Transition.Meets step (Handles Peer.RequestsUntracked) (start aStart totalA unitSize) events ↔
      Transition.Meets step
        (fun self event => self.RequestsSafely event ∧ (self.step event).NoDoubleWork)
        (start aStart totalA unitSize) events := by
  have starts : (start aStart totalA unitSize : Cluster workers).Invariant
      Peer.InLockstep := start_invariant Peer.inLockstep_preserved aStart totalA unitSize
  have conserves : (start aStart totalA unitSize : Cluster workers).ledger.Conserves
      aStart (create aStart totalA unitSize).endCursor :=
    create_conserves aStart totalA unitSize
  refine @Transition.Meets.iff_of_invariant _ _ step HasChunkIds _ _
    (fun self => self.Invariant Peer.InLockstep ∧ self.ledger.Conserves aStart
      (create aStart totalA unitSize).endCursor) ?_ ?_ _ _ ids ⟨starts, conserves⟩
  · intro self event hasIds handles ⟨invariant, conserves⟩
    exact ⟨invariant.step Peer.inLockstep_preserved hasIds handles, step_conserves conserves event⟩
  · intro self event hasIds ⟨invariant, conserves⟩
    constructor
    · intro handles
      exact ⟨(invariant.requestsSafely_iff event).mp handles,
        (invariant.step Peer.inLockstep_preserved hasIds handles).noDoubleWork
          (step_conserves conserves event)⟩
    · exact fun both => (invariant.requestsSafely_iff event).mpr both.1

def overtaken : List (Event 1) :=
  let worker := .last 0
  [.workerCompletes worker 5, .receive worker ⟨10, false, false⟩, .sendChunkRequest worker,
    .idleSweep worker ⟨10, false, true⟩, .receive worker ⟨10, false, true⟩]

/-- Both assignments of the range are on their way to the worker. -/
theorem not_noDoubleWork_overtaken :
    ¬ (Transition.run step (start 0 100 64) overtaken).NoDoubleWork := by
  intro once
  have twice : coverage (Transition.run step (start 0 100 64) overtaken).heldRanges 0 = 2 := by
    decide +kernel
  exact absurd (once 0) (by rw [twice]; decide)

theorem noDoubleWork_beforeRequest : Transition.Meets step
      (fun self event => self.RequestsSafely event ∧ (self.step event).NoDoubleWork)
      (start 0 100 64) (overtaken.take 4) :=
  (noDoubleWork_iff 0 100 64 (overtaken.take 4) (by decide +kernel)).mp (by decide +kernel)

end Cluster

end CudaMpqs
