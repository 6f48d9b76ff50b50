import CudaMpqs.Cluster.ChunkProtocol

/-! # Invariants of the chunk protocol

The pool tracks at most one chunk for every worker, the one its tracker names.
What a claim says about one peer is a relation between the chunks in flight for
it and the peer; a relation that every handler preserves holds in every
reachable state. -/

namespace CudaMpqs

theorem eraseP_eq_filter {α : Type} (key : α → Nat) (items : List α)
    (distinct : (items.map key).Nodup) (value : Nat) :
    items.eraseP (key · == value) = items.filter fun item => !(key item == value) := by
  induction items with
  | nil => rfl
  | cons head tail induction =>
    have parts := List.nodup_cons.mp distinct
    cases same : key head == value with
    | true =>
      have keep : tail.filter (fun item => !(key item == value)) = tail := by
        apply List.filter_eq_self.mpr
        intro item member
        have different : key item ≠ value := fun equal => parts.1
          (List.mem_map.mpr ⟨item, member, equal.trans (beq_iff_eq.mp same).symm⟩)
        simpa using different
      simp [same, keep]
    | false => simp [same, induction parts.2]

namespace WorkPool

def heldBy (pool : WorkPool) (node : Nat) : List CheckedOutWork :=
  pool.inFlightChunks.filter (·.workerId == node)

structure Numbered (pool : WorkPool) : Prop where
  distinct : (pool.inFlightChunks.map (·.chunkId)).Nodup
  below : ∀ chunk ∈ pool.inFlightChunks, chunk.chunkId < pool.nextChunkId

variable {pool : WorkPool}
variable {chunk : CheckedOutWork}

theorem mem_heldBy {node : Nat} : chunk ∈ pool.heldBy node ↔
      chunk ∈ pool.inFlightChunks ∧ chunk.workerId = node := by
  rw [heldBy, List.mem_filter, beq_iff_eq]

variable {after : WorkPool}

theorem heldBy_congr (same : after.inFlightChunks = pool.inFlightChunks) (node : Nat) :
    after.heldBy node = pool.heldBy node := by
  rw [heldBy, same, heldBy]

theorem checkoutWork_tracks (pool : WorkPool) (count node : Nat) :
    pool.checkoutWork count node = (none, pool) ∨
      ∃ unit, (pool.checkoutWork count node).1 = some ⟨pool.nextChunkId, unit, node⟩ ∧
        (pool.checkoutWork count node).2.inFlightChunks =
          pool.inFlightChunks ++ [⟨pool.nextChunkId, unit, node⟩] ∧
        (pool.checkoutWork count node).2.nextChunkId = (pool.nextChunkId + 1) % 2 ^ 32 := by
  rcases checkoutWork_cases pool count node with
    ⟨rest, unit, concat, larger, result⟩ | ⟨rest, unit, concat, fits, result⟩ |
    ⟨empty, finished, result⟩ | ⟨empty, pending, result⟩
  · exact Or.inr ⟨_, by rw [result]; exact ⟨rfl, rfl, rfl⟩⟩
  · exact Or.inr ⟨_, by rw [result]; exact ⟨rfl, rfl, rfl⟩⟩
  · exact Or.inl result
  · exact Or.inr ⟨_, by rw [result]; exact ⟨rfl, rfl, rfl⟩⟩

theorem returnChunk_inFlight (pool : WorkPool) (chunkId : Nat) :
    (pool.returnChunk chunkId).2.inFlightChunks =
        pool.inFlightChunks.eraseP (·.chunkId == chunkId) ∧
      (pool.returnChunk chunkId).2.nextChunkId = pool.nextChunkId := by
  rw [returnChunk]
  cases found : pool.findChunk chunkId with
  | some chunk => exact ⟨rfl, rfl⟩
  | none =>
    exact ⟨(List.eraseP_of_forall_not (List.find?_eq_none.mp found)).symm, rfl⟩

theorem reclaimPartial_inFlight (pool : WorkPool) (chunkId consumed : Nat) :
    (pool.reclaimPartial chunkId consumed).inFlightChunks =
        pool.inFlightChunks.eraseP (·.chunkId == chunkId) ∧
      (pool.reclaimPartial chunkId consumed).nextChunkId = pool.nextChunkId := by
  rw [reclaimPartial]
  cases found : pool.findChunk chunkId with
  | some chunk => exact ⟨rfl, rfl⟩
  | none =>
    exact ⟨(List.eraseP_of_forall_not (List.find?_eq_none.mp found)).symm, rfl⟩

theorem Numbered.findChunk (numbered : pool.Numbered) (member : chunk ∈ pool.inFlightChunks) :
    pool.findChunk chunk.chunkId = some chunk := by
  cases found : pool.findChunk chunk.chunkId with
  | none =>
    have absent := List.find?_eq_none.mp found chunk member
    exact absurd (beq_self_eq_true chunk.chunkId) absent
  | some first =>
    have same : first.chunkId = chunk.chunkId := by
      simpa using List.find?_some found
    rw [List.inj_on_of_nodup_map numbered.distinct (List.mem_of_find?_eq_some found) member same]

theorem Numbered.of_sublist (numbered : pool.Numbered)
    (sublist : after.inFlightChunks.Sublist pool.inFlightChunks)
    (next : after.nextChunkId = pool.nextChunkId) : after.Numbered where
  distinct := numbered.distinct.sublist (sublist.map _)
  below := by
    intro chunk member
    rw [next]
    exact numbered.below chunk (sublist.subset member)

theorem Numbered.eraseP_fresh (numbered : pool.Numbered) {unit : WorkUnit} {node : Nat} :
    (pool.inFlightChunks ++ [(⟨pool.nextChunkId, unit, node⟩ : CheckedOutWork)]).eraseP
      (·.chunkId == pool.nextChunkId) = pool.inFlightChunks := by
  rw [List.eraseP_append_right]
  · simp
  · intro chunk member
    simpa using (numbered.below chunk member).ne

theorem Numbered.heldBy_release (numbered : pool.Numbered) {node : Nat}
    (held : pool.heldBy node = [chunk])
    (released : after.inFlightChunks = pool.inFlightChunks.eraseP (·.chunkId == chunk.chunkId))
    (other : Nat) : after.heldBy other = if other = node then [] else pool.heldBy other := by
  have mine : chunk ∈ pool.inFlightChunks ∧ chunk.workerId = node :=
    mem_heldBy.mp (held ▸ List.mem_singleton_self chunk)
  rw [heldBy, released, eraseP_eq_filter CheckedOutWork.chunkId _
    numbered.distinct, List.filter_filter]
  by_cases same : other = node
  · rw [if_pos same, List.filter_eq_nil_iff]
    intro item member keeps
    rw [Bool.and_eq_true, beq_iff_eq, same] at keeps
    have sameChunk : item ∈ pool.heldBy node := mem_heldBy.mpr ⟨member, keeps.1⟩
    rw [held, List.mem_singleton] at sameChunk
    simp [sameChunk] at keeps
  · rw [if_neg same, heldBy]
    apply List.filter_congr
    intro item member
    cases owned : item.workerId == other with
    | false => rfl
    | true =>
      have different : item.chunkId ≠ chunk.chunkId := by
        intro equal
        rw [List.inj_on_of_nodup_map numbered.distinct member mine.1 equal] at owned
        exact same ((beq_iff_eq.mp owned).symm.trans mine.2)
      simp [different]

theorem heldBy_append (tracked : after.inFlightChunks = pool.inFlightChunks ++ [chunk])
    (node : Nat) :
    after.heldBy node = pool.heldBy node ++ if chunk.workerId = node then [chunk] else [] := by
  rw [heldBy, tracked, List.filter_append, heldBy]
  congr 1
  by_cases mine : chunk.workerId = node <;> simp [mine]

theorem heldBy_reclaimWork (pool : WorkPool) (node other : Nat) :
    (pool.reclaimWork node).2.heldBy other = if other = node then [] else pool.heldBy other := by
  rw [heldBy, reclaimWork, List.filter_filter]
  by_cases same : other = node
  · rw [if_pos same, same, List.filter_eq_nil_iff]
    simp
  · rw [if_neg same, heldBy]
    apply List.filter_congr
    intro item _
    cases owned : item.workerId == other with
    | false => rfl
    | true =>
      rw [beq_iff_eq.mp owned]
      simpa using same

theorem Numbered.track (numbered : pool.Numbered) (fresh : chunk.chunkId = pool.nextChunkId)
    (tracked : after.inFlightChunks = pool.inFlightChunks ++ [chunk])
    (next : after.nextChunkId = pool.nextChunkId + 1) : after.Numbered where
  distinct := by
    rw [tracked, List.map_append, List.nodup_append]
    refine ⟨numbered.distinct, List.nodup_singleton _, ?_⟩
    intro chunkId member other otherMember
    rcases List.mem_map.mp member with ⟨item, itemMember, rfl⟩
    rw [List.mem_singleton.mp otherMember]
    exact ((numbered.below item itemMember).trans_eq fresh.symm).ne
  below := by
    intro item member
    rw [tracked] at member
    rw [next]
    rcases List.mem_append.mp member with member | member
    · exact (numbered.below item member).trans (Nat.lt_succ_self _)
    · rw [List.mem_singleton.mp member, fresh]
      exact Nat.lt_succ_self _

end WorkPool

/-- A relation between the chunks in flight for a peer, the next chunk id, what
was sieved, and the peer. -/
abbrev PeerRelation :=
  List CheckedOutWork → Nat → List WorkUnit → Peer → Prop

structure Peer.Tracks (held : List CheckedOutWork) (peer : Peer) : Prop where
  untracked : peer.Untracked → held = []
  tracked : ¬ peer.Untracked → ∃ chunk, held = [chunk] ∧ chunk.chunkId = peer.currentChunkId
  dead : peer.alive = false → peer.Untracked

theorem Peer.Tracks.ofIdle {peer : Peer} (idle : peer.currentChunkId = idleChunk) :
    peer.Tracks [] :=
  ⟨fun _ => rfl, fun tracked => absurd (Or.inl idle) tracked, fun _ => Or.inl idle⟩

theorem Peer.Tracks.of_same {held : List CheckedOutWork} {peer after : Peer}
    (tracks : peer.Tracks held)
    (chunkId : after.currentChunkId = peer.currentChunkId)
    (alive : after.alive = peer.alive) : after.Tracks held := by
  have untracked : after.Untracked ↔ peer.Untracked := by
    simp only [Peer.Untracked, chunkId]
  constructor
  · exact fun idle => tracks.untracked (untracked.mp idle)
  · intro busy
    rw [chunkId]
    exact tracks.tracked fun idle => busy (untracked.mpr idle)
  · exact fun dead => untracked.mpr (tracks.dead (alive ▸ dead))

/-- What a relation has to satisfy for every event, when the guard holds of each
peer whose frame is handled. -/
structure Peer.Preserved (guard : Peer → Prop) (relation : PeerRelation) :
    Prop where
  start : relation [] 0 [] {}
  weaken : ∀ {held next next' sieved sieved' peer}, next ≤ next' →
    sieved ⊆ sieved' → relation held next sieved peer →
    relation held next' sieved' peer
  assigned : ∀ {next sieved peer} (unit : WorkUnit) (node : Nat),
    relation [] next sieved peer → peer.alive = true →
    peer.currentChunkId = idleChunk →
    relation [⟨next, unit, node⟩] (next + 1) sieved
      { peer with
        currentChunkId := next
        toWorker := peer.toWorker ++ [.chunkAssign ⟨next, unit⟩] }
  completed : ∀ {held next sieved peer chunkId consumed rest},
    relation held next sieved peer → peer.Tracks held → guard peer →
    peer.alive = true →
    peer.toCoordinator = .chunkComplete chunkId consumed :: rest →
    ¬ peer.Untracked →
    peer.currentChunkId = chunkId ∧
      ∀ chunk ∈ held, WorkPool.consumedPart chunk.unit consumed ∈ sieved
  handled : ∀ {held next sieved peer frame rest},
    relation held next sieved peer → peer.Tracks held → guard peer →
    peer.alive = true → peer.toCoordinator = frame :: rest →
    relation [] next sieved
      { peer with currentChunkId := idleChunk, toCoordinator := rest }
  timedOut : ∀ {held next sieved peer}, relation held next sieved peer →
    relation [] next sieved
      { peer with alive := false, currentChunkId := idleChunk }
  recalled : ∀ {held next sieved peer} (chunkId : Nat),
    relation held next sieved peer →
    relation held next sieved
      { peer with toWorker := peer.toWorker ++ [.chunkRecall chunkId] }
  received : ∀ {held next sieved peer}, relation held next sieved peer →
    relation held next sieved peer.ioThreadReceive
  taken : ∀ {held next sieved peer}, relation held next sieved peer →
    relation held next sieved peer.tryTakeChunkAssign
  reported : ∀ {held next sieved peer} (consumed : Nat),
    relation held next sieved peer →
    relation held next (sieved ++ (peer.consumedUnit consumed).toList)
      (peer.sendChunkComplete consumed)
  requested : ∀ {held next sieved peer}, relation held next sieved peer →
    relation held next sieved peer.sendChunkRequest

namespace Cluster

open WorkPool

variable {workers : Nat}

theorem nodeId_injective : Function.Injective (nodeId : Fin workers → Nat) :=
  fun _ _ equal => Fin.ext (Nat.succ.inj equal)

theorem nodeId_ne_zero (worker : Fin workers) : nodeId worker ≠ 0 :=
  Nat.succ_ne_zero _

structure Invariant (relation : PeerRelation) (cluster : Cluster workers) : Prop where
  numbered : cluster.pool.Numbered
  own : cluster.pool.heldBy 0 = cluster.ownChunk.toList
  owners : ∀ chunk ∈ cluster.pool.inFlightChunks,
    chunk.workerId = 0 ∨ ∃ worker : Fin workers, chunk.workerId = nodeId worker
  completed : ∀ unit ∈ cluster.ledger.completed, unit ∈ cluster.sieved
  tracks : ∀ worker, (cluster.peers worker).Tracks (cluster.pool.heldBy (nodeId worker))
  related : ∀ worker, relation (cluster.pool.heldBy (nodeId worker))
    cluster.pool.nextChunkId cluster.sieved (cluster.peers worker)

variable {guard : Peer → Prop} {relation : PeerRelation} {self : Cluster workers}
  {worker : Fin workers}

section

variable (preserved : Peer.Preserved guard relation)

include preserved

theorem start_invariant (aStart totalA unitSize : Nat) :
    (start aStart totalA unitSize : Cluster workers).Invariant relation where
  numbered := ⟨List.nodup_nil, nofun⟩
  own := rfl
  owners := nofun
  completed := nofun
  tracks := fun _ => ⟨fun _ => rfl, fun tracked => absurd (Or.inr rfl) tracked, nofun⟩
  related := fun _ => preserved.start

/-- A step may change a peer or its chunks as far as the relation still holds. -/
theorem Invariant.carry (invariant : self.Invariant relation) {after : Cluster workers}
    (numbered : after.pool.Numbered) (own : after.pool.heldBy 0 = after.ownChunk.toList)
    (owners : ∀ chunk ∈ after.pool.inFlightChunks,
      chunk.workerId = 0 ∨ ∃ worker : Fin workers, chunk.workerId = nodeId worker)
    (completed : ∀ unit ∈ after.ledger.completed, unit ∈ after.sieved)
    (next : self.pool.nextChunkId ≤ after.pool.nextChunkId) (sieved : self.sieved ⊆ after.sieved)
    (each : ∀ other, after.peers other = self.peers other ∧
        after.pool.heldBy (nodeId other) = self.pool.heldBy (nodeId other) ∨
      (after.peers other).Tracks (after.pool.heldBy (nodeId other)) ∧
        relation (after.pool.heldBy (nodeId other)) after.pool.nextChunkId
          after.sieved (after.peers other)) : after.Invariant relation where
  numbered := numbered
  own := own
  owners := owners
  completed := completed
  tracks := by
    intro other
    rcases each other with ⟨peerSame, heldSame⟩ | ⟨tracks, related⟩
    · rw [peerSame, heldSame]
      exact invariant.tracks other
    · exact tracks
  related := by
    intro other
    rcases each other with ⟨peerSame, heldSame⟩ | ⟨tracks, related⟩
    · rw [peerSame, heldSame]
      exact preserved.weaken next sieved (invariant.related other)
    · exact related

/-- A step that changes one peer and leaves the chunks of the others alone. -/
theorem Invariant.frame (invariant : self.Invariant relation) {after : Cluster workers}
    {peer : Peer} (peers : after.peers = Function.update self.peers worker peer)
    (numbered : after.pool.Numbered) (own : after.pool.heldBy 0 = after.ownChunk.toList)
    (owners : ∀ chunk ∈ after.pool.inFlightChunks,
      chunk.workerId = 0 ∨ ∃ worker : Fin workers, chunk.workerId = nodeId worker)
    (completed : ∀ unit ∈ after.ledger.completed, unit ∈ after.sieved)
    (others : ∀ other, other ≠ worker →
      after.pool.heldBy (nodeId other) = self.pool.heldBy (nodeId other))
    (next : self.pool.nextChunkId ≤ after.pool.nextChunkId) (sieved : self.sieved ⊆ after.sieved)
    (tracks : peer.Tracks (after.pool.heldBy (nodeId worker)))
    (related : relation (after.pool.heldBy (nodeId worker))
      after.pool.nextChunkId after.sieved peer) : after.Invariant relation := by
  apply invariant.carry preserved numbered own owners completed next sieved
  intro other
  rw [peers]
  by_cases same : other = worker
  · rw [same, Function.update_self]
    exact Or.inr ⟨tracks, related⟩
  · rw [Function.update_of_ne same]
    exact Or.inl ⟨rfl, others other same⟩

theorem Invariant.setPeer (invariant : self.Invariant relation) {peer : Peer}
    (tracks : peer.Tracks (self.pool.heldBy (nodeId worker)))
    (related : relation (self.pool.heldBy (nodeId worker)) self.pool.nextChunkId self.sieved peer) :
    (self.setPeer worker peer).Invariant relation :=
  invariant.frame preserved rfl invariant.numbered invariant.own invariant.owners
    invariant.completed (fun _ _ => rfl) (Nat.le_refl _) (List.Subset.refl _) tracks
    related

theorem Invariant.release (invariant : self.Invariant relation) {chunk : CheckedOutWork}
    (held : self.pool.heldBy (nodeId worker) = [chunk]) {ledger : Ledger}
    (released : ledger.pool.inFlightChunks =
      self.pool.inFlightChunks.eraseP (·.chunkId == chunk.chunkId))
    (next : ledger.pool.nextChunkId = self.pool.nextChunkId)
    (completed : ∀ unit ∈ ledger.completed, unit ∈ self.sieved) {peer : Peer}
    (tracks : peer.Tracks []) (related : relation [] self.pool.nextChunkId self.sieved peer) :
    (Cluster.setPeer { self with ledger := ledger } worker peer).Invariant
      relation := by
  have sublist : ledger.pool.inFlightChunks.Sublist self.pool.inFlightChunks := by
    rw [released]
    exact List.eraseP_sublist
  have heldAfter := invariant.numbered.heldBy_release held released
  have mine : ledger.pool.heldBy (nodeId worker) = [] := by
    rw [heldAfter, if_pos rfl]
  refine invariant.frame preserved rfl
    (invariant.numbered.of_sublist sublist next) ?_
    (fun item member => invariant.owners item (sublist.subset member)) completed ?_
    next.ge (List.Subset.refl _) (mine.symm ▸ tracks) ?_
  · exact (heldAfter 0).trans
      ((if_neg (nodeId_ne_zero worker).symm).trans invariant.own)
  · intro other different
    exact (heldAfter _).trans
      (if_neg fun equal => different (nodeId_injective equal))
  · change relation (ledger.pool.heldBy (nodeId worker)) ledger.pool.nextChunkId
      self.sieved peer
    rw [mine, next]
    exact related

theorem Invariant.chunkComplete (invariant : self.Invariant relation)
    (guarded : guard (self.peers worker)) (alive : (self.peers worker).alive = true)
    {chunkId consumed : Nat} {rest : List ReportFrame}
    (frame : (self.peers worker).toCoordinator = .chunkComplete chunkId consumed :: rest) :
    (self.chunkComplete worker chunkId consumed rest).Invariant relation := by
  have tracks := invariant.tracks worker
  have related := invariant.related worker
  have handled := preserved.handled related tracks guarded alive frame
  have idle : Peer.Tracks [] { self.peers worker with
      currentChunkId := idleChunk, toCoordinator := rest } := Peer.Tracks.ofIdle rfl
  rw [Cluster.chunkComplete]
  by_cases untracked : (self.peers worker).Untracked
  · rw [if_neg fun both => both.2 untracked]
    have none := tracks.untracked untracked
    exact invariant.setPeer preserved (none.symm ▸ idle) (none.symm ▸ handled)
  · rcases tracks.tracked untracked with ⟨chunk, held, named⟩
    rcases preserved.completed related tracks guarded alive frame untracked with
      ⟨same, consumedSieved⟩
    have member : chunk ∈ self.pool.inFlightChunks :=
      (mem_heldBy.mp (held ▸ List.mem_singleton_self chunk)).1
    rw [if_pos ⟨same, untracked⟩]
    rw [same] at named
    subst named
    have found : self.ledger.pool.findChunk chunk.chunkId = some chunk :=
      invariant.numbered.findChunk member
    have effect := reclaimPartial_inFlight self.pool chunk.chunkId consumed
    apply invariant.release preserved held effect.1 effect.2 _ idle handled
    intro unit completed
    simp only [Ledger.apply, found, Option.map_some, Option.toList_some] at completed
    rcases List.mem_append.mp completed with old | new
    · exact invariant.completed unit old
    · rw [List.mem_singleton.mp new]
      exact consumedSieved chunk (held ▸ List.mem_singleton_self chunk)

theorem Invariant.chunkRequest (invariant : self.Invariant relation)
    (guarded : guard (self.peers worker)) (alive : (self.peers worker).alive = true)
    {rest : List ReportFrame} (frame : (self.peers worker).toCoordinator = .chunkRequest :: rest) :
    (self.chunkRequest worker rest).Invariant relation := by
  have tracks := invariant.tracks worker
  have handled := preserved.handled (invariant.related worker) tracks guarded alive frame
  have idle : Peer.Tracks [] { self.peers worker with
      currentChunkId := idleChunk, toCoordinator := rest } := Peer.Tracks.ofIdle rfl
  rw [Cluster.chunkRequest]
  by_cases untracked : (self.peers worker).Untracked
  · rw [if_neg fun tracked => tracked untracked]
    have none := tracks.untracked untracked
    exact invariant.setPeer preserved (none.symm ▸ idle) (none.symm ▸ handled)
  · rcases tracks.tracked untracked with ⟨chunk, held, named⟩
    rw [if_pos untracked, ← named]
    have effect := returnChunk_inFlight self.pool chunk.chunkId
    apply invariant.release preserved held effect.1 effect.2 _ idle handled
    exact invariant.completed

end

/-- A dispatch leaves the chunks in flight alone, or tracks a fresh one for an
idle peer. -/
theorem assignChunkTo_cases (numbered : self.pool.Numbered)
    (ids : self.pool.nextChunkId < kInitialChunk) (worker : Fin workers)
    (dispatch : Dispatch) :
    ∃ ledger : Ledger, ledger.completed = self.ledger.completed ∧
      (self.assignChunkTo worker dispatch = { self with ledger := ledger } ∧
          ledger.pool.inFlightChunks = self.pool.inFlightChunks ∧
          self.pool.nextChunkId ≤ ledger.pool.nextChunkId ∨
        ∃ unit, (self.peers worker).currentChunkId = idleChunk ∧
          self.assignChunkTo worker dispatch =
            Cluster.setPeer { self with ledger := ledger } worker
              { self.peers worker with
                currentChunkId := self.pool.nextChunkId
                toWorker := (self.peers worker).toWorker ++
                  [.chunkAssign ⟨self.pool.nextChunkId, unit⟩] } ∧
          ledger.pool.inFlightChunks = self.pool.inFlightChunks ++
            [⟨self.pool.nextChunkId, unit, nodeId worker⟩] ∧
          ledger.pool.nextChunkId = self.pool.nextChunkId + 1) := by
  rw [Cluster.assignChunkTo]
  dsimp only
  split
  next busy => exact ⟨self.ledger, rfl, Or.inl ⟨rfl, rfl, Nat.le_refl _⟩⟩
  next idle =>
    split
    next stopped => exact ⟨self.ledger, rfl, Or.inl ⟨rfl, rfl, Nat.le_refl _⟩⟩
    next pending =>
      rcases checkoutWork_tracks self.pool dispatch.nextChunkSize (nodeId worker) with
        refused | ⟨unit, issued, inFlight, next⟩
      · rw [refused]
        exact ⟨self.ledger, rfl, Or.inl ⟨rfl, rfl, Nat.le_refl _⟩⟩
      · rw [issued]
        dsimp only
        rw [Nat.mod_eq_of_lt (by simp only [kInitialChunk] at ids; omega)] at next
        split
        next sent =>
          exact ⟨self.ledger.apply (.checkoutWork dispatch.nextChunkSize (nodeId worker)),
            rfl, Or.inr ⟨unit, Classical.not_not.mp idle, rfl, inFlight, next⟩⟩
        next failed =>
          have effect := returnChunk_inFlight
            (self.pool.checkoutWork dispatch.nextChunkSize (nodeId worker)).2
            self.pool.nextChunkId
          rw [inFlight, numbered.eraseP_fresh, next] at effect
          exact ⟨(self.ledger.apply (.checkoutWork dispatch.nextChunkSize
              (nodeId worker))).apply (.returnChunk self.pool.nextChunkId),
            rfl, Or.inl ⟨rfl, effect.1, (Nat.le_succ _).trans_eq effect.2.symm⟩⟩

section

variable (preserved : Peer.Preserved guard relation) (invariant : self.Invariant relation)

include preserved invariant

/-- One dispatch tracks a fresh chunk for an idle peer, or none. -/
theorem Invariant.assignChunkTo (alive : (self.peers worker).alive = true)
    (ids : self.pool.nextChunkId < kInitialChunk) (dispatch : Dispatch) :
    (self.assignChunkTo worker dispatch).Invariant relation := by
  rcases assignChunkTo_cases invariant.numbered ids worker dispatch with
    ⟨ledger, completed, ⟨result, inFlight, next⟩ | ⟨unit, idle, result, inFlight, next⟩⟩
  · rw [result]
    have same := heldBy_congr inFlight
    refine invariant.carry preserved ?_ ((same 0).trans invariant.own)
      (inFlight.symm ▸ invariant.owners) (completed.symm ▸ invariant.completed) next
      (List.Subset.refl _) fun other => Or.inl ⟨rfl, same _⟩
    constructor
    · exact inFlight.symm ▸ invariant.numbered.distinct
    · intro chunk member
      exact (invariant.numbered.below chunk (inFlight ▸ member)).trans_le next
  · rw [result]
    have held := fun node => heldBy_append inFlight node
    have none : self.pool.heldBy (nodeId worker) = [] :=
      (invariant.tracks worker).untracked (Or.inl idle)
    have mine := held (nodeId worker)
    rw [if_pos rfl, none, List.nil_append] at mine
    have related := invariant.related worker
    rw [none] at related
    refine invariant.frame preserved rfl (invariant.numbered.track rfl inFlight next) ?_ ?_
      (completed.symm ▸ invariant.completed) ?_ (next.symm ▸ Nat.le_succ _)
      (List.Subset.refl _) ?_ ?_
    · exact ((held 0).trans (by
        rw [if_neg (nodeId_ne_zero worker), List.append_nil])).trans invariant.own
    · intro chunk member
      rcases List.mem_append.mp (inFlight ▸ member) with member | member
      · exact invariant.owners chunk member
      · rw [List.mem_singleton.mp member]
        exact Or.inr ⟨worker, rfl⟩
    · intro other different
      exact (held _).trans (by
        rw [if_neg fun equal => different (nodeId_injective equal).symm, List.append_nil])
    · refine mine.symm ▸ ⟨fun untracked => ?_, fun _ => ⟨_, rfl, rfl⟩,
        fun dead => nomatch alive.symm.trans dead⟩
      simp only [Peer.Untracked, idleChunk, kInitialChunk] at untracked ids
      omega
    · have assigned := preserved.assigned unit (nodeId worker) related alive idle
      rw [← next] at assigned
      exact mine.symm ▸ assigned

theorem Invariant.receive (guarded : guard (self.peers worker))
    (ids : self.pool.nextChunkId < kInitialChunk) (dispatch : Dispatch) :
    (self.receive worker dispatch).Invariant relation := by
  rw [Cluster.receive]
  by_cases alive : (self.peers worker).alive = true
  · rw [if_pos alive]
    split
    next empty => exact invariant
    next chunkId consumed rest frame =>
      have handled := invariant.chunkComplete preserved guarded alive frame
      apply handled.assignChunkTo preserved _ _ dispatch
      · rw [Cluster.chunkComplete, peers_setPeer]
        exact alive
      · rw [Cluster.chunkComplete]
        split
        · exact (reclaimPartial_inFlight self.pool chunkId consumed).2.symm ▸ ids
        · exact ids
    next rest frame =>
      have handled := invariant.chunkRequest preserved guarded alive frame
      apply handled.assignChunkTo preserved _ _ dispatch
      · rw [Cluster.chunkRequest, peers_setPeer]
        exact alive
      · rw [Cluster.chunkRequest]
        split
        · exact (returnChunk_inFlight self.pool _).2.symm ▸ ids
        · exact ids
  · rw [if_neg alive]
    exact invariant

theorem Invariant.heartbeatTimeout (worker : Fin workers) :
    (self.heartbeatTimeout worker).Invariant relation := by
  have tracks := invariant.tracks worker
  have timedOut := preserved.timedOut (invariant.related worker)
  have idle : Peer.Tracks [] { self.peers worker with
      alive := false, currentChunkId := idleChunk } := Peer.Tracks.ofIdle rfl
  rw [Cluster.heartbeatTimeout]
  dsimp only
  split
  next alive =>
    by_cases untracked : (self.peers worker).Untracked
    · rw [if_neg fun tracked => tracked untracked]
      have none := tracks.untracked untracked
      exact invariant.setPeer preserved (none.symm ▸ idle) (none.symm ▸ timedOut)
    · rw [if_pos untracked]
      have heldAfter : ∀ node, (self.pool.reclaimWork (nodeId worker)).2.heldBy node =
          if node = nodeId worker then [] else self.pool.heldBy node :=
        heldBy_reclaimWork self.pool (nodeId worker)
      have mine := (heldAfter (nodeId worker)).trans (if_pos rfl)
      have sublist : (self.pool.reclaimWork (nodeId worker)).2.inFlightChunks.Sublist
          self.pool.inFlightChunks := List.filter_sublist
      refine invariant.frame preserved rfl (invariant.numbered.of_sublist sublist rfl) ?_
        (fun chunk member => invariant.owners chunk (sublist.subset member))
        invariant.completed ?_ (Nat.le_refl _) (List.Subset.refl _)
        (mine.symm ▸ idle) (mine.symm ▸ timedOut)
      · exact (heldAfter 0).trans
          ((if_neg (nodeId_ne_zero worker).symm).trans invariant.own)
      · intro other different
        exact (heldAfter _).trans
          (if_neg fun equal => different (nodeId_injective equal))
  next dead => exact invariant

theorem Invariant.workerCompletes (worker : Fin workers) (consumed : Nat) :
    (self.workerCompletes worker consumed).Invariant relation := by
  have grows := List.subset_append_left self.sieved
    ((self.peers worker).consumedUnit consumed).toList
  refine invariant.frame preserved rfl invariant.numbered invariant.own invariant.owners
    (fun unit member => grows (invariant.completed unit member)) (fun _ _ => rfl)
    (Nat.le_refl _) grows ?_ (preserved.reported consumed (invariant.related worker))
  apply (invariant.tracks worker).of_same <;>
    (rw [Peer.sendChunkComplete]; split <;> rfl)

theorem Invariant.selfAssign (ids : self.pool.nextChunkId < kInitialChunk) (size : Nat)
    (targetReached : Bool) : (self.selfAssign size targetReached).Invariant relation := by
  rw [Cluster.selfAssign]
  split
  next stopped => exact invariant
  next idle =>
    have none : self.ownChunk = none := by
      cases own : self.ownChunk with
      | none => rfl
      | some chunk => simp [own] at idle
    rcases checkoutWork_tracks self.pool size 0 with
      refused | ⟨unit, issued, inFlight, next⟩
    · have same : (self.pool.checkoutWork size 0).2 = self.pool := by rw [refused]
      refine invariant.carry preserved (same.symm ▸ invariant.numbered) ?_
        (same.symm ▸ invariant.owners) invariant.completed
        (same.symm ▸ Nat.le_refl _) (List.Subset.refl _)
        fun other => Or.inl ⟨rfl, same.symm ▸ rfl⟩
      rw [refused, ← none]
      exact same.symm ▸ invariant.own
    · rw [Nat.mod_eq_of_lt (by simp only [kInitialChunk] at ids; omega)] at next
      have held := fun node => heldBy_append inFlight node
      refine invariant.carry preserved (invariant.numbered.track rfl inFlight next) ?_ ?_
        invariant.completed (next.symm ▸ Nat.le_succ _) (List.Subset.refl _) ?_
      · rw [issued]
        exact (held 0).trans (by rw [invariant.own, none, if_pos rfl]; rfl)
      · intro chunk member
        rcases List.mem_append.mp (inFlight ▸ member) with member | member
        · exact invariant.owners chunk member
        · rw [List.mem_singleton.mp member]
          exact Or.inl rfl
      · intro other
        exact Or.inl ⟨rfl, (held _).trans (by
          rw [if_neg (nodeId_ne_zero other).symm, List.append_nil])⟩

theorem Invariant.selfComplete (consumed : Nat) :
    (self.selfComplete consumed).Invariant relation := by
  rw [Cluster.selfComplete]
  split
  next none => exact invariant
  next chunk own =>
    have held : self.pool.heldBy 0 = [chunk] := by
      rw [invariant.own, own]
      rfl
    have effect := reclaimPartial_inFlight self.pool chunk.chunkId consumed
    have heldAfter := invariant.numbered.heldBy_release held effect.1
    have sublist : (self.pool.reclaimPartial chunk.chunkId consumed).inFlightChunks.Sublist
        self.pool.inFlightChunks := by
      rw [effect.1]
      exact List.eraseP_sublist
    have member : chunk ∈ self.pool.inFlightChunks :=
      (mem_heldBy.mp (held ▸ List.mem_singleton_self chunk)).1
    have found : self.ledger.pool.findChunk chunk.chunkId = some chunk :=
      invariant.numbered.findChunk member
    refine invariant.carry preserved (invariant.numbered.of_sublist sublist effect.2)
      ((heldAfter 0).trans (if_pos rfl))
      (fun item member => invariant.owners item (sublist.subset member)) ?_
      effect.2.ge (List.subset_append_left _ _)
      fun other => Or.inl ⟨rfl, (heldAfter _).trans (if_neg (nodeId_ne_zero other))⟩
    intro unit completed
    simp only [Cluster.apply, Ledger.apply, found, Option.map_some, Option.toList_some]
      at completed
    rcases List.mem_append.mp completed with old | new
    · exact List.mem_append_left _ (invariant.completed unit old)
    · exact List.mem_append_right _ new

end

def Handles (guard : Peer → Prop) (self : Cluster workers) : Event workers → Prop
  | .receive worker _ => guard (self.peers worker)
  | _ => True

instance [DecidablePred guard] (self : Cluster workers) (event : Event workers) :
    Decidable (self.Handles guard event) :=
  match event with
  | .receive worker _ => inferInstanceAs (Decidable (guard (self.peers worker)))
  | .idleSweep .. | .heartbeatTimeout .. | .checkStraggler .. | .ioThreadReceive ..
  | .tryTakeChunkAssign .. | .workerCompletes .. | .sendChunkRequest ..
  | .selfAssign .. | .selfComplete .. => isTrue trivial

theorem Invariant.step (preserved : Peer.Preserved guard relation)
    (invariant : self.Invariant relation) {event : Event workers}
    (ids : self.HasChunkIds event) (handles : self.Handles guard event) :
    (self.step event).Invariant relation := by
  cases event with
  | receive worker dispatch => exact invariant.receive preserved handles (ids rfl) dispatch
  | idleSweep worker dispatch =>
    rw [Cluster.step, Cluster.idleSweep]
    split
    next alive => exact invariant.assignChunkTo preserved alive (ids rfl) dispatch
    next dead => exact invariant
  | heartbeatTimeout worker => exact invariant.heartbeatTimeout preserved worker
  | checkStraggler worker chunkId =>
    exact invariant.setPeer preserved ((invariant.tracks worker).of_same rfl rfl)
      (preserved.recalled chunkId (invariant.related worker))
  | ioThreadReceive worker =>
    refine invariant.setPeer preserved ?_ (preserved.received (invariant.related worker))
    apply (invariant.tracks worker).of_same <;>
      (rw [Peer.ioThreadReceive]; split <;> rfl)
  | tryTakeChunkAssign worker =>
    refine invariant.setPeer preserved ?_ (preserved.taken (invariant.related worker))
    apply (invariant.tracks worker).of_same <;>
      (rw [Peer.tryTakeChunkAssign]; split <;> rfl)
  | workerCompletes worker consumed =>
    exact invariant.workerCompletes preserved worker consumed
  | sendChunkRequest worker =>
    refine invariant.setPeer preserved ?_ (preserved.requested (invariant.related worker))
    apply (invariant.tracks worker).of_same <;>
      (rw [Peer.sendChunkRequest]; split <;> rfl)
  | selfAssign size targetReached =>
    exact invariant.selfAssign preserved (ids rfl) size targetReached
  | selfComplete consumed => exact invariant.selfComplete preserved consumed

/-! ## Conservation -/

theorem assignChunkTo_conserves {aStart aEnd : Nat}
    (conserves : self.ledger.Conserves aStart aEnd) (worker : Fin workers)
    (dispatch : Dispatch) :
    (self.assignChunkTo worker dispatch).ledger.Conserves aStart aEnd := by
  rw [Cluster.assignChunkTo]
  dsimp only
  split
  next busy => exact conserves
  next idle =>
    split
    next stopped => exact conserves
    next pending =>
      have taken := Ledger.apply_conserves self.ledger
        (.checkoutWork dispatch.nextChunkSize (nodeId worker)) conserves
      split
      next refused => exact conserves
      next checkout issued =>
        split
        next sent => exact taken
        next failed => exact Ledger.apply_conserves _ (.returnChunk checkout.chunkId) taken

theorem step_conserves {aStart aEnd : Nat}
    (conserves : self.ledger.Conserves aStart aEnd) (event : Event workers) :
    (self.step event).ledger.Conserves aStart aEnd := by
  cases event with
  | receive worker dispatch =>
    rw [step, Cluster.receive]
    split
    next alive =>
      split
      next empty => exact conserves
      next chunkId consumed rest frame =>
        apply assignChunkTo_conserves
        rw [Cluster.chunkComplete, ledger_setPeer]
        split
        · exact Ledger.apply_conserves _ (.reclaimPartial chunkId consumed) conserves
        · exact conserves
      next rest frame =>
        apply assignChunkTo_conserves
        rw [Cluster.chunkRequest, ledger_setPeer]
        split
        · exact Ledger.apply_conserves _ (.returnChunk _) conserves
        · exact conserves
    next dead => exact conserves
  | idleSweep worker dispatch =>
    rw [step, Cluster.idleSweep]
    split
    · exact assignChunkTo_conserves conserves worker dispatch
    · exact conserves
  | heartbeatTimeout worker =>
    rw [step, Cluster.heartbeatTimeout]
    dsimp only
    split
    next alive =>
      rw [ledger_setPeer]
      split
      · exact Ledger.apply_conserves _ (.reclaimWork (nodeId worker)) conserves
      · exact conserves
    next dead => exact conserves
  | selfAssign size targetReached =>
    rw [step, Cluster.selfAssign]
    split
    · exact conserves
    · exact Ledger.apply_conserves _ (.checkoutWork size 0) conserves
  | selfComplete consumed =>
    rw [step, Cluster.selfComplete]
    split
    next none => exact conserves
    next chunk own =>
      exact Ledger.apply_conserves _ (.reclaimPartial chunk.chunkId consumed) conserves
  | checkStraggler | ioThreadReceive | tryTakeChunkAssign | workerCompletes
  | sendChunkRequest => exact conserves

theorem run_conserves (aStart totalA unitSize : Nat) (events : List (Event workers)) :
    (Transition.run step (start aStart totalA unitSize) events).ledger.Conserves
      aStart (create aStart totalA unitSize).endCursor :=
  Transition.run_invariant
    (fun (self : Cluster workers) event
      (conserves : self.ledger.Conserves aStart _) => step_conserves conserves event)
    (create_conserves aStart totalA unitSize) events

end Cluster

end CudaMpqs
