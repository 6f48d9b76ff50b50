import CudaMpqs.Lingen.KrylovRecurrence

/-! # The batches of the Krylov recurrence

A batch is safe if its graph starts at the current buffer, or if starting elsewhere
changes nothing. A safe batch takes the right snapshots and leaves a safe state; one
that is replayed from the other buffer repeats a vector. -/

namespace CudaMpqs.Lingen

variable {rows n : Nat} {captures : Captures}
  {B : Block rows rows} {Z : Block rows n} {batchSize length batchIdx : Nat}

namespace Recurrence

variable {state : Recurrence rows n} {slots : Nat → Block rows n}

/-! ## Batches -/

def Quiet (captures : Captures) (batchSize length batchIdx : Nat)
    (state : Recurrence rows n) : Prop :=
  state.useCudaGraph = false ∨ batchSize < 2 ∨ length < (batchIdx + 1) * batchSize ∨
    state.innerLoop = none ∧ captures.innerLoop = false

/-- The graph starts at the current buffer, and no later batch is replayed from the
other one. -/
def Aligned (captures : Captures) (batchSize length batchIdx : Nat)
    (state : Recurrence rows n) : Prop :=
  (∀ captured ∈ state.innerLoop, captured = state.dV) ∧
    (batchSize % 2 = 0 ∨ length < (batchIdx + 2) * batchSize ∨
      captures.batchTail (batchIdx % 2) = false ∧ state.batchTail (batchIdx % 2) = false)

inductive Safe (captures : Captures) (B : Block rows rows) (Z : Block rows n)
    (batchSize length batchIdx : Nat) (state : Recurrence rows n) : Prop where
  | quiet (quiet : Quiet captures batchSize length batchIdx state)
  | aligned (aligned : Aligned captures batchSize length batchIdx state)
  | repeats (periodic : Periodic B Z (batchIdx * batchSize))
  | repeatsNext (aligned : ∀ captured ∈ state.innerLoop, captured = state.dV)
      (periodic : Periodic B Z ((batchIdx + 1) * batchSize))
  | ends (short : length ≤ batchIdx * batchSize + 2)

/-- A batch runs directly, or in a graph that was there or is captured now. -/
theorem innerLoopStep_cases (tStart : Nat) :
    let count := min batchSize (length - tStart)
    let after := innerLoopStep captures B batchSize length tStart (state, slots)
    (¬(state.useCudaGraph ∧ count = batchSize ∧ 2 ≤ count) ∧
        after = directLoop B length tStart count (state, slots)) ∨
      (state.innerLoop = none ∧ captures.innerLoop = false ∧
        after = directLoop B length tStart count
          ({ state with useCudaGraph := false }, slots)) ∨
      (count = batchSize ∧ 2 ≤ count ∧ state.useCudaGraph = true ∧ ∃ captured,
        (state.innerLoop = some captured ∨
          state.innerLoop = none ∧ captures.innerLoop = true ∧ captured = state.dV) ∧
        after = graphLoop B captured count
          ({ state with innerLoop := some captured }, slots)) := by
  intro count after
  by_cases replayable : state.useCudaGraph ∧ count = batchSize ∧ 2 ≤ count
  · have stepped : after = _ := if_pos replayable
    refine .inr ?_
    cases graph : state.innerLoop with
    | some captured =>
      refine .inr ⟨replayable.2.1, replayable.2.2, replayable.1, captured, .inl rfl, ?_⟩
      have same : { state with innerLoop := some captured } = state := by
        rw [← graph]
      rw [stepped, same]
      dsimp only
      rw [graph, Option.isNone_some, if_neg Bool.false_ne_true, graph]
    | none =>
      rw [graph, Option.isNone_none, if_pos rfl, captureInnerLoop] at stepped
      cases success : captures.innerLoop with
      | true =>
        rw [success, if_pos rfl] at stepped
        exact .inr ⟨replayable.2.1, replayable.2.2, replayable.1, state.dV,
          .inr ⟨rfl, rfl, rfl⟩, stepped⟩
      | false =>
        rw [success, if_neg Bool.false_ne_true] at stepped
        dsimp only at stepped
        rw [graph] at stepped
        exact .inl ⟨rfl, rfl, stepped⟩
  · exact .inl ⟨replayable, if_neg replayable⟩

theorem captureBatchTail_frame (count bufIdx : Nat) :
    let tailed := state.captureBatchTail captures batchSize count bufIdx
    tailed.vector = state.vector ∧ tailed.dV = state.dV ∧ tailed.innerLoop = state.innerLoop ∧
      (state.useCudaGraph = false → tailed.useCudaGraph = false) ∧
      (count = batchSize → captures.batchTail bufIdx = false →
        state.batchTail bufIdx = false → tailed.useCudaGraph = false) := by
  intro tailed
  by_cases fresh : state.useCudaGraph ∧ count = batchSize ∧ state.batchTail bufIdx = false
  · cases success : captures.batchTail bufIdx with
    | true =>
      have same : tailed = _ := (if_pos fresh).trans (if_pos success)
      rw [same]
      exact ⟨rfl, rfl, rfl, id, fun _ impossible => nomatch impossible⟩
    | false =>
      have same : tailed = _ :=
        (if_pos fresh).trans (if_neg (by rw [success]; exact Bool.false_ne_true))
      rw [same]
      exact ⟨rfl, rfl, rfl, fun _ => rfl, fun _ _ _ => rfl⟩
  · have same : tailed = state := if_neg fresh
    rw [same]
    refine ⟨rfl, rfl, rfl, id, fun full _ none => ?_⟩
    by_contra enabled
    exact fresh ⟨Bool.of_not_eq_false enabled, full, none⟩

theorem holds_captureBatchTail {j : Nat} (holds : HoldsPower B Z j state) (count bufIdx : Nat) :
    HoldsPower B Z j (state.captureBatchTail captures batchSize count bufIdx) := by
  have frame := @captureBatchTail_frame _ _ captures batchSize state count bufIdx
  exact holds.congr frame.1 frame.2.1

def nextBatch (captures : Captures) (B : Block rows rows) (batchSize length batchIdx : Nat)
    (state : Recurrence rows n) (slots : Nat → Block rows n) : Recurrence rows n :=
  (innerLoopStep captures B batchSize length (batchIdx * batchSize) (state, slots)).1
    |>.captureBatchTail captures batchSize (min batchSize (length - batchIdx * batchSize))
      (batchIdx % 2)

theorem nextBatch_holds {started : Recurrence rows n}
    (advanced : Advanced B Z (batchIdx * batchSize) batchSize started
      (innerLoopStep captures B batchSize length (batchIdx * batchSize) (state, slots))) :
    HoldsPower B Z ((batchIdx + 1) * batchSize)
      (nextBatch captures B batchSize length batchIdx state slots) := by
  rw [Nat.succ_mul]
  exact holds_captureBatchTail advanced.holds _ _

theorem nextBatch_quiet {j count : Nat} {started : Recurrence rows n}
    (advanced : Advanced B Z j count started
      (innerLoopStep captures B batchSize length (batchIdx * batchSize) (state, slots)))
    (off : started.useCudaGraph = false) :
    Safe captures B Z batchSize length (batchIdx + 1)
      (nextBatch captures B batchSize length batchIdx state slots) :=
  .quiet (.inl (captureBatchTail_frame _ _ |>.2.2.2.1 (advanced.graphs.useCudaGraph.trans off)))

theorem Quiet.not_replayed {captured : Bool}
    (quiet : Quiet captures batchSize length batchIdx state)
    (enabled : state.useCudaGraph = true) (long : 2 ≤ batchSize)
    (full : (batchIdx + 1) * batchSize ≤ length) :
    ¬(state.innerLoop = some captured ∨
      state.innerLoop = none ∧ captures.innerLoop = true ∧ captured = state.dV) := by
  rintro (graph | ⟨missing, success, _⟩)
  · rcases quiet with off | small | last | ⟨missing, _⟩
    · exact nomatch enabled.symm.trans off
    · omega
    · omega
    · exact nomatch graph.symm.trans missing
  · rcases quiet with off | small | last | ⟨_, failing⟩
    · exact nomatch enabled.symm.trans off
    · omega
    · omega
    · exact nomatch success.symm.trans failing

/-- A replayed batch after which another one follows leaves a safe state. -/
theorem nextBatch_replayed {captured : Bool}
    (safe : Safe captures B Z batchSize length batchIdx state)
    (enabled : state.useCudaGraph = true) (long : 2 ≤ batchSize)
    (known : state.innerLoop = some captured ∨
      state.innerLoop = none ∧ captures.innerLoop = true ∧ captured = state.dV)
    (more : (batchIdx + 1) * batchSize < length)
    (replayed : (innerLoopStep captures B batchSize length (batchIdx * batchSize)
      (state, slots)).1.innerLoop = some captured)
    (swapped : (innerLoopStep captures B batchSize length (batchIdx * batchSize)
      (state, slots)).1.dV = if batchSize % 2 ≠ 0 then !state.dV else state.dV)
    (tails : (innerLoopStep captures B batchSize length (batchIdx * batchSize)
      (state, slots)).1.batchTail = state.batchTail) :
    Safe captures B Z batchSize length (batchIdx + 1)
      (nextBatch captures B batchSize length batchIdx state slots) := by
  have next : (batchIdx + 1) * batchSize = batchIdx * batchSize + batchSize :=
    Nat.succ_mul _ _
  have count : min batchSize (length - batchIdx * batchSize) = batchSize := by omega
  have frame := @captureBatchTail_frame _ _ captures batchSize
    (innerLoopStep captures B batchSize length (batchIdx * batchSize) (state, slots)).1
    (min batchSize (length - batchIdx * batchSize)) (batchIdx % 2)
  cases safe with
  | quiet quiet => exact absurd known (quiet.not_replayed enabled long more.le)
  | aligned aligned =>
    have current : captured = state.dV := by
      rcases known with graph | ⟨_, _, same⟩
      · exact aligned.1 captured graph
      · exact same
    rcases aligned.2 with even | last | ⟨failing, missing⟩
    · refine .aligned ⟨?_, .inl even⟩
      intro other same
      rw [nextBatch, frame.2.2.1, replayed, Option.mem_some_iff] at same
      rw [nextBatch, frame.2.1, swapped, if_neg (not_not.mpr even), ← same, current]
    · exact .quiet (.inr (.inr (.inl last)))
    · exact .quiet (.inl (frame.2.2.2.2 count failing ((congrFun tails _).trans missing)))
  | repeats periodic => exact .repeats (periodic.mono (by omega))
  | repeatsNext _ periodic => exact .repeats periodic
  | ends short => omega

/-- A safe batch has the right snapshots and leaves a safe state to the next one. -/
theorem innerLoopStep_safe (holds : HoldsPower B Z (batchIdx * batchSize) state)
    (safe : Safe captures B Z batchSize length batchIdx state)
    (started : batchIdx * batchSize < length) :
    SlotsFrom B Z (batchIdx * batchSize) (min batchSize (length - batchIdx * batchSize))
        (innerLoopStep captures B batchSize length (batchIdx * batchSize) (state, slots)).2 ∧
      ((batchIdx + 1) * batchSize < length → HoldsPower B Z ((batchIdx + 1) * batchSize)
            (nextBatch captures B batchSize length batchIdx state slots) ∧
          Safe captures B Z batchSize length (batchIdx + 1)
            (nextBatch captures B batchSize length batchIdx state slots)) := by
  have next : (batchIdx + 1) * batchSize = batchIdx * batchSize + batchSize :=
    Nat.succ_mul _ _
  have full : (batchIdx + 1) * batchSize < length →
      min batchSize (length - batchIdx * batchSize) = batchSize := by omega
  have inside : batchIdx * batchSize + min batchSize (length - batchIdx * batchSize) ≤
      length := by omega
  rcases @innerLoopStep_cases _ _ captures B batchSize length state slots
      (batchIdx * batchSize) with
    ⟨direct, same⟩ | ⟨missing, failing, same⟩ |
    ⟨count, long, enabled, captured, known, same⟩
  · have advanced := @directLoop_advanced _ _ _ _ _ _ slots holds length _ _ inside
    rw [← same] at advanced
    refine ⟨advanced.slots, fun more => ?_⟩
    rw [full more] at advanced direct
    refine ⟨nextBatch_holds advanced, ?_⟩
    cases enabled : state.useCudaGraph with
    | false => exact nextBatch_quiet advanced enabled
    | true =>
      rw [enabled] at direct
      exact .quiet (.inr (.inl (by simpa using direct)))
  · have holdsOff : HoldsPower B Z (batchIdx * batchSize)
        { state with useCudaGraph := false } := holds.congr rfl rfl
    have advanced := @directLoop_advanced _ _ _ _ _ _ slots holdsOff length _ _ inside
    rw [← same] at advanced
    refine ⟨advanced.slots, fun more => ?_⟩
    rw [full more] at advanced
    exact ⟨nextBatch_holds advanced, nextBatch_quiet advanced rfl⟩
  · have holdsGraph : HoldsPower B Z (batchIdx * batchSize)
        { state with innerLoop := some captured } := holds.congr rfl rfl
    by_cases straight : captured = state.dV ∨ Periodic B Z (batchIdx * batchSize)
    · have advanced := @graphLoop_advanced _ _ _ _ _ _ slots holdsGraph _ straight
        (min batchSize (length - batchIdx * batchSize))
      rw [← same] at advanced
      refine ⟨advanced.1.slots, fun more => ?_⟩
      rw [full more] at advanced long
      exact ⟨nextBatch_holds advanced.1, nextBatch_replayed safe enabled long known more
        advanced.1.graphs.innerLoop advanced.2 advanced.1.graphs.batchTail⟩
    · rw [not_or] at straight
      have short : length ≤ batchIdx * batchSize + 2 := by
        have frozen : ¬∀ other ∈ state.innerLoop, other = state.dV := by
          intro aligned
          rcases known with graph | ⟨_, _, current⟩
          · exact straight.1 (aligned captured graph)
          · exact straight.1 current
        cases safe with
        | quiet quiet => exact absurd known (quiet.not_replayed enabled (by omega) (by omega))
        | aligned aligned => exact absurd aligned.1 frozen
        | repeats periodic => exact absurd periodic straight.2
        | repeatsNext aligned _ => exact absurd aligned frozen
        | ends short => exact short
      have two : min batchSize (length - batchIdx * batchSize) = 2 := by omega
      rw [same, two]
      exact ⟨(graphLoop_pair holdsGraph captured).1, fun more => by omega⟩

/-! ## Repeated vectors -/

private theorem directTurn_slots (after : Recurrence rows n × (Nat → Block rows n))
    (tStart i : Nat) :
    (if tStart + i < length then directStep B after i
      else (after.1, Function.update after.2 i (after.1.vector after.1.dV))).2 =
      Function.update after.2 i (after.1.vector after.1.dV) := by
  split <;> rfl

theorem directLoop_slot_zero (tStart count : Nat) :
    (directLoop B length tStart (count + 1) (state, slots)).2 0 = state.vector state.dV := by
  unfold directLoop
  induction count with
  | zero =>
    rw [List.range_one, List.foldl_cons, List.foldl_nil, directTurn_slots, Function.update_self]
  | succ count induction =>
    rw [List.range_succ, List.foldl_append, List.foldl_cons, List.foldl_nil,
      directTurn_slots, Function.update_of_ne (by omega), induction]

private theorem pairs_slot_zero (captured : Bool) (pairs : Nat) :
    ((List.range (pairs + 1)).foldl (pairStep B captured) (state, slots)).2 0 =
      state.vector state.dV := by
  induction pairs with
  | zero => exact pairStep_slot captured (state, slots) 0
  | succ pairs induction =>
    rw [List.range_succ, List.foldl_append, List.foldl_cons, List.foldl_nil,
      pairStep_slot_of_lt captured _ (by omega), induction]

theorem innerLoopStep_slot_zero (tStart : Nat) (nonempty : 0 < batchSize)
    (started : tStart < length) :
    (innerLoopStep captures B batchSize length tStart (state, slots)).2 0 =
      state.vector state.dV := by
  obtain ⟨rest, count⟩ : ∃ rest, min batchSize (length - tStart) = rest + 1 :=
    ⟨min batchSize (length - tStart) - 1, by omega⟩
  rcases @innerLoopStep_cases _ _ captures B batchSize length state slots tStart with
    ⟨_, same⟩ | ⟨_, _, same⟩ | ⟨_, long, _, captured, _, same⟩
  · rw [same, count, directLoop_slot_zero]
  · rw [same, count, directLoop_slot_zero]
  · obtain ⟨pairs, half⟩ : ∃ pairs, min batchSize (length - tStart) / 2 = pairs + 1 :=
      ⟨min batchSize (length - tStart) / 2 - 1, by omega⟩
    rw [same]
    unfold graphLoop
    dsimp only
    rw [half]
    split
    next =>
        unfold directStep
        dsimp only
        rw [Function.update_of_ne (by omega), pairs_slot_zero]
    next => exact pairs_slot_zero captured pairs

/-- A full batch is replayed from where its graph was captured. -/
theorem innerLoopStep_replayed {captured : Bool} (tStart : Nat)
    (enabled : state.useCudaGraph = true) (long : 2 ≤ batchSize)
    (full : tStart + batchSize ≤ length) (graph : state.innerLoop = some captured) :
    innerLoopStep captures B batchSize length tStart (state, slots) =
      graphLoop B captured batchSize (state, slots) := by
  have count : min batchSize (length - tStart) = batchSize := by omega
  unfold innerLoopStep
  dsimp only
  rw [count, if_pos ⟨enabled, rfl, long⟩, graph, Option.isNone_some,
    if_neg Bool.false_ne_true, graph]

end Recurrence

end CudaMpqs.Lingen
