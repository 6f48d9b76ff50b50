import Mathlib.Data.Finset.Sort
import CudaMpqs.Foundation.ThreadTotals
import CudaMpqs.Largeprimes.SlabProbe

/-! # Every readable match happens

A word that a thread may find first is found first in some order of the threads:
its rivals run before it, one after the other, and each purges one slot. -/

namespace CudaMpqs.SlabTable

open Transition Function ThreadTotals

namespace Dispatch

variable {launch : Dispatch} {state : ProbeState launch} {thread : launch.Thread}

/-! ## Settled threads and finishing -/

private theorem probeStep_threads_of_settled (settled : (state.threads thread).Settled)
    (action : launch.Thread × Bool) :
    (probeStep state action).threads thread = state.threads thread := by
  have different : (state.threads action.1).Settled = false → thread ≠ action.1 := by
    rintro unsettled rfl
    rw [unsettled] at settled
    cases settled
  rcases probeStep_cases state action with
    ⟨slot, word, phase, -, ⟨-, equal⟩ | ⟨-, equal⟩⟩ |
      ⟨slot, target, phase, ⟨-, equal⟩ | equal⟩ | ⟨-, equal⟩
  · rw [equal]
    exact update_of_ne (different (by rw [phase]; rfl)) _ _
  · rw [equal]
    exact update_of_ne (different (by rw [phase]; rfl)) _ _
  · rw [equal]
    exact update_of_ne (different (by rw [phase]; rfl)) _ _
  · rw [equal]
    exact update_of_ne (different (by rw [phase]; rfl)) _ _
  · rw [equal]

theorem run_threads_of_settled (settled : (state.threads thread).Settled)
    (schedule : List (launch.Thread × Bool)) :
    (run probeStep state schedule).threads thread = state.threads thread := by
  have preserves : ∀ (reached : ProbeState launch) (action : launch.Thread × Bool),
      reached.threads thread = state.threads thread →
        (probeStep reached action).threads thread = state.threads thread := by
    intro reached action same
    rw [probeStep_threads_of_settled (by rw [same]; exact settled), same]
  exact run_invariant preserves rfl schedule

def ProbeThread.weight : ProbeThread → Nat
  | .scanning slot => 2 + (rowWidthElems - slot)
  | .claiming _ _ => 1
  | _ => 0

theorem weight_probeStep_lt (unsettled : (state.threads thread).Settled = false) :
    total ProbeThread.weight (probeStep state (thread, false)).threads <
      total ProbeThread.weight state.threads := by
  rcases probeStep_cases state (thread, false) with
    ⟨slot, word, phase, -, ⟨-, equal⟩ | ⟨-, equal⟩⟩ |
      ⟨slot, target, phase, ⟨-, equal⟩ | equal⟩ | ⟨settled, -⟩
  · rw [equal]
    apply total_update_lt
    dsimp only at phase
    rw [phase]
    split <;> simp only [ProbeThread.weight] <;> omega
  · rw [equal]
    apply total_update_lt
    dsimp only at phase
    rw [phase]
    split <;> simp only [ProbeThread.weight] <;> omega
  · rw [equal]
    apply total_update_lt
    dsimp only at phase
    rw [phase]
    exact Nat.one_pos
  · rw [equal]
    apply total_update_lt
    dsimp only at phase
    rw [phase]
    exact Nat.one_pos
  · rw [unsettled] at settled
    cases settled

theorem exists_probe_finish (state : ProbeState launch) :
    ∃ schedule, (run probeStep state schedule).Finished := by
  have progress : ∀ reached : ProbeState launch, True → ¬ reached.Finished →
      ∃ action, total ProbeThread.weight (probeStep reached action).threads <
        total ProbeThread.weight reached.threads ∧ True := by
    intro reached _ unfinished
    rcases not_forall.mp unfinished with ⟨thread, unsettled⟩
    exact ⟨(thread, false), weight_probeStep_lt (Bool.eq_false_iff.mpr unsettled), trivial⟩
  rcases exists_run_reaches
    (fun reached : ProbeState launch => total ProbeThread.weight reached.threads)
    progress state trivial with ⟨schedule, finished, -⟩
  exact ⟨schedule, finished⟩

/-! ## One thread alone -/

private theorem solo_scan {slot found : Nat} (scans : state.threads thread = .scanning slot)
    (before : slot ≤ found) (inRow : found < rowWidthElems)
    (differs : ∀ slot', slot ≤ slot' → slot' < found →
      payloadTag (state.slabs (keyRow thread) slot') ≠ tag thread) :
    run probeStep state (List.replicate (found - slot) (thread, false)) =
      state.setThread thread (.scanning found) := by
  generalize steps : found - slot = count
  induction count generalizing state slot with
  | zero =>
    have same : slot = found := by omega
    rw [← same, List.replicate_zero, run_nil, ProbeState.setThread, ← scans, update_eq_self]
  | succ count induction =>
    have here := differs slot (Nat.le_refl slot) (by omega)
    have next : probeStep state (thread, false) =
        state.setThread thread (.scanning (slot + 1)) := by
      rw [probeStep]
      simp only [scans, keyTag_eq, if_neg here, Bool.false_eq_true, if_false]
      rw [if_pos (by omega)]
    have rest := @induction (state.setThread thread (.scanning (slot + 1))) (slot + 1)
      (update_self _ _ _) (by omega)
      (fun slot' le less => differs slot' (by omega) less) (by omega)
    rw [List.replicate_succ, run_cons, next, rest]
    simp only [ProbeState.setThread, update_idem]

theorem solo_match {found : Nat} (scans : state.threads thread = .scanning 0)
    (inRow : found < rowWidthElems)
    (differs : ∀ slot < found, payloadTag (state.slabs (keyRow thread) slot) ≠ tag thread)
    (tagged : payloadTag (state.slabs (keyRow thread) found) = tag thread) :
    ∃ schedule, run probeStep state schedule =
      { slabs := if launch.config.purgeAfterMatch then
            setSlot state.slabs (keyRow thread) found 0
          else state.slabs
        threads := update state.threads thread
          (.matched found (payloadIndex (state.slabs (keyRow thread) found))) } := by
  refine ⟨List.replicate found (thread, false) ++ [(thread, false), (thread, false)], ?_⟩
  have scanned := solo_scan scans (Nat.zero_le found) inRow
    fun slot _ less => differs slot less
  rw [Nat.sub_zero] at scanned
  have current : payload (tag thread)
      (payloadIndex (state.slabs (keyRow thread) found)) =
        state.slabs (keyRow thread) found := by
    rw [← tagged, payload_eta]
  have loads : probeStep (state.setThread thread (.scanning found)) (thread, false) =
      state.setThread thread (if launch.config.purgeAfterMatch then
        .claiming found (payloadIndex (state.slabs (keyRow thread) found))
      else .matched found (payloadIndex (state.slabs (keyRow thread) found))) := by
    rw [probeStep]
    simp only [ProbeState.setThread, update_self, keyTag_eq, Bool.false_eq_true, if_false,
      if_pos tagged, update_idem]
  rw [run_append, scanned, run_cons, run_cons, run_nil, loads]
  cases launch.config.purgeAfterMatch with
  | false =>
    rw [probeStep]
    simp only [ProbeState.setThread, update_self, Bool.false_eq_true, if_false]
  | true =>
    rw [probeStep]
    simp only [ProbeState.setThread, update_self, keyTag_eq, if_true, current, update_idem]

/-! ## The rivals before it -/

/-- Threads that are to purge slots of one row, in the order of the slots. -/
structure Purging (state : ProbeState launch) (row tag' : Nat)
    (todo : List (launch.Thread × Nat)) : Prop where
  threads : (todo.map Prod.fst).Nodup
  slots : (todo.map Prod.snd).Pairwise (· < ·)
  scanning : ∀ pair ∈ todo, state.threads pair.1 = .scanning 0
  inRow : ∀ pair ∈ todo, keyRow pair.1 = row
  tagged : ∀ pair ∈ todo, tag pair.1 = tag'
  slot_lt : ∀ pair ∈ todo, pair.2 < rowWidthElems
  word : ∀ pair ∈ todo, payloadTag (state.slabs row pair.2) = tag'
  earlier : ∀ pair ∈ todo, ∀ slot < pair.2, payloadTag (state.slabs row slot) = tag' →
    slot ∈ todo.map Prod.snd

structure PurgedAll (state reached : ProbeState launch) (row : Nat)
    (todo : List (launch.Thread × Nat)) : Prop where
  threads : ∀ thread ∉ todo.map Prod.fst, reached.threads thread = state.threads thread
  cleared : ∀ slot ∈ todo.map Prod.snd, reached.slabs row slot = 0
  kept : ∀ slot ∉ todo.map Prod.snd, reached.slabs row slot = state.slabs row slot

variable {slot : Nat} {todo : List (launch.Thread × Nat)}

theorem Purging.head {row tag' : Nat} {first : launch.Thread}
    (purging : Purging state row tag' ((first, slot) :: todo)) :
    ∀ slot' < slot, payloadTag (state.slabs row slot') ≠ tag' := by
  intro slot' less tagged
  have listed := purging.earlier (first, slot) List.mem_cons_self slot' less tagged
  rcases List.mem_cons.mp listed with same | later
  · exact absurd less (by rw [same]; exact Nat.lt_irrefl _)
  · have ordered := (List.pairwise_cons.mp purging.slots).1 slot' later
    dsimp only at ordered
    omega

theorem Purging.tail {row tag' : Nat} (nonzero : tag' ≠ 0) {first : launch.Thread}
    {next : ProbeThread} (purging : Purging state row tag' ((first, slot) :: todo)) :
    Purging ⟨setSlot state.slabs row slot 0, update state.threads first next⟩ row tag'
      todo := by
  have fresh := List.nodup_cons.mp purging.threads
  have ordered := List.pairwise_cons.mp purging.slots
  have kept : ∀ slot', slot' ≠ slot →
      setSlot state.slabs row slot 0 row slot' = state.slabs row slot' := by
    intro slot' different
    exact setSlot_other fun same => different same.2
  have later : ∀ pair ∈ todo, pair.2 ≠ slot := by
    intro pair member
    exact Nat.ne_of_gt (ordered.1 pair.2 (List.mem_map_of_mem member))
  constructor
  · exact fresh.2
  · exact ordered.2
  · intro pair member
    have different : pair.1 ≠ first := by
      intro same
      have listed := List.mem_map_of_mem (f := Prod.fst) member
      rw [same] at listed
      exact fresh.1 listed
    exact (update_of_ne different _ _).trans
      (purging.scanning pair (List.mem_cons_of_mem _ member))
  · exact fun pair member => purging.inRow pair (List.mem_cons_of_mem _ member)
  · exact fun pair member => purging.tagged pair (List.mem_cons_of_mem _ member)
  · exact fun pair member => purging.slot_lt pair (List.mem_cons_of_mem _ member)
  · intro pair member
    dsimp only
    rw [kept pair.2 (later pair member)]
    exact purging.word pair (List.mem_cons_of_mem _ member)
  · intro pair member slot' less tagged
    dsimp only at tagged
    have different : slot' ≠ slot := by
      rintro rfl
      rw [setSlot_same] at tagged
      exact nonzero tagged.symm
    rw [kept slot' different] at tagged
    rcases List.mem_cons.mp
        (purging.earlier pair (List.mem_cons_of_mem _ member) slot' less tagged) with
      same | listed
    · exact absurd same different
    · exact listed

theorem exists_purgedAll (purges : launch.config.purgeAfterMatch = true) {row tag' : Nat}
    (nonzero : tag' ≠ 0) (purging : Purging state row tag' todo) :
    ∃ schedule, PurgedAll state (run probeStep state schedule) row todo := by
  induction todo generalizing state with
  | nil =>
    refine ⟨[], ⟨fun _ _ => rfl, ?_, fun _ _ => rfl⟩⟩
    intro slot member
    cases member
  | cons pair todo induction =>
    rcases pair with ⟨first, slot⟩
    have inRow := purging.inRow _ List.mem_cons_self
    dsimp only at inRow
    rcases solo_match (purging.scanning _ List.mem_cons_self)
        (purging.slot_lt _ List.mem_cons_self)
        (by
          rw [inRow, purging.tagged _ List.mem_cons_self]
          exact purging.head)
        (by
          rw [inRow, purging.tagged _ List.mem_cons_self]
          exact purging.word _ List.mem_cons_self) with ⟨alone, reached⟩
    dsimp only at reached
    rw [if_pos purges, inRow] at reached
    have rest : Purging ⟨setSlot state.slabs row slot 0, update state.threads first
        (.matched slot (payloadIndex (state.slabs row slot)))⟩ row tag' todo :=
      purging.tail nonzero
    rcases induction rest with ⟨others, purgedAll⟩
    refine ⟨alone ++ others, ?_⟩
    rw [run_append, reached]
    constructor
    · intro thread absent
      rw [List.map_cons, List.mem_cons, not_or] at absent
      rw [purgedAll.threads thread absent.2]
      exact update_of_ne absent.1 _ _
    · intro slot' member
      by_cases listed : slot' ∈ todo.map Prod.snd
      · exact purgedAll.cleared slot' listed
      · rcases List.mem_cons.mp member with same | later
        · rw [purgedAll.kept slot' listed, same]
          exact setSlot_same _ _ _ _
        · exact absurd later listed
    · intro slot' absent
      rw [List.map_cons, List.mem_cons, not_or] at absent
      rw [purgedAll.kept slot' absent.2]
      exact setSlot_other fun same => absent.1 same.2

/-! ## The match -/

theorem probeStart_threads (probing : fetchedStatus thread = .needsProbe) :
    (probeStart launch).threads thread = .scanning 0 := by
  simp [probeStart, probing]

theorem mem_rivals {tag' : Nat} {rival : launch.Thread} (member : rival ∈ rivals thread tag') :
    rival ≠ thread ∧ fetchedStatus rival = .needsProbe ∧ keyRow rival = keyRow thread ∧
      tag rival = tag' := (Finset.mem_filter.mp member).2

def blocking (thread : launch.Thread) (slot : Nat) : Finset Nat :=
  (Finset.range slot).filter fun slot' => payloadTag (slotWord thread slot') = tag thread

theorem mem_blocking {slot slot' : Nat} : slot' ∈ blocking thread slot ↔
      slot' < slot ∧ payloadTag (slotWord thread slot') = tag thread := by
  rw [blocking, Finset.mem_filter, Finset.mem_range]

/-- The last blocking slot is purgeable, so each blocking slot has a rival. -/
theorem card_blocking_le
    (past : ∀ slot' < slot, ∃ word ∈ readable thread slot', payloadTag word ≠ tag thread)
    (blocked : (blocking thread slot).Nonempty) :
    launch.config.purgeAfterMatch = true ∧ tag thread ≠ 0 ∧
      (blocking thread slot).card ≤ (rivals thread (tag thread)).card := by
  have last := (blocking thread slot).max'_mem blocked
  generalize isLast : (blocking thread slot).max' blocked = lastSlot at last
  rcases mem_blocking.mp last with ⟨less, tagged⟩
  rcases past lastSlot less with ⟨word, mayRead, differs⟩
  rw [readable] at mayRead
  rcases List.mem_cons.mp mayRead with rfl | cleared
  · exact absurd tagged differs
  · split at cleared
    · rename_i purgeable
      rw [List.mem_singleton] at cleared
      subst cleared
      refine ⟨purgeable.1, differs.symm, ?_⟩
      have enough := purgeable.2
      rw [tagged] at enough
      refine (Finset.card_le_card ?_).trans enough
      intro slot' member
      have upTo := (blocking thread slot).le_max' slot' member
      rw [isLast] at upTo
      exact Finset.mem_filter.mpr ⟨Finset.mem_range.mpr (Nat.lt_succ_of_le upTo),
        (mem_blocking.mp member).2⟩
    · cases cleared

/-- Some order of the rivals frees the way to the slot. -/
theorem exists_unblocked (probing : fetchedStatus thread = .needsProbe)
    (inRow : slot < rowWidthElems)
    (past : ∀ slot' < slot, ∃ word ∈ readable thread slot', payloadTag word ≠ tag thread) :
    ∃ schedule, (run probeStep (probeStart launch) schedule).threads thread = .scanning 0 ∧
      (∀ slot' < slot, payloadTag ((run probeStep (probeStart launch) schedule).slabs
        (keyRow thread) slot') ≠ tag thread) ∧
      (run probeStep (probeStart launch) schedule).slabs (keyRow thread) slot =
        slotWord thread slot := by
  by_cases blocked : (blocking thread slot).Nonempty
  · rcases card_blocking_le past blocked with ⟨purges, nonzero, enough⟩
    have lengths : ((rivals thread (tag thread)).toList.take (blocking thread slot).card).length =
          ((blocking thread slot).sort (· ≤ ·)).length := by
      rw [List.length_take, Finset.length_toList, Finset.length_sort]
      omega
    generalize isTodo : ((rivals thread (tag thread)).toList.take
      (blocking thread slot).card).zip ((blocking thread slot).sort (· ≤ ·)) = todo
    have firsts : todo.map Prod.fst = (rivals thread (tag thread)).toList.take
        (blocking thread slot).card := by
      rw [← isTodo, List.map_fst_zip (Nat.le_of_eq lengths)]
    have seconds : todo.map Prod.snd = (blocking thread slot).sort (· ≤ ·) := by
      rw [← isTodo, List.map_snd_zip (Nat.le_of_eq lengths.symm)]
    have rival : ∀ pair ∈ todo, pair.1 ∈ rivals thread (tag thread) := by
      intro pair member
      have listed := List.mem_map_of_mem (f := Prod.fst) member
      rw [firsts] at listed
      exact Finset.mem_toList.mp (List.mem_of_mem_take listed)
    have blocks : ∀ pair ∈ todo, pair.2 ∈ blocking thread slot := by
      intro pair member
      have listed := List.mem_map_of_mem (f := Prod.snd) member
      rw [seconds] at listed
      exact (Finset.mem_sort _).mp listed
    have purging : Purging (probeStart launch) (keyRow thread) (tag thread) todo := by
      constructor
      · rw [firsts]
        exact (Finset.nodup_toList _).sublist (List.take_sublist _ _)
      · rw [seconds]
        exact (Finset.sortedLT_sort _).pairwise
      · exact fun pair member => probeStart_threads (mem_rivals (rival pair member)).2.1
      · exact fun pair member => (mem_rivals (rival pair member)).2.2.1
      · exact fun pair member => (mem_rivals (rival pair member)).2.2.2
      · exact fun pair member => (mem_blocking.mp (blocks pair member)).1.trans inRow
      · exact fun pair member => (mem_blocking.mp (blocks pair member)).2
      · intro pair member slot' less tagged
        rw [seconds]
        apply (Finset.mem_sort _).mpr
        exact mem_blocking.mpr
          ⟨less.trans (mem_blocking.mp (blocks pair member)).1, tagged⟩
    rcases exists_purgedAll purges nonzero purging with ⟨schedule, purged⟩
    refine ⟨schedule, ?_, ?_, ?_⟩
    · rw [purged.threads thread, probeStart_threads probing]
      intro listed
      rw [firsts] at listed
      exact (mem_rivals (Finset.mem_toList.mp (List.mem_of_mem_take listed))).1 rfl
    · intro slot' less
      by_cases blocks' : slot' ∈ blocking thread slot
      · rw [purged.cleared slot' (by rw [seconds]; exact (Finset.mem_sort _).mpr blocks')]
        exact nonzero.symm
      · rw [purged.kept slot' (by rw [seconds]; exact fun l => blocks' ((Finset.mem_sort _).mp l))]
        exact fun tagged => blocks' (mem_blocking.mpr ⟨less, tagged⟩)
    · rw [purged.kept slot]
      · rfl
      · rw [seconds]
        intro listed
        exact Nat.lt_irrefl _ (mem_blocking.mp ((Finset.mem_sort _).mp listed)).1
  · refine ⟨[], probeStart_threads probing, ?_, rfl⟩
    intro slot' less tagged
    exact blocked ⟨slot', mem_blocking.mpr ⟨less, tagged⟩⟩

/-- The slot still holds its word: the thread runs once its way is free. -/
theorem exists_match_slotWord (probing : fetchedStatus thread = .needsProbe)
    (inRow : slot < rowWidthElems) (tagged : payloadTag (slotWord thread slot) = tag thread)
    (past : ∀ slot' < slot, ∃ word ∈ readable thread slot', payloadTag word ≠ tag thread) :
    ∃ schedule, (run probeStep (probeStart launch) schedule).threads thread =
      .matched slot (payloadIndex (slotWord thread slot)) := by
  rcases exists_unblocked probing inRow past with ⟨before, scanning, differs, kept⟩
  rcases solo_match scanning inRow differs (by rw [kept, tagged]) with ⟨alone, reached⟩
  refine ⟨before ++ alone, ?_⟩
  rw [run_append, reached, kept]
  exact update_self _ _ _

/-- The slot can be cleared: one rival clears the first slot with its tag, and the
thread takes the zero it left for its own tag. -/
theorem exists_match_zero (probing : fetchedStatus thread = .needsProbe)
    (inRow : slot < rowWidthElems) (zeroTag : tag thread = 0) (purgeable : Purgeable thread slot)
    (past : ∀ slot' < slot, ∃ word ∈ readable thread slot', payloadTag word ≠ tag thread) :
    ∃ schedule found, (run probeStep (probeStart launch) schedule).threads thread =
      .matched found 0 := by
  have atLeastOne : 0 < (rivals thread (payloadTag (slotWord thread slot))).card := by
    apply Nat.lt_of_lt_of_le _ purgeable.2
    apply Finset.card_pos.mpr
    exact ⟨slot, Finset.mem_filter.mpr ⟨Finset.self_mem_range_succ slot, rfl⟩⟩
  rcases Finset.card_pos.mp atLeastOne with ⟨rival, member⟩
  rcases mem_rivals member with ⟨different, rivalProbing, sameRow, rivalTag⟩
  have exists_first : ∃ found, payloadTag (slotWord thread found) =
      payloadTag (slotWord thread slot) := ⟨slot, rfl⟩
  have foundTag := Nat.find_spec exists_first
  have foundLe : Nat.find exists_first ≤ slot := Nat.find_min' exists_first rfl
  have foundFirst : ∀ slot' < Nat.find exists_first, payloadTag (slotWord thread slot') ≠
      payloadTag (slotWord thread slot) := fun slot' less => Nat.find_min exists_first less
  generalize Nat.find exists_first = found at foundTag foundLe foundFirst
  have foundFits : found < rowWidthElems := Nat.lt_of_le_of_lt foundLe inRow
  have words : ∀ slot', (probeStart launch).slabs (keyRow rival) slot' =
      slotWord thread slot' := by
    intro slot'
    rw [sameRow]
    rfl
  rcases solo_match (probeStart_threads rivalProbing) foundFits
      (fun slot' less => by rw [words, rivalTag]; exact foundFirst slot' less)
      (by rw [words, rivalTag, foundTag]) with ⟨before, reached⟩
  rw [if_pos purgeable.1, sameRow] at reached
  have nonzero : ∀ slot' < found, payloadTag (slotWord thread slot') ≠ tag thread := by
    intro slot' less
    rcases past slot' (Nat.lt_of_lt_of_le less foundLe) with ⟨word, mayRead, differs⟩
    rcases List.mem_cons.mp mayRead with rfl | cleared
    · exact differs
    · split at cleared
      · rw [List.mem_singleton] at cleared
        rw [cleared, zeroTag] at differs
        exact absurd rfl differs
      · cases cleared
  have scanning : (run probeStep (probeStart launch) before).threads thread = .scanning 0 := by
    rw [reached]
    exact (update_of_ne different.symm _ _).trans (probeStart_threads probing)
  have cleared : (run probeStep (probeStart launch) before).slabs (keyRow thread) found = 0 := by
    rw [reached]
    exact setSlot_same _ _ _ _
  rcases solo_match scanning foundFits
      (fun slot' less => by
        rw [reached]
        dsimp only
        rw [setSlot_other fun same => Nat.ne_of_lt less same.2]
        exact nonzero slot' less)
      (by rw [cleared, zeroTag]; rfl) with ⟨alone, matched⟩
  refine ⟨before ++ alone, found, ?_⟩
  rw [run_append, matched, cleared]
  exact update_self _ _ _

theorem MatchesFirst.happens {slot word : Nat}
    (probing : fetchedStatus thread = .needsProbe) (inRow : slot < rowWidthElems)
    (first : MatchesFirst thread slot word) :
    ∃ schedule found, (run probeStep (probeStart launch) schedule).Finished ∧
      (run probeStep (probeStart launch) schedule).threads thread =
        .matched found (payloadIndex word) := by
  have matches_ : ∃ schedule found, (run probeStep (probeStart launch) schedule).threads thread =
        .matched found (payloadIndex word) := by
    rcases first with ⟨mayRead, tagged, past⟩
    rcases List.mem_cons.mp mayRead with rfl | cleared
    · rcases exists_match_slotWord probing inRow tagged past with ⟨schedule, matched⟩
      exact ⟨schedule, slot, matched⟩
    · split at cleared
      · rename_i purgeable
        rw [List.mem_singleton] at cleared
        subst cleared
        exact exists_match_zero probing inRow tagged.symm purgeable past
      · cases cleared
  rcases matches_ with ⟨schedule, found, matched⟩
  rcases exists_probe_finish (run probeStep (probeStart launch) schedule) with
    ⟨rest, finished⟩
  refine ⟨schedule ++ rest, found, ?_, ?_⟩
  · rw [run_append]
    exact finished
  · rw [run_append, run_threads_of_settled (by rw [matched]; rfl), matched]

end Dispatch

end CudaMpqs.SlabTable
