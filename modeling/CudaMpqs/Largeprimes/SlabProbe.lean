import Mathlib.Data.Fintype.Card
import CudaMpqs.Foundation.Transition
import CudaMpqs.Largeprimes.SlabTable

/-! # Probing the slab table

`probe_hash_table_kernel`: a thread reads the slots of its row in order until one
carries its tag. When witnesses are purged it then claims the slot with a
compare-and-swap that clears it. -/

namespace CudaMpqs.SlabTable

open Transition Function

def setSlot (slabs : Nat → Nat → Nat) (row slot word : Nat) : Nat → Nat → Nat :=
  fun row' slot' => if row' = row ∧ slot' = slot then word else slabs row' slot'

theorem setSlot_same (slabs : Nat → Nat → Nat) (row slot word : Nat) :
    setSlot slabs row slot word row slot = word := if_pos ⟨rfl, rfl⟩

theorem setSlot_other {slabs : Nat → Nat → Nat} {row slot word row' slot' : Nat}
    (different : ¬(row' = row ∧ slot' = slot)) :
    setSlot slabs row slot word row' slot' = slabs row' slot' := if_neg different

namespace Dispatch

variable {launch : Dispatch}

/-! ## The kernel -/

inductive ProbeThread where
  | scanning (slot : Nat)
  | claiming (slot target : Nat)
  | matched (slot target : Nat)
  | passed (status : SlpStatus)
deriving DecidableEq

variable (launch) in
structure ProbeState where
  slabs : Nat → Nat → Nat
  threads : launch.Thread → ProbeThread

def ProbeState.setThread (state : ProbeState launch) (thread : launch.Thread)
    (next : ProbeThread) : ProbeState launch :=
  { state with threads := update state.threads thread next }

variable (launch) in
def probeStart : ProbeState launch where
  slabs := launch.device.payloadSlabs
  threads thread :=
    if keyStatus thread = .needsProbe then .scanning 0
    else .passed (keyStatus thread)

/-- The next action of a thread. A load may return the word that the slot held
when the kernel started: the read-only cache need not see a purge. -/
def probeStep (state : ProbeState launch) (action : launch.Thread × Bool) : ProbeState launch :=
  let thread := action.1
  match state.threads thread with
  | .scanning slot =>
    let word :=
      if action.2 then launch.device.payloadSlabs (keyRow thread) slot
      else state.slabs (keyRow thread) slot
    let next :=
      if payloadTag word = keyTag thread then
        if launch.config.purgeAfterMatch then .claiming slot (payloadIndex word)
        else .matched slot (payloadIndex word)
      else if slot + 1 < rowWidthElems then .scanning (slot + 1)
      else .passed .needsAppend
    state.setThread thread next
  | .claiming slot target =>
    let expected := payload (keyTag thread) target
    if state.slabs (keyRow thread) slot = expected then
      { slabs := setSlot state.slabs (keyRow thread) slot 0
        threads := update state.threads thread (.matched slot target) }
    else state.setThread thread (.passed .needsAppend)
  | .matched _ _ => state
  | .passed _ => state

def ProbeThread.Settled : ProbeThread → Bool
  | .matched _ _ => true
  | .passed _ => true
  | _ => false

def ProbeState.Finished (state : ProbeState launch) : Prop :=
  ∀ thread, (state.threads thread).Settled

instance (state : ProbeState launch) : Decidable state.Finished :=
  inferInstanceAs (Decidable (∀ thread, _))

def ProbeState.status (state : ProbeState launch) (thread : launch.Thread) : SlpStatus :=
  match state.threads thread with
  | .matched _ _ => .matchFound
  | .passed status => status
  | _ => .needsProbe

/-! ## What a thread may read -/

def slotWord (thread : launch.Thread) (slot : Nat) : Nat :=
  launch.device.payloadSlabs (keyRow thread) slot

def rivals (thread : launch.Thread) (tag' : Nat) : Finset launch.Thread :=
  Finset.univ.filter fun other => other ≠ thread ∧
    fetchedStatus other = .needsProbe ∧ keyRow other = keyRow thread ∧
    tag other = tag'

def slotsUpTo (thread : launch.Thread) (tag' slot : Nat) : Finset Nat :=
  (Finset.range (slot + 1)).filter fun slot' =>
    payloadTag (slotWord thread slot') = tag'

/-- The other threads of the batch can purge the slot: there is one of them with
the slot's tag for each slot up to it that carries this tag. -/
def Purgeable (thread : launch.Thread) (slot : Nat) : Prop :=
  launch.config.purgeAfterMatch = true ∧
    (slotsUpTo thread (payloadTag (slotWord thread slot)) slot).card ≤
      (rivals thread (payloadTag (slotWord thread slot))).card

instance (thread : launch.Thread) (slot : Nat) : Decidable (Purgeable thread slot) :=
  inferInstanceAs (Decidable (_ ∧ _))

/-- The words that the thread may find in a slot of its row. -/
def readable (thread : launch.Thread) (slot : Nat) : List Nat :=
  slotWord thread slot :: if Purgeable thread slot then [0] else []

def TrueTarget (thread : launch.Thread) (target : Nat) : Prop :=
  ∃ witness ∈ launch.device.witnesses[target]?,
    witness.largePrime.setWidth 64 = (input thread).largePrime.setWidth 64

instance (thread : launch.Thread) (target : Nat) :
    Decidable (TrueTarget thread target) :=
  match found : launch.device.witnesses[target]? with
  | none => isFalse (by simp [TrueTarget, found])
  | some witness => decidable_of_iff
      (witness.largePrime.setWidth 64 = (input thread).largePrime.setWidth 64)
      (by simp [TrueTarget, found])

/-- The thread may find this word first among those with its tag. -/
def MatchesFirst (thread : launch.Thread) (slot word : Nat) : Prop :=
  word ∈ readable thread slot ∧ payloadTag word = tag thread ∧
    ∀ slot' < slot, ∃ word' ∈ readable thread slot', payloadTag word' ≠ tag thread

instance (thread : launch.Thread) (slot word : Nat) :
    Decidable (MatchesFirst thread slot word) :=
  inferInstanceAs (Decidable (_ ∧ _ ∧ _))

/-- Whichever word with its tag a probing thread may find first names a witness of
its large prime. -/
def MatchesTruly (thread : launch.Thread) : Prop :=
  fetchedStatus thread = .needsProbe → ∀ slot < rowWidthElems,
    ∀ word ∈ readable thread slot, MatchesFirst thread slot word →
      TrueTarget thread (payloadIndex word)

instance (thread : launch.Thread) : Decidable (MatchesTruly thread) :=
  inferInstanceAs (Decidable (_ → _))

/-! ## What a thread has read -/

def ClearedBy (state : ProbeState launch) (thread : launch.Thread) (row slot : Nat) : Prop :=
  (∃ target, state.threads thread = .matched slot target) ∧
    fetchedStatus thread = .needsProbe ∧ keyRow thread = row ∧
    tag thread = payloadTag (launch.device.payloadSlabs row slot)

def Purged (state : ProbeState launch) (thread : launch.Thread) (slot : Nat) : Prop :=
  launch.config.purgeAfterMatch = true ∧
    ∃ other ≠ thread, ClearedBy state other (keyRow thread) slot

def SeenPast (state : ProbeState launch) (thread : launch.Thread) (slot : Nat) : Prop :=
  payloadTag (slotWord thread slot) ≠ tag thread ∨ tag thread ≠ 0 ∧ Purged state thread slot

structure SeenFirst (state : ProbeState launch) (thread : launch.Thread)
    (slot target : Nat) : Prop where
  slot_lt : slot < rowWidthElems
  target_lt : target < 2 ^ 32
  word : payload (tag thread) target = slotWord thread slot ∨
    payload (tag thread) target = 0 ∧ Purged state thread slot
  past : ∀ slot' < slot, SeenPast state thread slot'

def ProbeThread.Justified (state : ProbeState launch) (thread : launch.Thread) : ProbeThread → Prop
  | .scanning slot => slot < rowWidthElems ∧ fetchedStatus thread = .needsProbe ∧
      ∀ slot' < slot, SeenPast state thread slot'
  | .claiming slot target => launch.config.purgeAfterMatch = true ∧
      fetchedStatus thread = .needsProbe ∧ SeenFirst state thread slot target
  | .matched slot target => fetchedStatus thread = .needsProbe ∧ SeenFirst state thread slot target
  | .passed status => status = .needsAppend ∨
      status = .needsAllocation ∧ fetchedStatus thread = .needsAllocation

structure ProbeInvariant (state : ProbeState launch) : Prop where
  slabs : ∀ row slot, state.slabs row slot = launch.device.payloadSlabs row slot ∨
      launch.config.purgeAfterMatch = true ∧ state.slabs row slot = 0 ∧
        ∃ thread, ClearedBy state thread row slot
  threads : ∀ thread, (state.threads thread).Justified state thread

theorem ProbeInvariant.start : ProbeInvariant (probeStart launch) where
  slabs _ _ := Or.inl rfl
  threads thread := by
    by_cases probing : fetchedStatus thread = .needsProbe
    · have scans : (probeStart launch).threads thread = .scanning 0 := by
        simp [probeStart, probing]
      rw [scans]
      exact ⟨by decide, probing, fun slot' less => absurd less (Nat.not_lt_zero _)⟩
    · have allocates : fetchedStatus thread = .needsAllocation := by
        unfold fetchedStatus at probing ⊢
        split at probing
        · rw [if_pos ‹_›]
        · exact absurd rfl probing
      have passes : (probeStart launch).threads thread = .passed .needsAllocation := by
        simp [probeStart, allocates]
      rw [passes]
      exact Or.inr ⟨rfl, allocates⟩

theorem probeStep_cases (state : ProbeState launch) (action : launch.Thread × Bool) :
    (∃ slot word, state.threads action.1 = .scanning slot ∧
      (word = slotWord action.1 slot ∨ word = state.slabs (keyRow action.1) slot) ∧
      ((payloadTag word = tag action.1 ∧ probeStep state action = state.setThread action.1
            (if launch.config.purgeAfterMatch then .claiming slot (payloadIndex word)
              else .matched slot (payloadIndex word))) ∨
        (payloadTag word ≠ tag action.1 ∧ probeStep state action = state.setThread action.1
            (if slot + 1 < rowWidthElems then .scanning (slot + 1) else .passed .needsAppend)))) ∨
    (∃ slot target, state.threads action.1 = .claiming slot target ∧
      ((state.slabs (keyRow action.1) slot = payload (tag action.1) target ∧
          probeStep state action =
            { slabs := setSlot state.slabs (keyRow action.1) slot 0
              threads := update state.threads action.1 (.matched slot target) }) ∨
        probeStep state action = state.setThread action.1 (.passed .needsAppend))) ∨
    ((state.threads action.1).Settled ∧ probeStep state action = state) := by
  cases phase : state.threads action.1 with
  | scanning slot =>
    left
    refine ⟨slot, if action.2 then launch.device.payloadSlabs (keyRow action.1) slot
      else state.slabs (keyRow action.1) slot, rfl, ?_, ?_⟩
    · cases action.2
      · exact Or.inr rfl
      · exact Or.inl rfl
    · by_cases tagged : payloadTag (if action.2 then
          launch.device.payloadSlabs (keyRow action.1) slot
        else state.slabs (keyRow action.1) slot) = tag action.1
      · refine Or.inl ⟨tagged, ?_⟩
        simp only [probeStep, phase, keyTag_eq, if_pos tagged]
      · refine Or.inr ⟨tagged, ?_⟩
        simp only [probeStep, phase, keyTag_eq, if_neg tagged]
  | claiming slot target =>
    right
    left
    refine ⟨slot, target, rfl, ?_⟩
    simp only [probeStep, phase, keyTag_eq]
    split
    · exact Or.inl ⟨‹_›, rfl⟩
    · exact Or.inr rfl
  | matched slot target =>
    right
    right
    simp only [probeStep, phase]
    exact ⟨rfl, trivial⟩
  | passed status =>
    right
    right
    simp only [probeStep, phase]
    exact ⟨rfl, trivial⟩

section Preservation

variable {state : ProbeState launch} {thread : launch.Thread} {next : ProbeThread}
  {slabs : Nat → Nat → Nat}

/-- A settled thread stays as it is, so what it has purged stays purged. -/
theorem ClearedBy.update (unsettled : (state.threads thread).Settled = false)
    {other : launch.Thread} {row slot : Nat} (cleared : ClearedBy state other row slot) :
    ClearedBy ⟨slabs, update state.threads thread next⟩ other row slot := by
  rcases cleared with ⟨⟨target, phase⟩, probing, inRow, tagged⟩
  have different : other ≠ thread := by
    intro equal
    rw [← equal, phase] at unsettled
    cases unsettled
  exact ⟨⟨target, (update_of_ne different _ _).trans phase⟩, probing, inRow, tagged⟩

variable {reader : launch.Thread}

section

variable (unsettled : (state.threads thread).Settled = false)

include unsettled

theorem Purged.update {slot : Nat} (purged : Purged state reader slot) :
    Purged ⟨slabs, update state.threads thread next⟩ reader slot := by
  rcases purged with ⟨purges, other, different, cleared⟩
  exact ⟨purges, other, different, cleared.update unsettled⟩

theorem SeenPast.update {slot : Nat} (seen : SeenPast state reader slot) :
    SeenPast ⟨slabs, update state.threads thread next⟩ reader slot :=
  seen.imp_right fun purged => ⟨purged.1, purged.2.update unsettled⟩

theorem SeenFirst.update {slot target : Nat} (seen : SeenFirst state reader slot target) :
    SeenFirst ⟨slabs, update state.threads thread next⟩ reader slot target where
  slot_lt := seen.slot_lt
  target_lt := seen.target_lt
  word := seen.word.imp_right fun purged => ⟨purged.1, purged.2.update unsettled⟩
  past slot' less := (seen.past slot' less).update unsettled

theorem ProbeThread.Justified.update {phase : ProbeThread}
    (justified : phase.Justified state reader) :
    phase.Justified ⟨slabs, Function.update state.threads thread next⟩ reader := by
  cases phase with
  | scanning slot =>
    exact ⟨justified.1, justified.2.1,
      fun slot' less => (justified.2.2 slot' less).update unsettled⟩
  | claiming slot target =>
    exact ⟨justified.1, justified.2.1, justified.2.2.update unsettled⟩
  | matched slot target => exact ⟨justified.1, justified.2.update unsettled⟩
  | passed status => exact justified

end

section

variable (invariant : ProbeInvariant state) (unsettled : (state.threads thread).Settled = false)

include invariant unsettled

theorem ProbeInvariant.justified_update (justified : next.Justified state thread)
    (reader : launch.Thread) :
    (Function.update state.threads thread next reader).Justified
      ⟨slabs, Function.update state.threads thread next⟩ reader := by
  by_cases same : reader = thread
  · subst same
    rw [update_self]
    exact justified.update unsettled
  · rw [update_of_ne same]
    exact (invariant.threads reader).update unsettled

theorem ProbeInvariant.advance (justified : next.Justified state thread) :
    ProbeInvariant (state.setThread thread next) where
  slabs row slot := by
    rcases invariant.slabs row slot with kept | ⟨purges, zero, other, cleared⟩
    · exact Or.inl kept
    · exact Or.inr ⟨purges, zero, other, cleared.update unsettled⟩
  threads reader := invariant.justified_update unsettled justified reader

theorem ProbeInvariant.loaded {slot word : Nat}
    (loaded : word = slotWord thread slot ∨ word = state.slabs (keyRow thread) slot) :
    word = slotWord thread slot ∨ word = 0 ∧ Purged state thread slot := by
  rcases loaded with initial | current
  · exact Or.inl initial
  · rcases invariant.slabs (keyRow thread) slot with kept | ⟨purges, zero, other, cleared⟩
    · exact Or.inl (current.trans kept)
    · refine Or.inr ⟨current.trans zero, purges, other, ?_, cleared⟩
      rintro rfl
      rcases cleared with ⟨⟨target, phase⟩, -⟩
      rw [phase] at unsettled
      cases unsettled

end

/-- After a claim its slot is clear: by this claim, or by the purge of a slot that
it found cleared. -/
theorem ProbeInvariant.slabs_claimed (invariant : ProbeInvariant state)
    {slot target : Nat} (phase : state.threads thread = .claiming slot target)
    (current : state.slabs (keyRow thread) slot = payload (tag thread) target)
    (row' slot' : Nat) :
    setSlot state.slabs (keyRow thread) slot 0 row' slot' = launch.device.payloadSlabs row' slot' ∨
      launch.config.purgeAfterMatch = true ∧
        setSlot state.slabs (keyRow thread) slot 0 row' slot' = 0 ∧ ∃ other, ClearedBy
            ⟨setSlot state.slabs (keyRow thread) slot 0,
              Function.update state.threads thread (.matched slot target)⟩
            other row' slot' := by
  have justified := invariant.threads thread
  rw [phase] at justified
  rcases justified with ⟨purges, probing, first⟩
  have unsettled : (state.threads thread).Settled = false := by rw [phase]; rfl
  by_cases here : row' = keyRow thread ∧ slot' = slot
  · rcases here with ⟨rfl, rfl⟩
    rw [setSlot_same]
    refine Or.inr ⟨purges, rfl, ?_⟩
    rcases invariant.slabs (keyRow thread) slot' with kept | ⟨-, -, other, cleared⟩
    · refine ⟨thread, ⟨target, update_self _ _ _⟩, probing, rfl, ?_⟩
      rw [← kept, current, payloadTag_payload first.target_lt]
    · exact ⟨other, cleared.update unsettled⟩
  · rw [setSlot_other here]
    rcases invariant.slabs row' slot' with kept | ⟨-, zero, other, cleared⟩
    · exact Or.inl kept
    · exact Or.inr ⟨purges, zero, other, cleared.update unsettled⟩

end Preservation

theorem ProbeInvariant.step {state : ProbeState launch}
    (invariant : ProbeInvariant state) (action : launch.Thread × Bool) :
    ProbeInvariant (probeStep state action) := by
  have justified := invariant.threads action.1
  rcases probeStep_cases state action with
    ⟨slot, word, phase, loaded, found⟩ | ⟨slot, target, phase, claimed⟩ | ⟨-, same⟩
  · rw [phase] at justified
    have unsettled : (state.threads action.1).Settled = false := by rw [phase]; rfl
    have read := invariant.loaded unsettled loaded
    rcases found with ⟨tagged, equal⟩ | ⟨differs, equal⟩
    · rw [equal]
      have first : SeenFirst state action.1 slot (payloadIndex word) := by
        constructor
        · exact justified.1
        · exact Nat.mod_lt _ (by decide)
        · rw [← tagged, payload_eta]
          exact read
        · exact justified.2.2
      apply invariant.advance unsettled
      split
      · exact ⟨‹_›, justified.2.1, first⟩
      · exact ⟨justified.2.1, first⟩
    · rw [equal]
      apply invariant.advance unsettled
      split
      · refine ⟨‹_›, justified.2.1, ?_⟩
        intro slot' less
        rcases Nat.lt_succ_iff_lt_or_eq.mp less with earlier | rfl
        · exact justified.2.2 slot' earlier
        · rcases read with initial | ⟨zero, purged⟩
          · exact Or.inl (initial ▸ differs)
          · refine Or.inr ⟨?_, purged⟩
            rintro isZero
            apply differs
            rw [zero, isZero]
            rfl
      · exact Or.inl rfl
  · rw [phase] at justified
    have unsettled : (state.threads action.1).Settled = false := by rw [phase]; rfl
    rcases claimed with ⟨current, equal⟩ | equal
    · rw [equal]
      have settles : (ProbeThread.matched slot target).Justified state action.1 :=
        justified.2
      exact ⟨invariant.slabs_claimed phase current, invariant.justified_update unsettled settles⟩
    · rw [equal]
      exact invariant.advance unsettled (Or.inl rfl)
  · rw [same]
    exact invariant

theorem ProbeInvariant.run (schedule : List (launch.Thread × Bool)) :
    ProbeInvariant (run probeStep (probeStart launch) schedule) :=
  run_invariant (fun _ action invariant => invariant.step action) ProbeInvariant.start
    schedule

/-! ## A match was readable -/

variable {state : ProbeState launch} {thread : launch.Thread}

/-- The purges of a row that a thread has met leave a rival for each slot: every
slot with the tag was purged by a thread of its own. -/
theorem ProbeInvariant.purgeable (invariant : ProbeInvariant state) {slot : Nat}
    (own : ∀ slot' < slot, ∀ target, state.threads thread ≠ .matched slot' target)
    (purged : Purged state thread slot) : Purgeable thread slot := by
  rcases purged with ⟨purges, other, different, ⟨target, phase⟩, probing, sameRow, tagged⟩
  refine ⟨purges, ?_⟩
  have words : ∀ slot', slotWord other slot' = slotWord thread slot' := by
    intro slot'
    rw [slotWord, slotWord, sameRow]
  have clearer : ∀ slot' ∈ slotsUpTo thread (payloadTag (slotWord thread slot)) slot,
      ∃ rival ∈ rivals thread (payloadTag (slotWord thread slot)),
        ∃ target', state.threads rival = .matched slot' target' := by
    intro slot' member
    rcases Finset.mem_filter.mp member with ⟨inRange, sameTag⟩
    rcases Nat.lt_succ_iff_lt_or_eq.mp (Finset.mem_range.mp inRange) with earlier | rfl
    · have justified := invariant.threads other
      rw [phase] at justified
      rcases justified.2.past slot' earlier with differs | ⟨-, -, rival, -, cleared⟩
      · rw [words, sameTag, tagged] at differs
        exact absurd rfl differs
      · rcases cleared with ⟨⟨target', phase'⟩, probing', sameRow', tagged'⟩
        refine ⟨rival, Finset.mem_filter.mpr ⟨Finset.mem_univ _, ?_, probing',
          sameRow'.trans sameRow, ?_⟩, target', phase'⟩
        · rintro rfl
          exact own slot' earlier target' phase'
        · rw [tagged', ← sameTag, sameRow, slotWord]
    · exact ⟨other, Finset.mem_filter.mpr ⟨Finset.mem_univ _, different, probing, sameRow,
        tagged⟩, target, phase⟩
  have nonempty : Nonempty launch.Thread := ⟨thread⟩
  choose! rival isRival matched using clearer
  apply Finset.card_le_card_of_injOn rival isRival
  intro left leftMember right rightMember equal
  rcases matched left leftMember with ⟨leftTarget, leftPhase⟩
  rcases matched right rightMember with ⟨rightTarget, rightPhase⟩
  rw [equal, rightPhase] at leftPhase
  injection leftPhase with slots
  exact slots.symm

theorem zero_mem_readable {slot : Nat} (purgeable : Purgeable thread slot) :
    0 ∈ readable thread slot := by
  rw [readable, if_pos purgeable]
  exact List.mem_cons_of_mem _ (List.mem_singleton_self 0)

private theorem slotWord_mem_readable (thread : launch.Thread) (slot : Nat) :
    slotWord thread slot ∈ readable thread slot := List.mem_cons_self

theorem ProbeInvariant.matchesFirst (invariant : ProbeInvariant state) {slot target : Nat}
    (phase : state.threads thread = .matched slot target) :
    fetchedStatus thread = .needsProbe ∧ slot < rowWidthElems ∧ target < 2 ^ 32 ∧
      MatchesFirst thread slot (payload (tag thread) target) := by
  have justified := invariant.threads thread
  rw [phase] at justified
  rcases justified with ⟨probing, first⟩
  have own : ∀ slot' < slot, ∀ target', state.threads thread ≠ .matched slot' target' := by
    intro slot' less target' phase'
    rw [phase] at phase'
    injection phase' with same
    omega
  refine ⟨probing, first.slot_lt, first.target_lt, ?_, payloadTag_payload first.target_lt, ?_⟩
  · rcases first.word with initial | ⟨zero, purged⟩
    · rw [initial]
      exact slotWord_mem_readable thread slot
    · rw [zero]
      exact zero_mem_readable (invariant.purgeable own purged)
  · intro slot' less
    rcases first.past slot' less with differs | ⟨nonzero, purged⟩
    · exact ⟨_, slotWord_mem_readable thread slot', differs⟩
    · refine ⟨0, zero_mem_readable (invariant.purgeable ?_ purged), nonzero.symm⟩
      exact fun slot'' less' => own slot'' (less'.trans less)

theorem ProbeInvariant.trueTarget (invariant : ProbeInvariant state) {slot target : Nat}
    (phase : state.threads thread = .matched slot target) (truly : MatchesTruly thread) :
    TrueTarget thread target := by
  rcases invariant.matchesFirst phase with ⟨probing, slotFits, targetFits, first⟩
  rw [← payloadIndex_payload (tag thread) targetFits]
  exact truly probing slot slotFits _ first.1 first

end Dispatch

end CudaMpqs.SlabTable
