import CudaMpqs.Matrix.MergeSerialization

/-! # Launches of the merge kernel

What a finished launch leaves on the device, from any device that launches can
reach. -/

namespace CudaMpqs.BatchMerge

open Combine Function Transition PackedRow RowJoin ThreadTotals

variable {rows : Nat}

/-! ## Runs -/

def runKernel (launch : Launch rows) (schedule : List launch.Thread) : KernelState launch :=
  run kernelStep (kernelStart launch) schedule

inductive Reached (context : Context rows) : Device rows → Prop where
  | fresh (workspace : Workspace) : Reached context (freshDevice context workspace)
  | launch {device : Device rows} {candidates : List (MergeCandidate rows)}
      (reached : Reached context device)
      (schedule : List (Launch.Thread ⟨context, device, candidates⟩))
      (finished : (runKernel ⟨context, device, candidates⟩ schedule).Finished) :
      Reached context (runKernel ⟨context, device, candidates⟩ schedule).memory.toDevice

theorem exists_serialized {launch : Launch rows} (valid : launch.device.Valid launch.context)
    (schedule : List launch.Thread) : ∃ order, Serialized (runKernel launch schedule) order := by
  refine @run_invariant _ _ kernelStep (fun state => ∃ order, Serialized state order) ?_ _ ?_
    schedule
  · rintro state thread ⟨order, serialized⟩
    rcases serialized.advance valid (acts launch thread state.memory (state.threads thread)) with
      ⟨added, next⟩
    exact ⟨order ++ added, next⟩
  · exact ⟨[], serialized_start valid⟩

/-! ## Termination -/

def Phase.remaining : Phase rows → Nat ×ₗ Nat
  | .start => toLex (12, 0)
  | .lockedFirst => toLex (11, 0)
  | .lockedBoth => toLex (10, 0)
  | .readFirst _ => toLex (9, 0)
  | .readBoth _ _ => toLex (8, 0)
  | .merged _ _ _ => toLex (7, 0)
  | .writing job written => toLex (6, job.row.entries.length - written)
  | .describing _ written => toLex (5, 6 - written)
  | .publishing _ => toLex (4, 0)
  | .consuming _ => toLex (3, 0)
  | .weighing _ updates => toLex (2, updates.length)
  | .releasing _ locks => toLex (1, locks.length)
  | .exited _ => toLex (0, 0)

variable {launch : Launch rows}

theorem Acts.remaining_lt {thread : launch.Thread} {memory memory' : Memory rows}
    {phase phase' : Phase rows} (acts : Acts launch thread memory phase memory' phase')
    (running : phase.Exited = false) : phase'.remaining < phase.remaining := by
  cases acts with
  | write isEntry =>
    have inside := (List.getElem?_eq_some_iff.mp isEntry).1
    exact remaining_lt_of_count (by omega)
  | describe open' => exact remaining_lt_of_count (by omega)
  | weigh => exact remaining_lt_of_count (Nat.lt_succ_self _)
  | unlock => exact remaining_lt_of_count (Nat.lt_succ_self _)
  | idle => cases running
  | _ => exact remaining_lt_of_stage (by decide)

variable {state : KernelState launch}

theorem exited_step {other : launch.Thread} (thread : launch.Thread)
    (exited : (state.threads other).Exited = true) :
    ((kernelStep state thread).threads other).Exited = true := by
  change (update state.threads thread _ other).Exited = true
  by_cases isOwn : other = thread
  · rw [isOwn, update_self]
    rw [isOwn] at exited
    cases isPhase : state.threads thread with
    | exited fate => rfl
    | _ =>
      rw [isPhase] at exited
      cases exited
  · rwa [update_of_ne isOwn]

theorem remaining_step (state : KernelState launch) (thread : launch.Thread)
    (running : ¬ (state.threads thread).Exited = true) :
    ((kernelStep state thread).threads thread).remaining < (state.threads thread).remaining := by
  change (update state.threads thread _ thread).remaining < _
  rw [update_self]
  exact (acts launch thread state.memory (state.threads thread)).remaining_lt
    (Bool.eq_false_of_not_eq_true running)

theorem exists_finish (state : KernelState launch) :
    ∃ schedule, (run kernelStep state schedule).Finished := by
  rcases @exists_run_halts _ _ _ _ _ kernelStep
    (fun state thread => (state.threads thread).Exited = true)
    (fun state thread => (state.threads thread).remaining)
    (fun _ thread _ => exited_step thread) remaining_step state (List.finRange _) with
    ⟨schedule, exited⟩
  exact ⟨schedule, fun thread => exited thread (List.mem_finRange thread)⟩

/-! ## Finished launches -/

section Finished

variable {order : List launch.Thread}

theorem storedJob_of_exited {phase : Phase rows} (exited : phase.Exited = true) :
    phase.storedJob = phase.job ∧ phase.transitJob = none := by
  cases phase with
  | exited fate => cases fate <;> exact ⟨rfl, rfl⟩
  | _ => cases exited

theorem aborted_of_exited {phase : Phase rows} (exited : phase.Exited = true) :
    phase.Aborted = phase.job.isNone := by
  cases phase with
  | exited fate => cases fate <;> rfl
  | _ => cases exited

section

variable (serialized : Serialized state order) (finished : state.Finished)

include serialized finished

theorem Serialized.table : state.memory.table launch.context = serial launch order := by
  funext row
  apply serialized.view
  intro thread job isTransit
  rw [(storedJob_of_exited (finished thread)).2] at isTransit
  cases isTransit

theorem Serialized.weight (gf2 : Bool) (c : Nat) : state.memory.weight gf2 c =
      columnWeight (rowCount gf2 c) (state.memory.table launch.context) := by
  rw [serialized.table finished, ← serialized.weights gf2 c, Finset.sum_eq_zero, add_zero]
  intro thread _
  have exited := finished thread
  cases isPhase : state.threads thread with
  | exited => rfl
  | _ =>
    rw [isPhase] at exited
    cases exited

theorem Serialized.slot_cases {slot : Nat} (inside : slot < state.memory.counter.relations.toNat) :
    slot < launch.device.counter.relations.toNat ∨ ∃ thread job,
      (state.threads thread).job = some job ∧ job.slot = slot ∧
        Stored state.memory.workspace job := by
  by_cases old : slot < launch.device.counter.relations.toNat
  · exact Or.inl old
  · rcases serialized.contents.places.covered slot (Nat.le_of_not_lt old) inside with
      ⟨thread, job, isJob, isSlot⟩
    have isStored := (storedJob_of_exited (finished thread)).1.trans isJob
    exact Or.inr ⟨thread, job, isJob, isSlot, serialized.contents.stored isStored⟩

theorem Serialized.valid (valid : launch.device.Valid launch.context) :
    state.memory.toDevice.Valid launch.context := by
  have contents := serialized.contents
  have places := contents.places
  have starts := contents.starts
  have lengths := contents.lengths
  constructor
  · intro row source isPtr
    rcases contents.pointed isPtr with old | ⟨thread, job, -, -, impossible⟩
    · exact valid.original old
    · cases impossible
  · intro row slot isPtr
    rcases contents.pointed isPtr with old | ⟨thread, job, isStored, -, isSlot⟩
    · exact (valid.slot_lt old).trans_le places.relations_le
    · injection isSlot with equal
      rw [equal]
      exact places.slot_lt (Phase.job_of_stored isStored)
  · intro row row' slot isPtr isPtr'
    rcases contents.pointed isPtr with old | ⟨thread, job, isStored, isRow, isSlot⟩
    · rcases contents.pointed isPtr' with old' | ⟨thread, job, isStored, -, isSlot⟩
      · exact valid.slot_injective old old'
      · injection isSlot with equal
        have above := places.slot_ge (Phase.job_of_stored isStored)
        have below := valid.slot_lt old
        omega
    · injection isSlot with equal
      rcases contents.pointed isPtr' with old' | ⟨thread', job', isStored', isRow', isSlot'⟩
      · have above := places.slot_ge (Phase.job_of_stored isStored)
        have below := valid.slot_lt old'
        omega
      · injection isSlot' with equal'
        by_cases same : thread = thread'
        · rw [← isRow, ← isRow', same]
        · exact absurd (equal.symm.trans equal') (places.apart (Phase.job_of_stored isStored)
            (Phase.job_of_stored isStored') same).1
  · intro slot inside
    rcases serialized.slot_cases finished inside with old | ⟨thread, job, isJob, rfl, stored⟩
    · rw [starts slot old, lengths slot old]
      exact (valid.end_le slot old).trans places.factors_le
    · rw [stored.starts, stored.lengths]
      exact places.end_le isJob
  · intro slot inside other inside' different
    unfold Workspace.Apart
    rcases serialized.slot_cases finished inside with old | ⟨thread, job, isJob, rfl, stored⟩
    · rw [starts slot old, lengths slot old]
      rcases serialized.slot_cases finished inside' with old' | ⟨thread, job, isJob, rfl, stored⟩
      · rw [starts other old', lengths other old']
        exact valid.apart slot old other old' different
      · rw [stored.starts, stored.lengths]
        exact Or.inl ((valid.end_le slot old).trans (places.offset_ge isJob))
    · rw [stored.starts, stored.lengths]
      rcases serialized.slot_cases finished inside' with
        old' | ⟨thread', job', isJob', rfl, stored'⟩
      · rw [starts other old', lengths other old']
        exact Or.inr ((valid.end_le other old').trans (places.offset_ge isJob))
      · rw [stored'.starts, stored'.lengths]
        have another : thread ≠ thread' := by
          rintro rfl
          rw [isJob, Option.some.injEq] at isJob'
          exact different (congrArg Job.slot isJob')
        exact (places.apart isJob isJob' another).2
  · exact places.relations_bounded
  · exact places.factors_bounded
  · exact serialized.weight finished false
  · exact serialized.weight finished true

end

end Finished

theorem Reached.valid {context : Context rows} {device : Device rows}
    (reached : Reached context device) : device.Valid context := by
  induction reached with
  | fresh workspace => exact freshDevice_valid context workspace
  | @launch device candidates reached schedule finished induction =>
    rcases @exists_serialized rows ⟨context, device, candidates⟩ induction schedule with
      ⟨order, serialized⟩
    exact serialized.valid finished induction

/-! ## The law of a launch -/

/-- A launch has executed the merges of `order`, one after the other, and aborted the
others. -/
structure Launched (launch : Launch rows) (state : KernelState launch)
    (order : List launch.Thread) : Prop where
  executed : ∀ thread, thread ∈ order ↔ (state.threads thread).job.isSome
  nodup : order.Nodup
  reservations : order.Pairwise fun earlier later => ∀ job job',
    (state.threads earlier).job = some job → (state.threads later).job = some job' →
      job.slot < job'.slot
  mergeable : ∀ {before thread after}, order = before ++ thread :: after →
    ∃ left right, Mergeable (serial launch before) (launch.candidate thread) left right ∧
      ∀ {job}, (state.threads thread).job = some job →
        job.row = join launch.context.mont left right
  once : order.Pairwise fun earlier later =>
    (launch.candidate earlier).r2 ≠ (launch.candidate later).r1 ∧
      (launch.candidate earlier).r2 ≠ (launch.candidate later).r2
  table : state.memory.table launch.context = serial launch order
  original : ∀ {row source}, state.memory.rowPtr row = some (.original source) →
    source = row ∧ launch.device.rowPtr row = some (.original source)
  workspace : ∀ {row slot}, state.memory.rowPtr row = some (.workspace slot) →
    launch.device.rowPtr row = some (.workspace slot) ∨
      ∃! thread, ∃ job, (state.threads thread).job = some job ∧ job.slot = slot
  kept : ∀ slot < launch.device.counter.relations.toNat,
    state.memory.workspace.row slot = launch.device.workspace.row slot
  written : ∀ {thread job}, (state.threads thread).job = some job →
    state.memory.workspace.row job.slot = job.row
  fresh : ∀ {thread job}, (state.threads thread).job = some job →
    launch.device.counter.relations.toNat ≤ job.slot ∧
      launch.device.counter.factors.toNat ≤ job.offset
  inside : ∀ {thread job}, (state.threads thread).job = some job →
    job.slot < state.memory.counter.relations.toNat ∧
      job.offset + job.row.entries.length ≤ state.memory.counter.factors.toNat
  apart : ∀ {thread other job job'}, (state.threads thread).job = some job →
    (state.threads other).job = some job' → thread ≠ other → job.Apart job'
  aborts : state.memory.abortCount =
    (Finset.univ.filter fun thread => (state.threads thread).job = none).card
  unlocked : ∀ row, state.memory.locks row = 0
  valid : state.memory.toDevice.Valid launch.context

variable {order : List launch.Thread}

theorem legal_of_joinable (joinable : ∀ {before thread after}, order = before ++ thread :: after →
      Joinable (serial launch before) (launch.candidate thread).pair) :
    Legal (join launch.context.mont) (launch.device.table launch.context)
      (order.map fun thread => (launch.candidate thread).pair) := by
  induction order using List.reverseRecOn with
  | nil => trivial
  | append_singleton order thread induction =>
    rw [List.map_append]
    refine legal_concat.mpr ⟨induction ?_, ?_⟩
    · intro before other after equal
      have extended : order ++ [thread] = before ++ other :: (after ++ [thread]) := by
        rw [equal, List.append_assoc, List.cons_append]
      exact joinable extended
    · have last : order ++ [thread] = order ++ thread :: [] := rfl
      exact joinable last

theorem Serialized.legal (serialized : Serialized state order) :
    Legal (join launch.context.mont) (launch.device.table launch.context)
      (order.map fun thread => (launch.candidate thread).pair) := by
  apply legal_of_joinable
  intro before thread after equal
  rcases serialized.mergeable equal with ⟨left, right, mergeable, -⟩
  exact mergeable.joinable

theorem Serialized.launched (serialized : Serialized state order) (finished : state.Finished)
    (valid : launch.device.Valid launch.context) : Launched launch state order := by
  have contents := serialized.contents
  have isStored : ∀ {thread job}, (state.threads thread).job = some job →
      Stored state.memory.workspace job := fun isJob =>
    contents.stored ((storedJob_of_exited (finished _)).1.trans isJob)
  constructor
  · exact serialized.mem_iff
  · exact serialized.nodup
  · exact serialized.ascending
  · exact serialized.mergeable
  · exact List.pairwise_map.mp serialized.legal.pairwise
  · exact serialized.table finished
  · intro row source isPtr
    rcases contents.pointed isPtr with old | ⟨thread, job, -, -, impossible⟩
    · exact ⟨valid.original old, old⟩
    · cases impossible
  · intro row slot isPtr
    rcases contents.pointed isPtr with old | ⟨thread, job, stored, -, isSlot⟩
    · exact Or.inl old
    · injection isSlot with equal
      refine Or.inr ⟨thread, ⟨job, Phase.job_of_stored stored, equal.symm⟩, ?_⟩
      rintro other ⟨job', isJob', isSlot'⟩
      by_contra different
      have apart := contents.places.apart isJob' (Phase.job_of_stored stored) different
      exact apart.1 (isSlot'.trans equal)
  · exact contents.kept
  · exact fun isJob => (isStored isJob).row
  · exact fun isJob => ⟨contents.places.slot_ge isJob, contents.places.offset_ge isJob⟩
  · exact fun isJob => ⟨contents.places.slot_lt isJob, contents.places.end_le isJob⟩
  · exact contents.places.apart
  · rw [serialized.aborts, total_eq_card]
    congr 1
    ext thread
    rw [Finset.mem_filter, Finset.mem_filter, aborted_of_exited (finished thread),
      Option.isNone_iff_eq_none]
  · intro row
    by_contra marked
    rcases contents.locked.owned row marked with ⟨thread, isThread⟩
    have holds := (contents.locked.held_iff thread row).mpr isThread
    have exited := finished thread
    rw [KernelState.held] at holds
    cases isPhase : state.threads thread with
    | exited =>
      rw [isPhase] at holds
      cases holds
    | _ =>
      rw [isPhase] at exited
      cases exited
  · exact serialized.valid finished valid

/-- Every finished launch on a device that launches can reach is a serial one. -/
theorem executeMerges_launched (launch : Launch rows)
    (reached : Reached launch.context launch.device) (schedule : List launch.Thread)
    (finished : (runKernel launch schedule).Finished) :
    ∃ order, Launched launch (runKernel launch schedule) order := by
  rcases exists_serialized reached.valid schedule with ⟨order, serialized⟩
  exact ⟨order, serialized.launched finished reached.valid⟩

theorem two_lt_rows : 2 < 2 ^ 31 := by decide

theorem three_lt_rows : 3 < 2 ^ 31 := by decide

theorem four_le_rows : (4 : BitVec 32).toNat ≤ 2 ^ 31 := by decide

theorem eight_le_entries : (8 : BitVec 32).toNat ≤ 2 ^ 32 - 2 ^ 8 := by decide

def sharedContext : Context 3 where
  csr row := ⟨[(row.val, 1)], UInt512.ofUInt32 1, 1, 0, 0⟩
  mont := Montgomery.ofModulus (UInt512.ofUInt32 15)
  maxRows := 4
  maxEntries := 8
  rows_lt := three_lt_rows
  maxRows_le := four_le_rows
  maxEntries_le := eight_le_entries

def emptyWorkspace : Workspace where
  entries _ := (0, 0)
  rowStarts _ := 0
  rowLengths _ := 0
  sqrtQ _ := UInt512.ofUInt32 0
  signs _ := 1
  val2Exps _ := 0
  charBits _ := 0

def sharedLaunch : Launch 3 where
  context := sharedContext
  device := freshDevice sharedContext emptyWorkspace
  candidates := [⟨0, 1, 0⟩, ⟨2, 1, 0⟩]

def turns : List sharedLaunch.Thread :=
  (List.replicate 40 [⟨0, by decide⟩, ⟨1, by decide⟩]).flatten

theorem executeMerges_launched_shared : (runKernel sharedLaunch turns).Finished ∧
    ∃ order, Launched sharedLaunch (runKernel sharedLaunch turns) order := by
  have finished : (runKernel sharedLaunch turns).Finished := by
    decide +kernel
  exact ⟨finished, executeMerges_launched sharedLaunch (.fresh emptyWorkspace) _ finished⟩

end CudaMpqs.BatchMerge
