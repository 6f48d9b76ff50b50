import CudaMpqs.Matrix.MergeMemory

/-! # Serial merges

Whatever the interleaving, a launch of `execute_merges_kernel` does what its
reservations would do one after the other. -/

namespace CudaMpqs.BatchMerge

open Combine Function Transition PackedRow RowJoin ThreadTotals

variable {rows : Nat} {launch : Launch rows}

/-! ## The serial table -/

def serial (launch : Launch rows) (order : List launch.Thread) : Fin rows → Option PackedRow :=
  replay (join launch.context.mont) (launch.device.table launch.context)
    (order.map fun thread => (launch.candidate thread).pair)

theorem serial_concat (order : List launch.Thread) (thread : launch.Thread) :
    serial launch (order ++ [thread]) = joinPair (join launch.context.mont) (serial launch order)
        (launch.candidate thread).pair := by
  rw [serial, List.map_append]
  exact replay_concat _ _

structure Mergeable (table : Fin rows → Option PackedRow) (candidate : MergeCandidate rows)
    (left right : PackedRow) : Prop where
  different : candidate.r1 ≠ candidate.r2
  first : table candidate.r1 = some left
  second : table candidate.r2 = some right
  fits : Fits left right

theorem Mergeable.joinable {table : Fin rows → Option PackedRow}
    {candidate : MergeCandidate rows} {left right : PackedRow}
    (mergeable : Mergeable table candidate left right) : Joinable table candidate.pair where
  different := mergeable.different
  leftAlive := Option.isSome_of_eq_some mergeable.first
  rightAlive := Option.isSome_of_eq_some mergeable.second

theorem fits_of_mergeRows {mont : Montgomery} {left right row : PackedRow}
    (merges : mergeRows mont left right = some row) : Fits left right := by
  rw [mergeRows_eq] at merges
  split at merges
  · assumption
  · cases merges

/-! ## Weights -/

def rowCount (gf2 : Bool) (c : Nat) (row : PackedRow) : Nat :=
  if gf2 then row.oddCount c else row.entryCount c

def Device.weight (device : Device rows) (gf2 : Bool) (c : Nat) : BitVec 32 :=
  if gf2 then device.gf2ColWeight c else device.colWeight c

theorem Device.Valid.weight {context : Context rows} {device : Device rows}
    (valid : device.Valid context) (gf2 : Bool) (c : Nat) :
    device.weight gf2 c = columnWeight (rowCount gf2 c) (device.table context) := by
  cases gf2 with
  | false => exact valid.colWeight c
  | true => exact valid.gf2ColWeight c

def WeightUpdate.delta (gf2 : Bool) (c : Nat) : WeightUpdate → BitVec 32
  | .colWeight column delta => if gf2 = false ∧ column = c then delta else 0
  | .gf2ColWeight column delta => if gf2 = true ∧ column = c then delta else 0

def deltas (gf2 : Bool) (c : Nat) (updates : List WeightUpdate) : BitVec 32 :=
  (updates.map (WeightUpdate.delta gf2 c)).sum

theorem weight_apply (memory : Memory rows) (change : WeightUpdate) (gf2 : Bool) (c : Nat) :
    (change.apply memory).weight gf2 c = memory.weight gf2 c + change.delta gf2 c := by
  cases change with
  | colWeight column delta =>
    cases gf2 with
    | false =>
      change update memory.colWeight column _ c = memory.colWeight c + _
      rw [update_apply, WeightUpdate.delta]
      by_cases same : c = column
      · rw [if_pos same, if_pos ⟨rfl, same.symm⟩, same]
      · rw [if_neg same, if_neg fun both => same both.2.symm, add_zero]
    | true => exact (add_zero _).symm
  | gf2ColWeight column delta =>
    cases gf2 with
    | false => exact (add_zero _).symm
    | true =>
      change update memory.gf2ColWeight column _ c = memory.gf2ColWeight c + _
      rw [update_apply, WeightUpdate.delta]
      by_cases same : c = column
      · rw [if_pos same, if_pos ⟨rfl, same.symm⟩, same]
      · rw [if_neg same, if_neg fun both => same both.2.symm, add_zero]

theorem deltas_append (gf2 : Bool) (c : Nat) (left right : List WeightUpdate) :
    deltas gf2 c (left ++ right) = deltas gf2 c left + deltas gf2 c right := by
  rw [deltas, List.map_append, List.sum_append, deltas, deltas]

theorem deltas_colWeight (gf2 : Bool) (c : Nat) (delta : BitVec 32) (entries : List PackedEntry) :
    deltas gf2 c (entries.map fun entry => .colWeight entry.1 delta) =
      if gf2 then 0 else (entries.countP (·.1 == c) : BitVec 32) * delta := by
  induction entries with
  | nil => cases gf2 <;> simp [deltas]
  | cons entry entries induction =>
    have step := deltas_append gf2 c [.colWeight entry.1 delta]
      (entries.map fun entry => .colWeight entry.1 delta)
    rw [List.map_cons, ← List.singleton_append, step, induction, List.countP_cons]
    cases gf2 <;> by_cases same : entry.1 = c <;>
      simp [deltas, WeightUpdate.delta, same, add_mul, add_comm]

private theorem deltas_gf2ColWeight (gf2 : Bool) (c : Nat) (delta : BitVec 32)
    (entries : List PackedEntry) :
    deltas gf2 c ((entries.filter oddExp).map fun entry => .gf2ColWeight entry.1 delta) =
      if gf2 then
        (entries.countP (fun entry => entry.1 == c && oddExp entry) : BitVec 32) * delta
      else 0 := by
  induction entries with
  | nil => cases gf2 <;> simp [deltas]
  | cons entry entries induction =>
    cases isOdd : oddExp entry with
    | false =>
      rw [List.filter_cons_of_neg (by simp [isOdd]), induction, List.countP_cons]
      simp [isOdd]
    | true =>
      have step := deltas_append gf2 c [.gf2ColWeight entry.1 delta]
        ((entries.filter oddExp).map fun entry => .gf2ColWeight entry.1 delta)
      rw [List.filter_cons_of_pos isOdd, List.map_cons, ← List.singleton_append, step,
        induction, List.countP_cons]
      cases gf2 <;> by_cases same : entry.1 = c <;>
        simp [deltas, WeightUpdate.delta, same, isOdd, add_mul, add_comm]

theorem deltas_weightUpdates (gf2 : Bool) (c : Nat) (left right row : PackedRow) :
    deltas gf2 c (weightUpdates left.entries right.entries row.entries) +
        ((rowCount gf2 c left : BitVec 32) + (rowCount gf2 c right : BitVec 32)) =
      (rowCount gf2 c row : BitVec 32) := by
  simp only [weightUpdates, deltas_append, deltas_colWeight, deltas_gf2ColWeight]
  cases gf2 with
  | false =>
    simp only [rowCount, entryCount, Bool.false_eq_true, if_false]
    ring
  | true =>
    simp only [rowCount, oddCount, if_true]
    ring

def pending (context : Context rows) (workspace : Workspace) (gf2 : Bool) (c : Nat)
    (phase : Phase rows) : BitVec 32 :=
  match phase, phase.transitJob with
  | .weighing _ updates, _ => deltas gf2 c updates
  | _, some job => deltas gf2 c (weightUpdates (resolve context workspace job.ptr1).entries
      (resolve context workspace job.ptr2).entries job.row.entries)
  | _, none => 0

def Phase.Aborted : Phase rows → Bool
  | .exited .aborted => true
  | _ => false

def Settled (state : KernelState launch) (row : Fin rows) : Prop :=
  ∀ thread job, (state.threads thread).transitJob = some job →
    row ≠ (launch.candidate thread).r1 ∧ row ≠ (launch.candidate thread).r2

structure Serialized (state : KernelState launch) (order : List launch.Thread) : Prop where
  contents : Contents state
  nodup : order.Nodup
  mem_iff : ∀ thread, thread ∈ order ↔ (state.threads thread).job.isSome
  ascending : order.Pairwise fun earlier later => ∀ job job',
    (state.threads earlier).job = some job → (state.threads later).job = some job' →
      job.slot < job'.slot
  mergeable : ∀ {before thread after}, order = before ++ thread :: after →
    ∃ left right, Mergeable (serial launch before) (launch.candidate thread) left right ∧
      ∀ {job}, (state.threads thread).job = some job →
        job.row = join launch.context.mont left right
  transit : ∀ {thread job}, (state.threads thread).transitJob = some job →
    serial launch order (launch.candidate thread).r1 = some job.row ∧
      serial launch order (launch.candidate thread).r2 = none
  view : ∀ row, Settled state row → state.memory.table launch.context row = serial launch order row
  aborts : state.memory.abortCount = total (fun phase => phase.Aborted.toNat) state.threads
  weights : ∀ gf2 c, state.memory.weight gf2 c + ∑ thread,
      pending launch.context state.memory.workspace gf2 c (state.threads thread) =
    columnWeight (rowCount gf2 c) (serial launch order)

theorem serialized_start (valid : launch.device.Valid launch.context) :
    Serialized (kernelStart launch) [] where
  contents := contents_start valid
  nodup := .nil
  mem_iff thread := by simp [kernelStart, Phase.job]
  ascending := .nil
  mergeable equal := by
    rcases List.append_eq_nil_iff.mp equal.symm with ⟨-, impossible⟩
    cases impossible
  transit isTransit := nomatch isTransit
  view _ _ := rfl
  aborts := by simp [total, kernelStart, Phase.Aborted]
  weights gf2 c := by
    have none : ∑ thread, pending launch.context (kernelStart launch).memory.workspace gf2 c
        ((kernelStart launch).threads thread) = 0 := Finset.sum_eq_zero fun _ _ => rfl
    rw [none, add_zero]
    exact valid.weight gf2 c

section Step

variable {state : KernelState launch} {order : List launch.Thread} {thread : launch.Thread}
  {memory' : Memory rows} {phase' : Phase rows}

theorem Serialized.settled (serialized : Serialized state order)
    (waiting : (state.threads thread).transitJob = none) {row : Fin rows}
    (holds : row ∈ state.held thread) : Settled state row := by
  intro other job isTransit
  have different : other ≠ thread := by
    rintro rfl
    rw [waiting] at isTransit
    cases isTransit
  have isHeld : state.held other = _ := Phase.held_of_transit isTransit _
  have notHeld : row ∉ state.held other := fun also =>
    different (serialized.contents.locked.exclusive also holds)
  rw [isHeld, List.mem_cons, List.mem_singleton, not_or] at notHeld
  exact notHeld

theorem Contents.sourced (contents : Contents state) {job : Job rows}
    (isTransit : (state.threads thread).transitJob = some job) : Sourced state job := by
  have backed := contents.backed thread
  cases isPhase : state.threads thread with
  | writing =>
    rw [isPhase] at backed isTransit
    injection isTransit with equal
    exact equal ▸ backed.2.1
  | describing =>
    rw [isPhase] at backed isTransit
    injection isTransit with equal
    exact equal ▸ backed.2.1
  | publishing =>
    rw [isPhase] at backed isTransit
    injection isTransit with equal
    exact equal ▸ backed.2
  | consuming =>
    rw [isPhase] at backed isTransit
    injection isTransit with equal
    exact equal ▸ backed.2
  | _ =>
    rw [isPhase] at isTransit
    cases isTransit

variable (valid : launch.device.Valid launch.context) (serialized : Serialized state order)
  (acts : Acts launch thread state.memory (state.threads thread) memory' phase')

include valid serialized acts in
theorem Serialized.table_eq {row : Fin rows} (same : memory'.rowPtr row = state.memory.rowPtr row) :
    memory'.table launch.context row = state.memory.table launch.context row := by
  rw [Device.table, Device.table, same]
  cases isPtr : state.memory.rowPtr row with
  | none => rfl
  | some ptr =>
    have known := serialized.contents.known valid isPtr
    exact congrArg some (serialized.contents.resolve_eq valid acts known)

include valid serialized acts in
theorem Serialized.pending_eq (other : launch.Thread) (gf2 : Bool) (c : Nat) :
    pending launch.context memory'.workspace gf2 c (state.threads other) =
      pending launch.context state.memory.workspace gf2 c (state.threads other) := by
  unfold pending
  split
  · rfl
  · rename_i job isTransit _
    have sourced := serialized.contents.sourced isTransit
    rw [serialized.contents.resolve_eq valid acts sourced.ptr1,
      serialized.contents.resolve_eq valid acts sourced.ptr2]
  · rfl

include valid serialized acts in
theorem Serialized.sum_pending (gf2 : Bool) (c : Nat) :
    ∑ other, pending launch.context memory'.workspace gf2 c
          ((state.advance thread memory' phase').threads other) +
        pending launch.context state.memory.workspace gf2 c (state.threads thread) =
      ∑ other, pending launch.context state.memory.workspace gf2 c (state.threads other) +
        pending launch.context memory'.workspace gf2 c phase' := by
  have change := sum_of_others
    (fun other => pending launch.context state.memory.workspace gf2 c (state.threads other))
    (fun other => pending launch.context memory'.workspace gf2 c
      ((state.advance thread memory' phase').threads other)) thread (by
        intro other different
        rw [threads_advance, if_neg different]
        exact serialized.pending_eq valid acts other gf2 c)
  rwa [threads_advance_self] at change

include serialized in
theorem Serialized.total_aborts (aborted : memory'.abortCount +
      (state.threads thread).Aborted.toNat = state.memory.abortCount + phase'.Aborted.toNat) :
    memory'.abortCount = total (fun phase => phase.Aborted.toNat)
      (state.advance thread memory' phase').threads := by
  have change := total_update (fun phase => phase.Aborted.toNat) state.threads thread phase'
  have before := serialized.aborts
  change _ = total _ (update state.threads thread phase')
  omega

private theorem job_advance (job : phase'.job = (state.threads thread).job)
    (other : launch.Thread) :
    ((state.advance thread memory' phase').threads other).job = (state.threads other).job := by
  rw [threads_advance]
  split
  · rename_i isOwn
    rw [isOwn, job]
  · rfl

include valid serialized acts in
theorem Serialized.quiet (aborted : memory'.abortCount +
      (state.threads thread).Aborted.toNat = state.memory.abortCount + phase'.Aborted.toNat)
    (weighs : ∀ gf2 c, memory'.weight gf2 c +
        pending launch.context memory'.workspace gf2 c phase' =
      state.memory.weight gf2 c +
        pending launch.context state.memory.workspace gf2 c (state.threads thread))
    (job : phase'.job = (state.threads thread).job)
    (transit : ∀ job, phase'.transitJob = some job → (state.threads thread).transitJob = some job)
    (view : ∀ row, Settled (state.advance thread memory' phase') row →
      memory'.table launch.context row = serial launch order row) :
    Serialized (state.advance thread memory' phase') order where
  contents := serialized.contents.advance valid acts
  nodup := serialized.nodup
  mem_iff other := by
    rw [serialized.mem_iff other, job_advance job]
  ascending := by
    simp only [job_advance job]
    exact serialized.ascending
  mergeable := by
    simp only [job_advance job]
    exact serialized.mergeable
  transit := by
    intro other job' isTransit
    apply serialized.transit
    change (update state.threads thread phase' other).transitJob = some job' at isTransit
    by_cases isOwn : other = thread
    · rw [isOwn, update_self] at isTransit
      rw [isOwn]
      exact transit job' isTransit
    · rwa [update_of_ne isOwn] at isTransit
  view := view
  aborts := serialized.total_aborts aborted
  weights gf2 c := by
    have change := serialized.sum_pending valid acts gf2 c
    have own := weighs gf2 c
    rw [← serialized.weights gf2 c]
    change memory'.weight gf2 c + ∑ other, pending launch.context memory'.workspace gf2 c
      ((state.advance thread memory' phase').threads other) = _
    grind

include valid serialized acts in
theorem Serialized.still (aborted : memory'.abortCount +
      (state.threads thread).Aborted.toNat = state.memory.abortCount + phase'.Aborted.toNat)
    (weighs : ∀ gf2 c, memory'.weight gf2 c +
        pending launch.context memory'.workspace gf2 c phase' =
      state.memory.weight gf2 c +
        pending launch.context state.memory.workspace gf2 c (state.threads thread))
    (job : phase'.job = (state.threads thread).job)
    (transit : phase'.transitJob = (state.threads thread).transitJob)
    (rowPtr : ∀ row, memory'.rowPtr row ≠ state.memory.rowPtr row →
      phase'.transitJob.isSome ∧ row = (launch.candidate thread).r1) :
    Serialized (state.advance thread memory' phase') order := by
  refine serialized.quiet valid acts aborted weighs job
    (fun job isTransit => transit ▸ isTransit) ?_
  intro row settled
  have before : Settled state row := by
    intro other job' isTransit
    apply settled other job'
    change (update state.threads thread phase' other).transitJob = some job'
    by_cases isOwn : other = thread
    · rw [isOwn, update_self, transit, ← isOwn]
      exact isTransit
    · rwa [update_of_ne isOwn]
  rw [← serialized.view row before]
  apply serialized.table_eq valid acts
  by_contra changed
  rcases rowPtr row changed with ⟨inTransit, isRow⟩
  rcases Option.isSome_iff_exists.mp inTransit with ⟨job', isJob⟩
  refine (settled thread job' ?_).1 isRow
  rw [threads_advance_self]
  exact isJob

structure PairRead (launch : Launch rows) (order : List launch.Thread) (thread : launch.Thread)
    (left right row : PackedRow) : Prop where
  mergeable : Mergeable (serial launch order) (launch.candidate thread) left right
  first : serial launch order (launch.candidate thread).r1 = some left
  second : serial launch order (launch.candidate thread).r2 = some right
  different : (launch.candidate thread).r1 ≠ (launch.candidate thread).r2
  row_eq : row = join launch.context.mont left right

include serialized in
theorem Serialized.pairRead {ptr1 ptr2 : RowPtr rows} {row : PackedRow}
    (isPhase : state.threads thread = .merged ptr1 ptr2 row) :
    PairRead launch order thread (resolve launch.context state.memory.workspace ptr1)
      (resolve launch.context state.memory.workspace ptr2) row := by
  have backed := serialized.contents.backed thread
  rw [isPhase] at backed
  have waiting : (state.threads thread).transitJob = none := by rw [isPhase]; rfl
  have isHeld : state.held thread = _ := congrArg (Phase.held _) isPhase
  have different := serialized.contents.different isPhase rfl
  have first : serial launch order (launch.candidate thread).r1 =
      some (resolve launch.context state.memory.workspace ptr1) := by
    rw [← serialized.view _ (serialized.settled waiting (by rw [isHeld]; simp [Phase.held])),
      Device.table, backed.1.first]
    rfl
  have second : serial launch order (launch.candidate thread).r2 =
      some (resolve launch.context state.memory.workspace ptr2) := by
    rw [← serialized.view _ (serialized.settled waiting (by rw [isHeld]; simp [Phase.held])),
      Device.table, backed.1.second]
    rfl
  exact ⟨⟨different, first, second, fits_of_mergeRows backed.2⟩, first, second, different,
    (length_le_of_mergeRows backed.2).2⟩

section PairRead

variable {left right row : PackedRow} (merged : PairRead launch order thread left right row)

include merged

theorem PairRead.serial_concat : serial launch (order ++ [thread]) =
    update (update (serial launch order) (launch.candidate thread).r1 (some row))
      (launch.candidate thread).r2 none := by
  rw [BatchMerge.serial_concat, joinPair_eq merged.first merged.second, merged.row_eq]
  rfl

theorem PairRead.elsewhere {other : Fin rows} (notFirst : other ≠ (launch.candidate thread).r1)
    (notSecond : other ≠ (launch.candidate thread).r2) :
    serial launch (order ++ [thread]) other = serial launch order other := by
  rw [merged.serial_concat, update_of_ne notSecond, update_of_ne notFirst]

theorem PairRead.own : serial launch (order ++ [thread]) (launch.candidate thread).r1 = some row ∧
    serial launch (order ++ [thread]) (launch.candidate thread).r2 = none := by
  rw [merged.serial_concat, update_of_ne merged.different, update_self, update_self]
  exact ⟨rfl, rfl⟩

end PairRead

section Reserve

variable {ptr1 ptr2 : RowPtr rows} {row : PackedRow} {reserved : DualCounter} {job : Job rows}
  (isPhase : state.threads thread = .merged ptr1 ptr2 row)

include serialized isPhase

theorem Serialized.ne_of_mem {other : launch.Thread} (member : other ∈ order) : other ≠ thread := by
  rintro rfl
  rw [serialized.mem_iff, isPhase] at member
  cases member

/-- The new job is the last, in the order and in the workspace. -/
theorem Serialized.ascending_reserve (last : ∀ {other job'}, (state.threads other).job = some job' →
      job'.slot < job.slot) :
    (order ++ [thread]).Pairwise fun earlier later => ∀ job₁ job₂,
      ((state.advance thread memory' (.writing job 0)).threads earlier).job = some job₁ →
        ((state.advance thread memory' (.writing job 0)).threads later).job = some job₂ →
          job₁.slot < job₂.slot := by
  refine List.pairwise_append.mpr ⟨?_, List.pairwise_singleton _ _, ?_⟩
  · refine serialized.ascending.imp_of_mem ?_
    intro earlier later isEarlier isLater less
    rw [threads_advance, threads_advance, if_neg (serialized.ne_of_mem isPhase isEarlier),
      if_neg (serialized.ne_of_mem isPhase isLater)]
    exact less
  · intro earlier isEarlier later isLater job₁ job₂ isJob₁ isJob₂
    rw [List.mem_singleton.mp isLater, threads_advance_self] at isJob₂
    rw [threads_advance, if_neg (serialized.ne_of_mem isPhase isEarlier)] at isJob₁
    injection isJob₂ with equal
    rw [← equal]
    exact last isJob₁

theorem Serialized.mergeable_reserve (isRow : job.row = row)
    {before : List launch.Thread} {other : launch.Thread} {after : List launch.Thread}
    (equal : order ++ [thread] = before ++ other :: after) :
    ∃ left right, Mergeable (serial launch before) (launch.candidate other) left right ∧
      ∀ {job'}, ((state.advance thread memory' (.writing job 0)).threads other).job = some job' →
        job'.row = join launch.context.mont left right := by
  have merged := serialized.pairRead isPhase
  have own : ∀ {job'}, (Phase.writing job 0).job = some job' → job'.row = join launch.context.mont
      (resolve launch.context state.memory.workspace ptr1)
      (resolve launch.context state.memory.workspace ptr2) := by
    intro job' isJob
    injection isJob with same
    rw [← same, isRow]
    exact merged.row_eq
  rcases List.append_eq_append_iff.mp equal with ⟨middle, isBefore, tail⟩ | ⟨middle, isOrder, tail⟩
  · rcases middle with _ | ⟨head, middle⟩
    · rw [List.nil_append, List.cons.injEq] at tail
      rw [isBefore, List.append_nil, ← tail.1, threads_advance_self]
      exact ⟨_, _, merged.mergeable, own⟩
    · have lengths := congrArg List.length tail
      simp at lengths
  · rcases middle with _ | ⟨head, middle⟩
    · rw [List.nil_append, List.cons.injEq] at tail
      rw [List.append_nil] at isOrder
      rw [← isOrder, tail.1, threads_advance_self]
      exact ⟨_, _, merged.mergeable, own⟩
    · rw [List.cons_append, List.cons.injEq] at tail
      rw [← tail.1] at isOrder
      have inside : other ∈ order := by simp [isOrder]
      rw [threads_advance, if_neg (serialized.ne_of_mem isPhase inside)]
      exact serialized.mergeable isOrder

theorem Serialized.transit_reserve (isRow : job.row = row) {other : launch.Thread}
    {job' : Job rows} (isTransit :
      ((state.advance thread memory' (.writing job 0)).threads other).transitJob = some job') :
    serial launch (order ++ [thread]) (launch.candidate other).r1 = some job'.row ∧
      serial launch (order ++ [thread]) (launch.candidate other).r2 = none := by
  have merged := serialized.pairRead isPhase
  change (update state.threads thread _ other).transitJob = some job' at isTransit
  by_cases isOwn : other = thread
  · rw [isOwn, update_self] at isTransit
    injection isTransit with equal
    rw [isOwn, ← equal, isRow]
    exact merged.own
  · rw [update_of_ne isOwn] at isTransit
    have isHeld : state.held thread = _ := congrArg (Phase.held _) isPhase
    have otherHeld : state.held other = _ := Phase.held_of_transit isTransit _
    have apart : ∀ row ∈ state.held other, row ≠ (launch.candidate thread).r1 ∧
        row ≠ (launch.candidate thread).r2 := by
      intro row holds
      have notHeld : row ∉ state.held thread := fun also =>
        isOwn (serialized.contents.locked.exclusive holds also)
      rw [isHeld] at notHeld
      simpa [Phase.held] using notHeld
    rw [otherHeld] at apart
    have firstApart := apart _ List.mem_cons_self
    have secondApart := apart _ (List.mem_cons_of_mem _ (List.mem_singleton_self _))
    rw [merged.elsewhere firstApart.1 firstApart.2, merged.elsewhere secondApart.1 secondApart.2]
    exact serialized.transit isTransit

include valid in
theorem Serialized.view_reserve (acts : Acts launch thread state.memory (state.threads thread)
      memory' (.writing job 0)) (same : memory'.rowPtr = state.memory.rowPtr) {other : Fin rows}
    (settled : Settled (state.advance thread memory' (.writing job 0)) other) :
    memory'.table launch.context other = serial launch (order ++ [thread]) other := by
  have own := settled thread _ (congrArg Phase.transitJob (threads_advance_self ..))
  have before : Settled state other := by
    intro another job' isTransit
    apply settled another job'
    have notThread : another ≠ thread := by
      rintro rfl
      rw [isPhase] at isTransit
      cases isTransit
    change (update state.threads thread _ another).transitJob = some job'
    rwa [update_of_ne notThread]
  rw [(serialized.pairRead isPhase).elsewhere own.1 own.2, ← serialized.view other before]
  exact serialized.table_eq valid acts (congrFun same other)

include valid in
theorem Serialized.weights_reserve (isJob : job.ptr1 = ptr1 ∧ job.ptr2 = ptr2 ∧ job.row = row)
    (acts : Acts launch thread state.memory (state.threads thread) memory' (.writing job 0))
    (unchanged : memory'.workspace = state.memory.workspace ∧
      ∀ gf2 c, memory'.weight gf2 c = state.memory.weight gf2 c) (gf2 : Bool) (c : Nat) :
    memory'.weight gf2 c + ∑ other, pending launch.context memory'.workspace gf2 c
        ((state.advance thread memory' (.writing job 0)).threads other) =
      columnWeight (rowCount gf2 c) (serial launch (order ++ [thread])) := by
  rcases isJob with ⟨rfl, rfl, rfl⟩
  have merged := serialized.pairRead isPhase
  have change := serialized.sum_pending valid acts gf2 c
  have before := serialized.weights gf2 c
  have joined := sum_joinPair (join launch.context.mont)
    (fun packed => (rowCount gf2 c packed : BitVec 32)) (launch.candidate thread).pair
    merged.different merged.first merged.second
  have weighed := deltas_weightUpdates gf2 c
    (resolve launch.context state.memory.workspace job.ptr1)
    (resolve launch.context state.memory.workspace job.ptr2) job.row
  rw [← BatchMerge.serial_concat, ← merged.row_eq] at joined
  rw [isPhase, unchanged.1] at change
  rw [unchanged.1, unchanged.2]
  unfold columnWeight at before ⊢
  change ∑ other, _ + 0 = _ + deltas gf2 c _ at change
  grind

include valid in
theorem Serialized.reserve (reserves : atomicReserveDual state.memory.counter
      (BitVec.ofNat 32 row.entries.length) launch.context.maxRows launch.context.maxEntries =
        some reserved) :
    Serialized (state.advance thread { state.memory with counter := reserved }
      (.writing ⟨ptr1, ptr2, row, state.memory.counter.relations.toNat,
        state.memory.counter.factors.toNat⟩ 0)) (order ++ [thread]) := by
  have acts : Acts launch thread state.memory (state.threads thread)
      { state.memory with counter := reserved }
      (.writing ⟨ptr1, ptr2, row, state.memory.counter.relations.toNat,
        state.memory.counter.factors.toNat⟩ 0) := by
    rw [isPhase]
    exact .reserve reserves
  constructor
  · exact serialized.contents.advance valid acts
  · refine List.nodup_append.mpr ⟨serialized.nodup, List.nodup_singleton _, ?_⟩
    intro other member single isSingle
    rw [List.mem_singleton.mp isSingle]
    exact serialized.ne_of_mem isPhase member
  · intro other
    rw [List.mem_append, List.mem_singleton, serialized.mem_iff, threads_advance]
    split
    · rename_i isOwn
      simp [isOwn, Phase.job]
    · rename_i isOther
      simp [isOther]
  · exact serialized.ascending_reserve isPhase serialized.contents.places.slot_lt
  · exact serialized.mergeable_reserve isPhase rfl
  · exact serialized.transit_reserve isPhase rfl
  · exact fun other => serialized.view_reserve valid isPhase acts rfl
  · exact serialized.total_aborts (by rw [isPhase]; rfl)
  · exact serialized.weights_reserve valid isPhase ⟨rfl, rfl, rfl⟩ acts ⟨rfl, fun _ _ => rfl⟩

end Reserve

include valid serialized in
theorem Serialized.consume {job : Job rows} (isPhase : state.threads thread = .consuming job)
    {updates : List WeightUpdate}
    (acts : Acts launch thread state.memory (state.threads thread)
      (state.memory.setRowPtr (launch.candidate thread).r2 none) (.weighing job updates)) :
    Serialized (state.advance thread (state.memory.setRowPtr (launch.candidate thread).r2 none)
      (.weighing job updates)) order := by
  have contents := serialized.contents
  have backed := contents.backed thread
  rw [isPhase] at backed
  have different := contents.different isPhase rfl
  have inTransit : (state.threads thread).transitJob = some job := by rw [isPhase]; rfl
  have transit := serialized.transit inTransit
  refine serialized.quiet valid acts (by rw [isPhase]; rfl) ?_ (by rw [isPhase]; rfl) nofun ?_
  · intro gf2 c
    rw [isPhase] at acts ⊢
    cases acts
    rfl
  intro row settled
  by_cases isSecond : row = (launch.candidate thread).r2
  · rw [isSecond, transit.2, Device.table]
    change (update state.memory.rowPtr _ none _).map _ = none
    rw [update_self]
    rfl
  by_cases isFirst : row = (launch.candidate thread).r1
  · have storedJob : (state.threads thread).storedJob = some job := by rw [isPhase]; rfl
    have isStored := contents.stored storedJob
    rw [isFirst, transit.1, Device.table]
    change (update state.memory.rowPtr _ none _).map _ = _
    rw [update_of_ne different, backed.1.first]
    exact congrArg some isStored.row
  · have before : Settled state row := by
      intro other job' isTransit
      by_cases isOwn : other = thread
      · rw [isOwn]
        exact ⟨isFirst, isSecond⟩
      · apply settled other job'
        change (update state.threads thread _ other).transitJob = some job'
        rwa [update_of_ne isOwn]
    rw [← serialized.view row before]
    exact serialized.table_eq valid acts (update_of_ne isSecond _ _)

include valid serialized acts in
theorem Serialized.advance : ∃ added, Serialized (state.advance thread memory' phase')
    (order ++ added) := by
  have quiet : Serialized (state.advance thread memory' phase') order →
      ∃ added, Serialized (state.advance thread memory' phase') (order ++ added) :=
    fun next => ⟨[], by rwa [List.append_nil]⟩
  have still := serialized.still valid acts
  have same := serialized.pending_eq valid acts thread
  have whole := acts
  generalize isPhase : state.threads thread = phase at acts still same
  cases acts with
  | reserve reserves => exact ⟨[thread], serialized.reserve valid isPhase reserves⟩
  | consume job => exact quiet (serialized.consume valid isPhase whole)
  | publish job =>
    apply quiet
    apply still rfl (fun _ _ => rfl) rfl rfl
    intro row changed
    refine ⟨rfl, ?_⟩
    by_contra isOther
    exact changed (update_of_ne isOther _ _)
  | weigh job change updates =>
    apply quiet
    apply still (by cases change <;> rfl) ?_ rfl rfl
      fun row changed => absurd (by cases change <;> rfl) changed
    intro gf2 c
    have split := deltas_append gf2 c [change] updates
    have single : deltas gf2 c [change] = change.delta gf2 c := add_zero _
    rw [weight_apply, pending, pending, ← List.singleton_append, split, single, add_assoc]
  | write isEntry =>
    apply quiet
    apply still rfl (fun gf2 c => congrArg (_ + ·) (same gf2 c)) rfl rfl
    exact fun row changed => absurd rfl changed
  | describe open' =>
    apply quiet
    apply still rfl (fun gf2 c => congrArg (_ + ·) (same gf2 c)) rfl rfl
    exact fun row changed => absurd rfl changed
  | countAbort =>
    exact quiet (still rfl (fun _ _ => rfl) rfl rfl fun row changed => absurd rfl changed)
  | @unlock fate =>
    exact quiet (still rfl (fun _ _ => rfl) (by cases fate <;> rfl) rfl
      fun row changed => absurd rfl changed)
  | _ => exact quiet (still rfl (fun _ _ => rfl) rfl rfl fun row changed => absurd rfl changed)

end Step

end CudaMpqs.BatchMerge
