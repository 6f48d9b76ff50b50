import Mathlib.Algebra.Field.ZMod
import CudaMpqs.Matrix.MergePlan

/-! # Planning higher-weight merges

`planHigherWeightMerges` plans one pivot against the other rows of its column, but
the kernel consumes the pivot in the first of these merges. A round keeps the
dependencies only where every one of these merges alone would. -/

namespace CudaMpqs.BatchMerge

open Combine Function Transition PackedRow RowJoin

variable {rows : Nat} {matrix : PackedCsr rows} {device : Device rows}

/-! ## Host -/

def buildInvertedIndexFull (matrix : PackedCsr rows) (device : Device rows) (c : Nat) :
    List (Fin rows) :=
  (List.finRange rows).flatMap fun r =>
    match device.rowPtr r with
    | some ptr => pushRows matrix.nCols c r
        (resolve matrix.toContext device.workspace ptr).entries
    | none => []

def rowWeights (matrix : PackedCsr rows) (device : Device rows) (r : Fin rows) : BitVec 32 :=
  match device.rowPtr r with
  | some ptr =>
    BitVec.ofNat 32 (resolve matrix.toContext device.workspace ptr).entries.length
  | none => 0

def eligibleColumns (matrix : PackedCsr rows) (device : Device rows) (kMax : BitVec 32) :
    List (BitVec 32 × Nat) :=
  ((List.range matrix.nCols).filterMap fun c =>
    let w := device.gf2ColWeight c
    if 3 ≤ w ∧ w ≤ kMax then some (w, c) else none).mergeSort fun left right =>
      decide (left.1 < right.1) || (left.1 == right.1 && decide (left.2 ≤ right.2))

def lightestIndex (weights : Fin rows → BitVec 32) (containing : List (Fin rows)) : Nat :=
  (List.range' 1 (containing.length - 1)).foldl (fun best i =>
    match containing[i]?, containing[best]? with
    | some row, some pivot => if weights row < weights pivot then i else best
    | _, _ => best) 0

/-- The candidate of one row with the pivot, and whether any was emitted. -/
def emitMerge (weights : Fin rows → BitVec 32) (maxFillIn : BitVec 32) (c : Nat)
    (pivot : Fin rows) (emitted : Plan rows × Bool) (r : Fin rows) : Plan rows × Bool :=
  if emitted.1.rowUsed r then emitted
  else if maxFillIn < weights r + weights pivot then emitted
  else (⟨emitted.1.candidates ++ [⟨r, pivot, c⟩], update emitted.1.rowUsed r true⟩, true)

def planHigherColumn (device : Device rows) (kMax maxFillIn : BitVec 32)
    (colRows : Nat → List (Fin rows)) (weights : Fin rows → BitVec 32) (plan : Plan rows)
    (column : BitVec 32 × Nat) : Plan rows :=
  let c := column.2
  if device.gf2ColWeight c < 3 ∨ kMax < device.gf2ColWeight c then plan
  else
    let containing := (colRows c).filter fun r => (device.rowPtr r).isSome
    if containing.length < 2 then plan
    else
      match containing[lightestIndex weights containing]? with
      | none => plan
      | some pivot =>
        if plan.rowUsed pivot then plan
        else
          let emitted := (containing.eraseIdx (lightestIndex weights containing)).foldl
            (emitMerge weights maxFillIn c pivot) (plan, false)
          if emitted.2 then
            ⟨emitted.1.candidates, update emitted.1.rowUsed pivot true⟩
          else emitted.1

def planHigherWeightMerges (matrix : PackedCsr rows) (device : Device rows)
    (kMax maxFillIn : BitVec 32) : List (MergeCandidate rows) :=
  ((eligibleColumns matrix device kMax).foldl
    (planHigherColumn device kMax maxFillIn (buildInvertedIndexFull matrix device)
      (rowWeights matrix device)) emptyPlan).candidates

def higherLaunch (matrix : PackedCsr rows) (device : Device rows)
    (kMax maxFillIn : BitVec 32) : Launch rows :=
  ⟨matrix.toContext, device, planHigherWeightMerges matrix device kMax maxFillIn⟩

/-! ## Plans -/

theorem indexes_buildInvertedIndexFull (reached : Reached matrix.toContext device) :
    Indexes matrix device (buildInvertedIndexFull matrix device) := by
  have isIndex : ∀ c, buildInvertedIndexFull matrix device c =
      indexOf matrix.nCols (device.table matrix.toContext) c := by
    intro c
    unfold buildInvertedIndexFull indexOf Device.table
    congr 1
    funext r
    cases device.rowPtr r <;> rfl
  constructor
  · intro c
    rw [isIndex]
    exact nodup_indexOf _ _ fun r packed isRow => reached.ascending isRow
  · intro c row member
    rw [isIndex] at member
    rcases exists_of_mem_indexOf member with ⟨packed, isRow, positive⟩
    have bound := odd_le_one reached c row
    rw [isRow] at bound ⊢
    exact le_antisymm bound positive

structure Separate (left right : MergeCandidate rows) : Prop where
  first : left.r1 ≠ right.r1
  second : left.r1 ≠ right.r2
  third : left.r2 ≠ right.r1

theorem Separate.symm {left right : MergeCandidate rows} (separate : Separate left right) :
    Separate right left :=
  ⟨separate.first.symm, separate.third.symm, separate.second.symm⟩

structure SeparatePlan (plan : Plan rows) : Prop where
  separate : plan.candidates.Pairwise Separate
  firstUsed : ∀ candidate ∈ plan.candidates, plan.rowUsed candidate.r1 = true
  secondUsed : ∀ candidate ∈ plan.candidates, plan.rowUsed candidate.r2 = true

structure Emitting (pivot : Fin rows) (emitted : Plan rows × Bool) : Prop where
  separate : emitted.1.candidates.Pairwise Separate
  firstUsed : ∀ candidate ∈ emitted.1.candidates, emitted.1.rowUsed candidate.r1 = true
  secondUsed : ∀ candidate ∈ emitted.1.candidates, emitted.1.rowUsed candidate.r2 = true ∨
    candidate.r2 = pivot ∧ emitted.2 = true
  pivotFree : emitted.1.rowUsed pivot = false

theorem Emitting.emitMerge {pivot : Fin rows} {emitted : Plan rows × Bool}
    (emitting : Emitting pivot emitted) (weights : Fin rows → BitVec 32) (maxFillIn : BitVec 32)
    (c : Nat) {r : Fin rows} (different : r ≠ pivot) :
    Emitting pivot (emitMerge weights maxFillIn c pivot emitted r) := by
  unfold BatchMerge.emitMerge
  split
  · exact emitting
  rename_i free
  split
  · exact emitting
  have unused : ∀ row, emitted.1.rowUsed row = true → row ≠ r := by
    rintro row used rfl
    exact free used
  constructor
  · refine List.pairwise_append.mpr ⟨emitting.separate, List.pairwise_singleton _ _, ?_⟩
    intro candidate member single isSingle
    rw [List.mem_singleton.mp isSingle]
    have first := emitting.firstUsed candidate member
    refine ⟨unused _ first, ?_, ?_⟩
    · intro isPivot
      rw [isPivot, emitting.pivotFree] at first
      cases first
    · rcases emitting.secondUsed candidate member with used | ⟨isPivot, -⟩
      · exact unused _ used
      · rw [isPivot]
        exact different.symm
  · intro candidate member
    dsimp only
    rw [update_apply]
    split
    · rfl
    · rename_i other
      rcases List.mem_append.mp member with old | new
      · exact emitting.firstUsed candidate old
      · rw [List.mem_singleton.mp new] at other
        exact absurd rfl other
  · intro candidate member
    dsimp only
    rw [update_apply]
    split
    · exact Or.inl rfl
    · rcases List.mem_append.mp member with old | new
      · rcases emitting.secondUsed candidate old with used | ⟨isPivot, -⟩
        · exact Or.inl used
        · exact Or.inr ⟨isPivot, rfl⟩
      · rw [List.mem_singleton.mp new]
        exact Or.inr ⟨rfl, rfl⟩
  · exact (update_of_ne different.symm _ _).trans emitting.pivotFree

theorem SeparatePlan.planHigherColumn {plan : Plan rows} (separate : SeparatePlan plan)
    {colRows : Nat → List (Fin rows)} (indexes : Indexes matrix device colRows)
    (kMax maxFillIn : BitVec 32) (weights : Fin rows → BitVec 32) (column : BitVec 32 × Nat) :
    SeparatePlan (planHigherColumn device kMax maxFillIn colRows weights plan column) := by
  unfold BatchMerge.planHigherColumn
  dsimp only
  split
  · exact separate
  split
  · exact separate
  split
  · exact separate
  rename_i pivot isPivot
  split
  · exact separate
  rename_i pivotFree
  have nodup := (indexes.nodup column.2).filter fun r => (device.rowPtr r).isSome
  generalize (colRows column.2).filter (fun r => (device.rowPtr r).isSome) = containing
    at isPivot nodup
  rcases List.getElem?_eq_some_iff.mp isPivot with ⟨inside, atIndex⟩
  have others : ∀ r ∈ containing.eraseIdx (lightestIndex weights containing), r ≠ pivot := by
    rintro r member rfl
    rw [← nodup.erase_getElem _ inside, atIndex, nodup.mem_erase_iff] at member
    exact member.1 rfl
  have visits : ∀ (visited : List (Fin rows)) (emitted : Plan rows × Bool),
      (∀ r ∈ visited, r ≠ pivot) → Emitting pivot emitted →
      Emitting pivot (visited.foldl (emitMerge weights maxFillIn column.2 pivot) emitted) := by
    intro visited
    induction visited with
    | nil => exact fun emitted _ emitting => emitting
    | cons r visited induction =>
      intro emitted differ emitting
      exact induction _ (fun other member => differ other (List.mem_cons_of_mem _ member))
        (emitting.emitMerge weights maxFillIn column.2 (differ r List.mem_cons_self))
  have emitting := visits _ (plan, false) others
    ⟨separate.separate, separate.firstUsed,
      fun candidate member => Or.inl (separate.secondUsed candidate member),
      Bool.eq_false_of_not_eq_true pivotFree⟩
  split
  · refine ⟨emitting.separate, ?_, ?_⟩
    · intro candidate member
      dsimp only
      rw [update_apply]
      split
      · rfl
      · exact emitting.firstUsed candidate member
    · intro candidate member
      dsimp only
      rw [update_apply]
      split
      · rfl
      · rename_i other
        rcases emitting.secondUsed candidate member with used | ⟨same, -⟩
        · exact used
        · exact absurd same other
  · rename_i silent
    refine ⟨emitting.separate, emitting.firstUsed, ?_⟩
    intro candidate member
    rcases emitting.secondUsed candidate member with used | ⟨-, loud⟩
    · exact used
    · exact absurd loud silent

theorem separate_planHigherWeightMerges (reached : Reached matrix.toContext device)
    (kMax maxFillIn : BitVec 32) :
    (planHigherWeightMerges matrix device kMax maxFillIn).Pairwise Separate := by
  have indexes := indexes_buildInvertedIndexFull reached
  have keeps : ∀ (columns : List (BitVec 32 × Nat)) (plan : Plan rows), SeparatePlan plan →
      SeparatePlan (columns.foldl (planHigherColumn device kMax maxFillIn
        (buildInvertedIndexFull matrix device) (rowWeights matrix device)) plan) := by
    intro columns
    induction columns with
    | nil => exact fun plan separate => separate
    | cons column columns induction =>
      exact fun plan separate =>
        induction _ (separate.planHigherColumn indexes kMax maxFillIn _ column)
  exact (keeps _ _ ⟨.nil, by simp [emptyPlan], by simp [emptyPlan]⟩).separate

/-! ## Merges that can come first -/

def Ready (context : Context rows) (device : Device rows) (candidate : MergeCandidate rows) :
    Prop :=
  ∃ left right, Mergeable (device.table context) candidate left right ∧
    (atomicReserveDual device.counter
      (BitVec.ofNat 32 (join context.mont left right).entries.length) context.maxRows
      context.maxEntries).isSome

theorem reserves_alone {launch : Launch rows} {thread : launch.Thread}
    (ready : Ready launch.context launch.device (launch.candidate thread)) :
    ∃ schedule, ((run kernelStep (kernelStart launch) schedule).threads thread).job.isSome := by
  rcases ready with ⟨left, right, ⟨different, first, second, fits⟩, room⟩
  rcases Option.isSome_iff_exists.mp room with ⟨reserved, reserves⟩
  rcases Option.map_eq_some_iff.mp first with ⟨ptr1, isPtr1, rfl⟩
  rcases Option.map_eq_some_iff.mp second with ⟨ptr2, isPtr2, rfl⟩
  have merges : mergeRows launch.context.mont
      (resolve launch.context launch.device.workspace ptr1)
      (resolve launch.context launch.device.workspace ptr2) =
        some (join launch.context.mont (resolve launch.context launch.device.workspace ptr1)
          (resolve launch.context launch.device.workspace ptr2)) := by
    rw [mergeRows_eq, if_pos fits]
  refine ⟨[thread, thread, thread, thread, thread, thread], ?_⟩
  simp [run, kernelStep, kernelStart, act, update_of_ne different.symm, isPtr1, isPtr2, merges,
    reserves, Phase.job]

theorem Acts.job {launch : Launch rows} {thread : launch.Thread} {memory memory' : Memory rows}
    {phase phase' : Phase rows} (acts : Acts launch thread memory phase memory' phase')
    (isJob : phase.job.isSome) : phase'.job.isSome := by
  cases acts with
  | @unlock fate => cases fate <;> exact isJob
  | _ => first | exact isJob | cases isJob

theorem job_run {launch : Launch rows} {state : KernelState launch} {thread : launch.Thread}
    (isJob : (state.threads thread).job.isSome) (schedule : List launch.Thread) :
    ((run kernelStep state schedule).threads thread).job.isSome := by
  refine @run_invariant _ _ kernelStep (fun state => (state.threads thread).job.isSome) ?_ _
    isJob schedule
  intro state other isJob
  change (update state.threads other _ thread).job.isSome
  by_cases isOwn : thread = other
  · rw [isOwn] at isJob ⊢
    rw [update_self]
    exact (acts launch other state.memory (state.threads other)).job isJob
  · rwa [update_of_ne isOwn]

section Launched

variable {launch : Launch rows} {state : KernelState launch} {order : List launch.Thread}

theorem separate_of_ne (separate : launch.candidates.Pairwise Separate)
    {thread other : launch.Thread} (different : thread ≠ other) :
    Separate (launch.candidate thread) (launch.candidate other) := by
  rw [List.pairwise_iff_getElem] at separate
  rcases Nat.lt_or_gt_of_ne (fun equal => different (Fin.ext equal)) with less | greater
  · exact separate _ _ thread.isLt other.isLt less
  · exact (separate _ _ other.isLt thread.isLt greater).symm

section

variable (launched : Launched launch state order) (separate : launch.candidates.Pairwise Separate)

include launched separate

theorem Launched.serial_eq {thread : launch.Thread} {before after : List launch.Thread}
    (isOrder : order = before ++ thread :: after) :
    serial launch before (launch.candidate thread).r1 =
        launch.device.table launch.context (launch.candidate thread).r1 ∧
      serial launch before (launch.candidate thread).r2 =
        launch.device.table launch.context (launch.candidate thread).r2 := by
  have nodup := launched.nodup
  have once := launched.once
  rw [isOrder, List.pairwise_append] at once
  rw [isOrder, List.nodup_append] at nodup
  have apart : ∀ other ∈ before,
      Separate (launch.candidate thread) (launch.candidate other) := by
    intro other isBefore
    apply separate_of_ne separate
    rintro rfl
    exact nodup.2.2 _ isBefore _ List.mem_cons_self rfl
  constructor
  · apply replay_untouched
    intro pair isPair
    rcases List.mem_map.mp isPair with ⟨other, isBefore, rfl⟩
    exact ⟨(apart other isBefore).first, (apart other isBefore).second⟩
  · apply replay_untouched
    intro pair isPair
    rcases List.mem_map.mp isPair with ⟨other, isBefore, rfl⟩
    exact ⟨(apart other isBefore).third, (once.2.2 other isBefore thread List.mem_cons_self).2.symm⟩

theorem Launched.mergeable_first {thread : launch.Thread} (member : thread ∈ order) : ∃ left right,
      Mergeable (launch.device.table launch.context) (launch.candidate thread) left right ∧
        ∀ {job}, (state.threads thread).job = some job →
          job.row = join launch.context.mont left right := by
  rcases List.append_of_mem member with ⟨before, after, isOrder⟩
  rcases launched.mergeable isOrder with ⟨left, right, mergeable, merged⟩
  rcases launched.serial_eq separate isOrder with ⟨first, second⟩
  exact ⟨left, right, ⟨mergeable.different, first.symm.trans mergeable.first,
    second.symm.trans mergeable.second, mergeable.fits⟩, merged⟩

theorem Launched.ready {thread : launch.Thread} (member : thread ∈ order) :
    Ready launch.context launch.device (launch.candidate thread) := by
  rcases launched.mergeable_first separate member with ⟨left, right, mergeable, merged⟩
  rcases Option.isSome_iff_exists.mp ((launched.executed thread).mp member) with ⟨job, isJob⟩
  have row := merged isJob
  have fresh := launched.fresh isJob
  have inside := launched.inside isJob
  have relations := launched.valid.relations_le
  have factors := launched.valid.factors_le
  have bound := launch.context.maxEntries.isLt
  refine ⟨left, right, mergeable, ?_⟩
  rw [row] at inside
  have length : (BitVec.ofNat 32 (join launch.context.mont left right).entries.length).toNat =
      (join launch.context.mont left right).entries.length := by
    rw [BitVec.toNat_ofNat]
    exact Nat.mod_eq_of_lt (by omega)
  have added : (launch.device.counter.factors +
      BitVec.ofNat 32 (join launch.context.mont left right).entries.length).toNat =
        launch.device.counter.factors.toNat +
          (join launch.context.mont left right).entries.length := by
    rw [BitVec.toNat_add, length]
    exact Nat.mod_eq_of_lt (by omega)
  unfold atomicReserveDual
  rw [if_neg]
  · rfl
  · rw [not_or, BitVec.not_le, BitVec.not_lt, BitVec.lt_def, BitVec.le_def, added]
    omega

end

/-- A launch keeps the dimension of the kernel if and only if its merges join rows
that the kernel weighs alike. -/
theorem Launched.finrank_eq_iff (launched : Launched launch state order) :
    Module.finrank (ZMod 2) (kernelSpace PackedRow.parity (state.memory.table launch.context)) =
        Module.finrank (ZMod 2)
          (kernelSpace PackedRow.parity (launch.device.table launch.context)) ↔
      Alike PackedRow.parity (launch.device.table launch.context) (mergedPairs launch order) := by
  rw [launched.table]
  exact finrank_replay_eq_iff (parity_join _) launched.legal

end Launched

/-! ## Rounds -/

/-- A round keeps the dimension of the left kernel under all interleavings if and only
if every dependency has both rows, or neither, of each candidate that can come first. -/
theorem higherRound_keepsDimension_iff (reached : Reached matrix.toContext device)
    (kMax maxFillIn : BitVec 32) :
    (∀ schedule, (runKernel (higherLaunch matrix device kMax maxFillIn) schedule).Finished →
      Module.finrank (ZMod 2) (kernelSpace PackedRow.parity
          ((runKernel (higherLaunch matrix device kMax maxFillIn) schedule).memory.table
            matrix.toContext)) =
        Module.finrank (ZMod 2) (kernelSpace PackedRow.parity (device.table matrix.toContext))) ↔
      ∀ candidate ∈ planHigherWeightMerges matrix device kMax maxFillIn,
        Ready matrix.toContext device candidate →
          ∀ y ∈ tableKernel PackedRow.parity (device.table matrix.toContext),
            y candidate.r1 = y candidate.r2 := by
  have separate : (higherLaunch matrix device kMax maxFillIn).candidates.Pairwise Separate :=
    separate_planHigherWeightMerges reached kMax maxFillIn
  have launches := executeMerges_launched (higherLaunch matrix device kMax maxFillIn) reached
  constructor
  · intro keeps candidate member ready y kernel
    rcases List.get_of_mem member with ⟨thread, rfl⟩
    rcases @reserves_alone rows (higherLaunch matrix device kMax maxFillIn) thread ready with
      ⟨schedule, isJob⟩
    rcases exists_finish (run kernelStep _ schedule) with ⟨rest, finished⟩
    rw [← run_append] at finished
    rcases launches _ finished with ⟨order, launched⟩
    have isExecuted := job_run isJob rest
    rw [← run_append] at isExecuted
    have inOrder := (launched.executed thread).mpr isExecuted
    have alike := launched.finrank_eq_iff.mp (keeps _ finished)
    exact alike y kernel _ (List.mem_map_of_mem inOrder)
  · intro condition schedule finished
    rcases launches schedule finished with ⟨order, launched⟩
    apply launched.finrank_eq_iff.mpr
    intro y kernel pair member
    rcases List.mem_map.mp member with ⟨thread, inOrder, rfl⟩
    exact condition _ (List.get_mem _ _) (launched.ready separate inOrder) y kernel

def tripleMatrix : PackedCsr 3 where
  csr _ := ⟨[(0, 1)], UInt512.ofUInt32 1, 1, 0, 0⟩
  mont := Montgomery.ofModulus (UInt512.ofUInt32 15)
  maxRows := 4
  maxEntries := 8
  rows_lt := three_lt_rows
  maxRows_le := four_le_rows
  maxEntries_le := eight_le_entries
  nCols := 1
  ascending := by decide
  column_lt := by decide

def tripleDevice : Device 3 := freshDevice tripleMatrix.toContext emptyWorkspace

def tripleLaunch : Launch 3 := higherLaunch tripleMatrix tripleDevice 10 200

def tripleSchedule : List tripleLaunch.Thread :=
  List.replicate 40 ⟨0, by decide +kernel⟩ ++ List.replicate 40 ⟨1, by decide +kernel⟩

theorem higherRound_keepsDimension_iff_triple :
    (∀ schedule, (runKernel tripleLaunch schedule).Finished →
      Module.finrank (ZMod 2) (kernelSpace PackedRow.parity
          ((runKernel tripleLaunch schedule).memory.table tripleMatrix.toContext)) =
        Module.finrank (ZMod 2)
          (kernelSpace PackedRow.parity (tripleDevice.table tripleMatrix.toContext))) ↔
      ∀ candidate ∈ planHigherWeightMerges tripleMatrix tripleDevice 10 200,
        Ready tripleMatrix.toContext tripleDevice candidate →
          ∀ y ∈ tableKernel PackedRow.parity (tripleDevice.table tripleMatrix.toContext),
            y candidate.r1 = y candidate.r2 :=
  higherRound_keepsDimension_iff (.fresh emptyWorkspace) 10 200

def outerRows (row : Fin 3) : ZMod 2 := if row.val = 1 then 0 else 1

private theorem outerRows_mem :
    outerRows ∈ tableKernel PackedRow.parity (tripleDevice.table tripleMatrix.toContext) := by
  have alive : RowJoin.aliveRows (tripleDevice.table tripleMatrix.toContext) = Finset.univ := by
    ext row
    rw [RowJoin.mem_aliveRows]
    simp [tripleDevice, freshDevice, Device.table]
  refine ⟨fun row dead => absurd (alive ▸ Finset.mem_univ row) dead, fun c => ?_⟩
  rw [Elimination.combine, alive]
  change ∑ row : Fin 3, outerRows row * PackedRow.parity (tripleMatrix.csr row) c = 0
  have same : ∀ row,
      PackedRow.parity (tripleMatrix.csr row) c = PackedRow.parity (tripleMatrix.csr 0) c :=
    fun row => rfl
  simp only [same, ← Finset.sum_mul]
  rw [show ∑ row, outerRows row = 0 by decide, zero_mul]

/-- The second candidate finds its pivot consumed, and a dependency is lost. -/
theorem higherRound_losesDependency : (runKernel tripleLaunch tripleSchedule).Finished ∧
      Module.finrank (ZMod 2) (kernelSpace PackedRow.parity
          ((runKernel tripleLaunch tripleSchedule).memory.table tripleMatrix.toContext)) ≠
        Module.finrank (ZMod 2)
          (kernelSpace PackedRow.parity (tripleDevice.table tripleMatrix.toContext)) := by
  have finished : (runKernel tripleLaunch tripleSchedule).Finished := by decide +kernel
  have executes : (((runKernel tripleLaunch tripleSchedule).threads
      ⟨0, by decide +kernel⟩).job).isSome := by decide +kernel
  refine ⟨finished, fun same => ?_⟩
  rcases exists_serialized (freshDevice_valid tripleMatrix.toContext emptyWorkspace)
    tripleSchedule with ⟨order, serialized⟩
  have launched := serialized.launched finished (freshDevice_valid _ _)
  have alike := launched.finrank_eq_iff.mp same outerRows outerRows_mem _
    (List.mem_map_of_mem ((launched.executed _).mpr executes))
  revert alike
  decide +kernel

end CudaMpqs.BatchMerge
