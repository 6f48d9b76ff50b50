import CudaMpqs.Foundation.Transition
import CudaMpqs.Lingen.SolverResume

/-! # Files of earlier runs

Earlier solves leave their files, killed anywhere, and anything may happen to the
files between two runs. A resumed solve ends like a fresh one as long as its own tag
stands over its own results only, and every damaged file is refused where the refusal
is made up for. Under another tag the files may be anything. -/

namespace CudaMpqs.Lingen

open ByteStream BWIOSystem

/-! ## Loaders read their own files -/

theorem seen_eq_accepted {Output α : Type} {take : Output → α} {outcome : BWIOSystem.Outcome Output}
    {value : α} : outcome.seen take = .accepted value ↔
      ∃ output, outcome = .returned true output ∧ take output = value := by
  cases outcome with
  | threw => exact ⟨nofun, nofun⟩
  | returned found output =>
    cases found with
    | false => exact ⟨nofun, nofun⟩
    | true =>
      constructor
      · intro same
        cases same
        exact ⟨output, rfl, rfl⟩
      · rintro ⟨_, same, rfl⟩
        cases same
        rfl

namespace Solver

variable {solver : Solver} {files left right : Files}

theorem loadSequence_congr (same : left .s = right .s) (before : Uninitialised) :
    solver.loadSequence before left = solver.loadSequence before right := by
  rw [Solver.loadSequence, Solver.loadSequence, same]

theorem loadPolynomial_congr (same : left .pi = right .pi) :
    solver.loadPolynomial left = solver.loadPolynomial right := by
  rw [Solver.loadPolynomial, Solver.loadPolynomial, same]

theorem checkpointTagMatches_congr (same : left .ckptTag = right .ckptTag) :
    solver.checkpointTagMatches left = solver.checkpointTagMatches right := by
  rw [checkpointTagMatches, checkpointTagMatches, loadCheckpointTag, loadCheckpointTag, same]

/-! ## Shapes -/

theorem blockCols_lt (solver : Solver) :
    solver.nrows < 2 ^ 32 ∧ solver.mBlock < 2 ^ 32 ∧ solver.nBlock < 2 ^ 32 ∧
      solver.dim < 2 ^ 32 := by
  have rows := solver.nrows_lt
  have blocks := solver.blocks_lt
  rw [dim]
  omega

theorem solutions_shape (solver : Solver) : solver.solutions.length < 2 ^ 32 ∧
      Grants (solver.heap .solMeta) 0 0 (3 * solver.solutions.length) ∧
      ∀ i (inside : i < solver.solutions.length),
        Grants (solver.heap .solMeta) (i + 1) 0 (wordsPerRow solver.nrows) ∧
          (solver.solutions[i]).length = wordsPerRow solver.nrows := by
  rw [solutions]
  by_cases empty : solver.pi = []
  · rw [if_pos empty]
    exact ⟨by decide, .inl (Nat.le_refl 0), fun i inside => absurd inside (Nat.not_lt_zero i)⟩
  · rw [if_neg empty]
    exact ⟨solver.reconstruct_count _, solver.heap_reserve _, fun i inside =>
      ⟨solver.heap_reconstruct _ i inside, solver.reconstruct_length _ _ (List.getElem_mem inside)⟩⟩

theorem loadSequence_genuine (before : Uninitialised)
    (saved : files .s = some solver.sequenceWrite.2) :
    solver.loadSequence before files = .accepted solver.krylov := by
  obtain ⟨_, mFits, nFits, _⟩ := solver.blockCols_lt
  rw [Solver.loadSequence, saved]
  exact seen_eq_accepted.mpr ⟨_, loadSequence_save before solver.krylov_length
    solver.seqLen_lt mFits nFits solver.heap_krylov, rfl⟩

theorem loadPolynomial_genuine (saved : files .pi = some (solver.generatorWrite solver.pi).2) :
    solver.loadPolynomial files = .accepted solver.pi := by
  obtain ⟨_, _, _, dimFits⟩ := solver.blockCols_lt
  obtain ⟨len, lenFits, length⟩ := solver.generator_length (solver.source solver.krylov)
  have positive : 0 < solver.dim * wordsPerRow solver.dim := by
    have blocks : 0 < solver.dim := solver.blocks_pos
    exact Nat.mul_pos blocks (Nat.div_pos (by omega) (by decide))
  have count : solver.pi.length / (solver.dim * wordsPerRow solver.dim) = len := by
    rw [pi, length]
    exact Nat.mul_div_cancel len positive
  rw [generatorWrite, count] at saved
  rw [Solver.loadPolynomial, saved]
  exact seen_eq_accepted.mpr ⟨_, loadPolynomial_save length lenFits dimFits
    (solver.heap_generator _), rfl⟩

theorem yieldsSolution_genuine {i : Nat} (inside : i < solver.solutions.length)
    (saved : files (.sol i) = some (saveSingleSolution (.sol i) (solver.solutions.getD i [])
      solver.nrows).2) : YieldsSolution files solver.nrows i solver.solutions[i] := by
  rw [List.getD_eq_getElem?_getD, List.getElem?_eq_getElem inside, Option.getD_some] at saved
  exact yieldsSolution_save saved (solver.solutions_shape.2.2 i inside).2 solver.blockCols_lt.1

theorem loadSolutions_genuine_iff : solver.loadSolutions files = .accepted solver.solutions ↔
      solutionCount files solver.nrows solver.mBlock solver.nBlock = some solver.solutions.length ∧
        ∀ i (inside : i < solver.solutions.length),
          YieldsSolution files solver.nrows i solver.solutions[i] := by
  obtain ⟨_, reserved, granted⟩ := solver.solutions_shape
  rw [Solver.loadSolutions, seen_eq_accepted]
  constructor
  · rintro ⟨_, returns, rfl⟩
    obtain ⟨count, _, yields⟩ := loadSolutions_returns.mp returns
    exact ⟨count, fun i inside => (yields i inside).2⟩
  · rintro ⟨count, yields⟩
    exact ⟨_, loadSolutions_returns.mpr ⟨count, reserved, fun i inside =>
      ⟨(granted i inside).1, yields i inside⟩⟩, rfl⟩

/-! ## Writes of the same solver -/

def solutionsMetaWrite (solver : Solver) : Write :=
  saveSolutionsMeta solver.solutions.length solver.nrows solver.mBlock solver.nBlock

theorem writeAll_append (files : Files) (first second : List Write) :
    writeAll files (first ++ second) = writeAll (writeAll files first) second :=
  List.foldl_append

section Kept

variable {P : Files → Prop} {Kept : Write → Prop} {writes : List Write}
  (keeps : ∀ files entry, Kept entry → P files → P (write files entry))

include keeps

theorem keeps_writeAll (kept : ∀ entry ∈ writes, Kept entry) (holds : P files) :
    P (writeAll files writes) := by
  induction writes generalizing files with
  | nil => exact holds
  | cons entry writes induction =>
    exact induction (fun later member => kept later (List.mem_cons_of_mem entry member))
      (keeps files entry (kept entry List.mem_cons_self) holds)

/-- What every write keeps and one of them establishes holds behind them all. -/
theorem holds_writeAll {target : Write} (makes : ∀ files, P (write files target))
    (kept : ∀ entry ∈ writes, Kept entry) (holds : P files ∨ target ∈ writes) :
    P (writeAll files writes) := by
  rcases holds with before | found
  · exact keeps_writeAll keeps kept before
  · obtain ⟨early, late, split⟩ := List.append_of_mem found
    rw [split, ← List.singleton_append, ← List.append_assoc, writeAll_append, writeAll_append]
    refine keeps_writeAll keeps (fun entry member => kept entry ?_) (makes _)
    rw [split]
    exact List.mem_append_right early (List.mem_cons_of_mem target member)

end Kept

theorem ownSequence_makes (files : Files) : solver.OwnSequence (write files solver.sequenceWrite) :=
  fun before => .inr (.inl (loadSequence_genuine before (write_same _ _ _)))

theorem ownGenerator_makes (files : Files) :
    solver.OwnGenerator (write files (solver.generatorWrite solver.pi)) :=
  .inr (.inl (loadPolynomial_genuine (write_same _ _ _)))

def Known (solver : Solver) (entry : Write) : Prop :=
  solver.Benign entry ∨ entry = solver.solutionsMetaWrite

theorem ownSequence_keeps (files : Files) (entry : Write) (known : solver.Known entry)
    (own : solver.OwnSequence files) : solver.OwnSequence (write files entry) := by
  by_cases here : entry.1 = .s
  · rcases known with benign | same
    · have isSequence : entry = solver.sequenceWrite := by
        rw [Benign, here] at benign
        exact benign
      rw [isSequence]
      exact ownSequence_makes files
    · rw [same] at here
      cases here
  · intro before
    rw [loadSequence_congr (if_neg (Ne.symm here))]
    exact own before

theorem ownGenerator_keeps (files : Files) (entry : Write) (known : solver.Known entry)
    (own : solver.OwnGenerator files) : solver.OwnGenerator (write files entry) := by
  by_cases here : entry.1 = .pi
  · rcases known with benign | same
    · have isGenerator : entry = solver.generatorWrite solver.pi := by
        rw [Benign, here] at benign
        exact benign
      rw [isGenerator]
      exact ownGenerator_makes files
    · rw [same] at here
      cases here
  · have other : write files entry .pi = files .pi := if_neg (Ne.symm here)
    rw [OwnGenerator, other, loadPolynomial_congr other]
    exact own

theorem ownSolutions_keeps (files : Files) (entry : Write) (benign : solver.Benign entry)
    (own : solver.OwnSolutions files) : solver.OwnSolutions (write files entry) := by
  have notMeta : entry.1 ≠ .solMeta := by
    intro here
    rw [Benign, here] at benign
    exact benign
  have sameMeta : write files entry .solMeta = files .solMeta := if_neg (Ne.symm notMeta)
  rw [OwnSolutions, sameMeta]
  refine own.imp_right fun accepted => ?_
  obtain ⟨count, yields⟩ := loadSolutions_genuine_iff.mp accepted
  refine loadSolutions_genuine_iff.mpr ⟨?_, fun i inside => ?_⟩
  · rw [solutionCount, sameMeta]
    exact count
  · by_cases here : entry.1 = .sol i
    · rw [Benign, here] at benign
      refine yieldsSolution_genuine inside ?_
      rw [← benign.2]
      exact if_pos here.symm
    · exact (yields i inside).congr (if_neg (Ne.symm here))

theorem benign_saveSolutions (solver : Solver) :
    ∀ entry ∈ saveSolutions solver.solutions solver.nrows, solver.Benign entry := by
  intro entry member
  cases solutions : solver.solutions with
  | nil =>
    rw [solutions] at member
    cases member
  | cons first rest =>
    rw [solutions] at member
    rcases List.mem_cons.mp member with same | later
    · rw [same]
      trivial
    · obtain ⟨i, inside, same⟩ := List.mem_map.mp later
      rw [← same]
      refine ⟨?_, by rw [solutions]⟩
      rw [solutions]
      exact List.mem_range.mp inside

private theorem writeAll_vectors (files : Files) (vector : Nat → List UInt8) (count : Nat) :
    ∀ i < count, writeAll files ((List.range count).map fun i =>
      (Suffix.sol i, vector i)) (.sol i) = some (vector i) := by
  induction count with
  | zero => exact fun i below => absurd below (Nat.not_lt_zero i)
  | succ count induction =>
    intro i below
    rw [List.range_succ, List.map_append, writeAll_append]
    change write _ (Suffix.sol count, vector count) (.sol i) = some (vector i)
    by_cases last : i = count
    · rw [last]
      exact write_same _ _ _
    · rw [write_other _ _ (fun same => last (Suffix.sol.inj same))]
      exact induction i (by omega)

private theorem ownSolutions_makes (files : Files) :
    solver.OwnSolutions (writeAll files (solver.solutionWrites solver.solutions)) := by
  obtain ⟨rowsFit, mFits, nFits, _⟩ := solver.blockCols_lt
  rw [solutionWrites, writeAll_append]
  change solver.OwnSolutions (write (writeAll files
    (saveSolutions solver.solutions solver.nrows)) solver.solutionsMetaWrite)
  refine .inr (loadSolutions_genuine_iff.mpr ⟨?_, fun i inside => ?_⟩)
  · exact solutionCount_save (write_same _ _ _) solver.solutions_shape.1 rowsFit mFits nFits
  · refine yieldsSolution_genuine inside ?_
    rw [solutionsMetaWrite, saveSolutionsMeta, write_other _ _ (by simp)]
    cases solutions : solver.solutions with
    | nil =>
      rw [solutions] at inside
      cases inside
    | cons first rest =>
      rw [solutions] at inside
      exact writeAll_vectors _ (fun i =>
        (saveSingleSolution (.sol i) ((first :: rest).getD i []) solver.nrows).2) _ i inside

/-- Behind a killed run everything is genuine that was before it or was saved by it. -/
theorem genuine_killed {writes : List Write} (harmless : solver.Harmless writes) (completed : Nat)
    (sequence : solver.OwnSequence files ∨ solver.sequenceWrite ∈ writes.take completed)
    (generator : solver.OwnGenerator files ∨
      solver.generatorWrite solver.pi ∈ writes.take completed)
    (solutions : solver.OwnSolutions files ∨ solver.solutionsMetaWrite ∈ writes.take completed) :
    solver.Genuine (writeAll files (writes.take completed)) := by
  obtain ⟨front, benign, shape⟩ := harmless
  have cases : (∀ entry ∈ writes.take completed, solver.Benign entry) ∨
      writes.take completed = front ++ solver.solutionWrites solver.solutions := by
    have all : ∀ entry ∈ front ++ saveSolutions solver.solutions solver.nrows,
        solver.Benign entry := by
      intro entry member
      rcases List.mem_append.mp member with early | late
      · exact benign entry early
      · exact solver.benign_saveSolutions entry late
    rcases shape with same | same
    · rw [same]
      exact .inl fun entry member => benign entry (List.mem_of_mem_take member)
    · rw [same, solutionWrites, ← List.append_assoc]
      by_cases early : completed ≤ (front ++ saveSolutions solver.solutions solver.nrows).length
      · rw [List.take_append_of_le_length early]
        exact .inl fun entry member => all entry (List.mem_of_mem_take member)
      · refine .inr (List.take_of_length_le ?_)
        rw [List.length_append, List.length_singleton]
        omega
  have known : ∀ entry ∈ writes.take completed, solver.Known entry := by
    intro entry member
    rcases cases with all | whole
    · exact .inl (all entry member)
    · rw [whole, solutionWrites] at member
      rcases List.mem_append.mp member with early | late
      · exact .inl (benign entry early)
      · rcases List.mem_append.mp late with vector | last
        · exact .inl (solver.benign_saveSolutions entry vector)
        · exact .inr (List.mem_singleton.mp last)
  refine ⟨holds_writeAll ownSequence_keeps ownSequence_makes known sequence,
    holds_writeAll ownGenerator_keeps ownGenerator_makes known generator, ?_⟩
  rcases cases with all | whole
  · have before : solver.OwnSolutions files :=
      solutions.resolve_right fun saved => (all _ saved).elim
    exact keeps_writeAll ownSolutions_keeps all before
  · rw [whole, writeAll_append]
    exact ownSolutions_makes _

/-! ## What a solve saves -/

theorem loadCheckpointTag_save {tag : Nat} (fits : tag < 2 ^ 64)
    (saved : files .ckptTag = some (saveCheckpointTag tag).2) :
    loadCheckpointTag files = some tag := by
  rw [loadCheckpointTag, saved, saveCheckpointTag, ← List.append_nil (littleEndian 8 tag)]
  simp only [readNumber_u32 (show MAGIC_TAG < 2 ^ 32 by decide),
    Stream.readNumber_littleEndian (show tag < 256 ^ 8 from fits), Stream.good_ofFile,
    not_true_eq_false, ne_eq, or_self, if_false]

private theorem mix_lt (hash number : Nat) : mix hash number < 2 ^ 64 := by
  rw [mix, List.range_succ, List.foldl_append]
  exact Nat.mod_lt _ (by decide)

theorem computeCkptTag_lt (solver : Solver) : solver.computeCkptTag < 2 ^ 64 := mix_lt _ _

def StageWrites (saves : Bool) (writes : List Write) : Prop :=
  ∀ entry ∈ writes, entry.1 ≠ .ckptTag ∧ saves = true

theorem StageWrites.nil {saves : Bool} : StageWrites saves [] := nofun

theorem StageWrites.guarded {saves : Bool} {writes : List Write}
    (stage : ∀ entry ∈ writes, entry.1 ≠ .ckptTag) :
    StageWrites saves (if saves then writes else []) := by
  intro entry member
  split at member
  next on => exact ⟨stage entry member, on⟩
  next => cases member

theorem StageWrites.append {saves : Bool} {first second : List Write}
    (left : StageWrites saves first) (right : StageWrites saves second) :
    StageWrites saves (first ++ second) := by
  intro entry member
  rcases List.mem_append.mp member with early | late
  · exact left entry early
  · exact right entry late

theorem StageWrites.mono {saves any : Bool} {writes : List Write}
    (stage : StageWrites saves writes) (implied : saves = true → any = true) :
    StageWrites any writes :=
  fun entry member => ⟨(stage entry member).1, implied (stage entry member).2⟩

theorem runStage1_writes (solver : Solver) (flags : Flags) (before : Uninitialised)
    (files : Files) (vectorsOnly : Bool) :
    StageWrites flags.saveS (solver.runStage1 flags before files vectorsOnly).2 := by
  have vectors : StageWrites flags.saveS (if flags.saveS then
      [saveVector .x solver.vectorX solver.nrows solver.mBlock,
        saveVector .y solver.vectorY solver.nrows solver.nBlock] else []) :=
    .guarded (by simp [saveVector])
  have sequence : StageWrites flags.saveS
      (if flags.saveS then [solver.sequenceWrite] else []) :=
    .guarded (by simp [sequenceWrite, saveSequence])
  rw [runStage1]
  split
  next => exact vectors
  next =>
    simp only
    split
    next => exact vectors
    next => exact vectors
    next => exact vectors.append sequence

theorem runStage2_writes (solver : Solver) (flags : Flags) (files : Files) (hS : List Word) :
    StageWrites flags.savePi (solver.runStage2 flags files hS).2 := by
  rw [runStage2]
  simp only
  split
  next => exact .nil
  next => exact .nil
  next =>
    split
    next => exact .nil
    next => exact .guarded (by simp [generatorWrite, savePolynomial])

private theorem runStage3_writes (solver : Solver) (flags : Flags) (files : Files)
    (hPi : List Word) :
    StageWrites flags.saveSolutions (solver.runStage3 flags files hPi).2 := by
  have solutionFiles : ∀ solutions, ∀ entry ∈ solver.solutionWrites solutions,
      entry.1 ≠ .ckptTag := by
    intro solutions entry member
    rcases List.mem_append.mp member with vector | last
    · cases solutions with
      | nil => cases vector
      | cons first rest =>
        rcases List.mem_cons.mp vector with same | later
        · rw [same]
          exact Suffix.noConfusion
        · obtain ⟨i, _, same⟩ := List.mem_map.mp later
          rw [← same]
          exact Suffix.noConfusion
    · rw [List.mem_singleton.mp last]
      exact Suffix.noConfusion
  rw [runStage3]
  simp only
  split
  next => exact .nil
  next => exact .nil
  next =>
    split
    next => exact .nil
    next => exact .guarded (solutionFiles _)

/-- A solve saves its tag, and then nothing but files of its stages. -/
theorem solve_writes (solver : Solver) (given : Flags) (before : Uninitialised) (files : Files) :
    ∃ stages, (solver.solve given before files).2 = solver.tagWrites given files ++ stages ∧
      StageWrites given.anySave stages := by
  have same : (solver.checkedFlags given files).anySave = given.anySave := by
    rw [checkedFlags]
    split <;> rfl
  rw [solve, ← same]
  generalize solver.checkedFlags given files = flags
  have first : ∀ vectorsOnly, StageWrites flags.anySave
      (solver.runStage1 flags before files vectorsOnly).2 := fun vectorsOnly =>
    (solver.runStage1_writes flags before files vectorsOnly).mono
      fun on => by rw [Flags.anySave, on, Bool.true_or, Bool.true_or]
  have second : ∀ hS, StageWrites flags.anySave (solver.runStage2 flags files hS).2 :=
    fun hS => (solver.runStage2_writes flags files hS).mono
      fun on => by rw [Flags.anySave, on, Bool.or_true, Bool.true_or]
  have third : ∀ hPi, StageWrites flags.anySave (solver.runStage3 flags files hPi).2 :=
    fun hPi => (solver.runStage3_writes flags files hPi).mono
      fun on => by rw [Flags.anySave, on, Bool.or_true]
  simp only
  split
  next => exact ⟨_, rfl, third []⟩
  next =>
    have firstWrites := first (flags.loadPi && (files .pi).isSome)
    split
    next run =>
      rw [run] at firstWrites
      exact ⟨_, rfl, firstWrites⟩
    next hS _ run =>
      rw [run] at firstWrites
      have secondWrites := second hS
      split
      next run =>
        rw [run] at secondWrites
        exact ⟨_, List.append_assoc _ _ _, firstWrites.append secondWrites⟩
      next hPi _ run =>
        rw [run] at secondWrites
        refine ⟨_, ?_, (firstWrites.append secondWrites).append (third hPi)⟩
        simp only [List.append_assoc]

theorem solve_saves_nothing (solver : Solver) {flags : Flags}
    (nothing : flags.anySave = false) (before : Uninitialised) (files : Files) :
    (solver.solve flags before files).2 = [] := by
  obtain ⟨stages, writes, stageWrites⟩ := solver.solve_writes flags before files
  have untagged : solver.tagWrites flags files = [] := by
    rw [tagWrites, nothing, Bool.false_and, if_neg Bool.false_ne_true]
  rw [writes, untagged, List.nil_append]
  refine List.eq_nil_iff_forall_not_mem.mpr fun entry member => ?_
  exact absurd (nothing.symm.trans (stageWrites entry member).2) Bool.false_ne_true

theorem checkpointTagMatches_eq_true : solver.checkpointTagMatches files = true ↔
      loadCheckpointTag files = some solver.computeCkptTag := by
  rw [checkpointTagMatches, beq_iff_eq]

/-- Behind its first file a solve that saves leaves its own tag. -/
theorem solve_tags (solver : Solver) {flags : Flags} (saves : flags.anySave = true)
    (before : Uninitialised) (files : Files) {completed : Nat} (begun : completed ≠ 0) :
    solver.checkpointTagMatches
      (writeAll files ((solver.solve flags before files).2.take completed)) = true := by
  obtain ⟨stages, writes, stageWrites⟩ := solver.solve_writes flags before files
  have kept : ∀ (files : Files) (count : Nat), solver.checkpointTagMatches files = true →
        solver.checkpointTagMatches (writeAll files (stages.take count)) = true := by
    intro files count matching
    refine @keeps_writeAll files (fun files => solver.checkpointTagMatches files = true)
      (fun entry => entry.1 ≠ .ckptTag) _ ?_
      (fun entry member => (stageWrites entry (List.mem_of_mem_take member)).1) matching
    intro files entry other matching
    exact (checkpointTagMatches_congr (if_neg (Ne.symm other))).trans matching
  rw [writes, tagWrites, saves, Bool.true_and]
  cases matching : solver.checkpointTagMatches files with
  | true => exact kept files completed matching
  | false =>
    obtain ⟨count, rfl⟩ := Nat.exists_eq_succ_of_ne_zero begun
    refine kept (write files (saveCheckpointTag solver.computeCkptTag)) count ?_
    exact checkpointTagMatches_eq_true.mpr
      (loadCheckpointTag_save solver.computeCkptTag_lt (write_same _ _ _))

/-! ## Earlier runs -/

inductive Earlier
  | solve (other : Solver) (flags : Flags) (before : Uninitialised) (completed : Nat)
  | damage (left : Files)

/-- A solve killed behind some of its files; a file torn by the kill is damage. -/
def step (files : Files) : Earlier → Files
  | .solve other flags before completed =>
    Lingen.writeAll files ((other.solve flags before files).2.take completed)
  | .damage left => left

/-- The damage leaves what is loaded, or is refused where the refusal is made up for:
a sequence by its header, metadata and generators when they are gone. A sequence on
disk makes up for every refusal of stage 2. -/
structure Repairable (solver : Solver) (files left : Files) : Prop where
  sequence : ∀ before, solver.loadSequence before left = .rejected ∨
      solver.checkpointTagMatches files = true ∧
          solver.loadSequence before left = solver.loadSequence before files ∨
        solver.loadSequence before left ≠ .threw ∧ solver.diskSequence ≠ []
  generator : left .pi = none ∨ (solver.checkpointTagMatches files = true ∧ files .pi ≠ none) ∧
        solver.loadPolynomial left = solver.loadPolynomial files ∨
      solver.loadPolynomial left = .rejected ∧ solver.diskSequence ≠ []
  solutions : left .solMeta = none ∨
    (solver.checkpointTagMatches files = true ∧ files .solMeta ≠ none) ∧
      solver.loadSolutions left = solver.loadSolutions files

/-- A run that comes upon the files of others replaces what it would not repair before
it is killed. Its tag is the first file. -/
structure Replaces (solver : Solver) (flags : Flags) (completed : Nat) (files : Files) :
    Prop where
  sequence : solver.OwnSequence files ∨
    solver.sequenceWrite ∈ (solver.freshWrites flags).take (completed - 1)
  generator : solver.OwnGenerator files ∨
    solver.generatorWrite solver.pi ∈ (solver.freshWrites flags).take (completed - 1)
  solutions : solver.OwnSolutions files ∨
    solver.solutionsMetaWrite ∈ (solver.freshWrites flags).take (completed - 1)

/-- Others may save under their own tags, and anything may stand under another tag.
Damage under the tag of this solver is repairable. -/
def Allowed (solver : Solver) (files : Files) : Earlier → Prop
  | .solve other flags _ completed =>
    completed = 0 ∨ flags.anySave = false ∨ other.computeCkptTag ≠ solver.computeCkptTag ∨
        other = solver ∧ (solver.checkpointTagMatches files = true ∨
          solver.Replaces flags completed files)
  | .damage left => solver.checkpointTagMatches left = true → solver.Repairable files left

def Safe (solver : Solver) (files : Files) : Prop :=
  solver.checkpointTagMatches files = true → solver.Genuine files

theorem Safe.damage {left : Files} (safe : solver.Safe files)
    (repairable : solver.Repairable files left) : solver.Genuine left where
  sequence := by
    intro before
    rcases repairable.sequence before with refused | ⟨tagged, same⟩ | disk
    · exact .inl refused
    · rw [same]
      exact (safe tagged).sequence before
    · exact .inr (.inr disk)
  generator := by
    rcases repairable.generator with gone | ⟨⟨tagged, present⟩, same⟩ | disk
    · exact .inl gone
    · rw [OwnGenerator, same]
      exact .inr ((safe tagged).generator.resolve_left present)
    · exact .inr (.inr disk)
  solutions := by
    rcases repairable.solutions with gone | ⟨⟨tagged, present⟩, same⟩
    · exact .inl gone
    · rw [OwnSolutions, same]
      exact .inr ((safe tagged).solutions.resolve_left present)

/-- A run of the solver itself that saves, killed behind its first file or later. -/
theorem Safe.resumed (safe : solver.Safe files) {flags : Flags} (saves : flags.anySave = true)
    (before : Uninitialised) {completed : Nat} (begun : completed ≠ 0)
    (allowed : solver.checkpointTagMatches files = true ∨ solver.Replaces flags completed files) :
    solver.Genuine (writeAll files ((solver.solve flags before files).2.take completed)) := by
  by_cases tagged : solver.checkpointTagMatches files = true
  · have genuine := safe tagged
    exact genuine_killed (solve_genuine genuine flags before).2 completed
      (.inl genuine.sequence) (.inl genuine.generator) (.inl genuine.solutions)
  · have replaces := allowed.resolve_left tagged
    have writes : ∀ files, solver.checkpointTagMatches files = false →
        (solver.solve flags before files).2 =
          saveCheckpointTag solver.computeCkptTag :: solver.freshWrites flags := by
      intro files unmatched
      rw [solve_fresh (by rw [checkedFlags, unmatched]; rfl), tagWrites, saves, unmatched]
      rfl
    have harmless := (solve_genuine solver.genuine_noFiles flags before).2
    rw [writes noFiles rfl] at harmless
    rw [writes files (eq_false_of_ne_true tagged)]
    obtain ⟨count, rfl⟩ := Nat.exists_eq_succ_of_ne_zero begun
    exact genuine_killed harmless (count + 1)
      (replaces.sequence.imp_right (List.mem_cons_of_mem _))
      (replaces.generator.imp_right (List.mem_cons_of_mem _))
      (replaces.solutions.imp_right (List.mem_cons_of_mem _))

theorem Safe.step {solver : Solver} {files : Files} (safe : solver.Safe files)
    {event : Earlier} (allowed : solver.Allowed files event) :
    solver.Safe (Solver.step files event) := by
  intro tagged
  cases event with
  | damage left => exact safe.damage (allowed tagged)
  | solve other flags before completed =>
    by_cases begun : completed = 0
    · rw [begun] at tagged ⊢
      exact safe tagged
    · cases saves : flags.anySave with
      | false =>
        rw [Solver.step, other.solve_saves_nothing saves, List.take_nil] at tagged ⊢
        exact safe tagged
      | true =>
        rcases allowed with never | nothing | foreign | ⟨rfl, own⟩
        · exact absurd never begun
        · exact absurd (saves.symm.trans nothing) (by simp)
        · have others := other.solve_tags saves before files begun
          rw [checkpointTagMatches_eq_true] at others
          rw [Solver.step, checkpointTagMatches_eq_true, others] at tagged
          exact absurd (Option.some.inj tagged) foreign
        · exact safe.resumed saves before begun own

section Tagged

variable {flags : Flags} (tagged : solver.checkpointTagMatches files = true)

include tagged

theorem solve_loadsSolutions (loads : flags.loadSolutions = true)
    (present : (files .solMeta).isSome = true) (before : Uninitialised) :
    solver.solve flags before files =
      (.ofStage3 (solver.runStage3 flags files []).1, (solver.runStage3 flags files []).2) := by
  have checked : solver.checkedFlags flags files = flags := if_pos tagged
  have untagged : solver.tagWrites flags files = [] := by
    rw [tagWrites, tagged, Bool.not_true, Bool.and_false, if_neg Bool.false_ne_true]
  have consulted : (flags.loadSolutions && (files .solMeta).isSome) = true := by
    rw [loads, present, Bool.true_and]
  rw [solve, checked, untagged]
  simp only [if_pos consulted, List.nil_append]

/-- Solutions of any matrix are consumed when the loader accepts them. -/
theorem solve_consumesSolutions (loads : flags.loadSolutions = true)
    {found : List (List Word)} (accepted : solver.loadSolutions files = .accepted found)
    (before : Uninitialised) : (solver.solve flags before files).1 = .solutions found := by
  have present : (files .solMeta).isSome = true := by
    cases absent : files .solMeta with
    | none =>
      rw [Solver.loadSolutions, BWIOSystem.loadSolutions, solutionCount, absent] at accepted
      cases accepted
    | some => rfl
  have consulted : (flags.loadSolutions && (files .solMeta).isSome) = true := by
    rw [loads, present, Bool.true_and]
  rw [solve_loadsSolutions tagged loads present before, runStage3]
  simp only [if_pos consulted, accepted]
  rfl

/-- Without another source of the sequence a refused generator ends the solve. -/
theorem solve_refusedGenerator (absent : files .solMeta = none) (loads : flags.loadPi = true)
    (present : (files .pi).isSome = true) (refused : solver.loadPolynomial files = .rejected)
    (noDisk : solver.diskSequence = []) (before : Uninitialised) :
    (solver.solve flags before files).1 = .threw := by
  have checked : solver.checkedFlags flags files = flags := if_pos tagged
  have skipped : (flags.loadSolutions && (files .solMeta).isSome) = false := by
    rw [absent]
    exact Bool.and_false _
  have consulted : (flags.loadPi && (files .pi).isSome) = true := by
    rw [loads, present, Bool.true_and]
  have second : solver.runStage2 flags files [] = (none, []) := by
    rw [runStage2]
    simp only [if_pos consulted, refused]
    rw [if_pos]
    rw [source, if_pos noDisk]
  rw [solve, checked]
  simp only [skipped, Bool.false_eq_true, if_false, consulted, runStage1, if_true, second]

end Tagged

def zeroed : Uninitialised := ⟨0, 0, 0, 0⟩

end Solver

end CudaMpqs.Lingen
