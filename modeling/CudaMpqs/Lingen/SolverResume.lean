import CudaMpqs.Lingen.CheckpointFiles

/-! # Resuming a solve

`BlockWiedemannSolver::Solve` decides by the tag and by which files exist what it
loads. The three computations themselves are functions of the solver. -/

namespace CudaMpqs.Lingen

open ByteStream

inductive Loaded (α : Type)
  | rejected
  | accepted (value : α)
  | threw
deriving DecidableEq

def BWIOSystem.Outcome.seen {Output α : Type} (take : Output → α) : Outcome Output → Loaded α
  | .returned true output => .accepted (take output)
  | .returned false _ => .rejected
  | .threw => .threw

/-- A solver for one matrix under one configuration. The memory grants its loads as much
as its own results need. -/
structure Solver where
  nrows : Nat
  mBlock : Nat
  nBlock : Nat
  seed : Nat
  seqLen : Nat
  vectorX : List Word
  vectorY : List Word
  /-- The sequence of the matrix. -/
  krylov : List Word
  /-- What stage 2 reads at `S_disk_path`, empty when that source is off. -/
  diskSequence : List Word
  generator : List Word → List Word
  reconstruct : List Word → List (List Word)
  /-- The requests that are granted to the load of a file. -/
  heap : Suffix → BWIOSystem.Heap
  nrows_lt : nrows < 2 ^ 31
  blocks_pos : 0 < mBlock + nBlock
  blocks_lt : mBlock + nBlock < 2 ^ 31
  seqLen_lt : seqLen < 2 ^ 31
  krylov_ne : krylov ≠ []
  krylov_length : krylov.length = seqLen * (mBlock * wordsPerRow nBlock)
  generator_length : ∀ sequence, ∃ len < 2 ^ 32, (generator sequence).length =
    len * ((mBlock + nBlock) * wordsPerRow (mBlock + nBlock))
  reconstruct_count : ∀ pi, (reconstruct pi).length < 2 ^ 32
  reconstruct_length : ∀ pi, ∀ solution ∈ reconstruct pi, solution.length = wordsPerRow nrows
  heap_krylov : BWIOSystem.Grants (heap .s) 0 0 krylov.length
  heap_generator : ∀ sequence, BWIOSystem.Grants (heap .pi) 0 0 (generator sequence).length
  heap_reserve : ∀ pi, BWIOSystem.Grants (heap .solMeta) 0 0 (3 * (reconstruct pi).length)
  heap_reconstruct : ∀ pi, ∀ i < (reconstruct pi).length,
    BWIOSystem.Grants (heap .solMeta) (i + 1) 0 (wordsPerRow nrows)

structure Flags where
  loadS : Bool
  loadPi : Bool
  loadSolutions : Bool
  saveS : Bool
  savePi : Bool
  saveSolutions : Bool

def Flags.disableLoading (flags : Flags) : Flags :=
  { flags with loadS := false, loadPi := false, loadSolutions := false }

def Flags.anySave (flags : Flags) : Bool :=
  flags.saveS || flags.savePi || flags.saveSolutions

inductive Outcome
  | threw
  | solutions (found : List (List Word))
deriving DecidableEq

def Outcome.ofStage3 : Option (List (List Word)) → Outcome
  | none => .threw
  | some found => .solutions found

def mix (hash number : Nat) : Nat :=
  ((List.range 8).foldl (fun (state : Nat × Nat) _ =>
    ((state.1 ^^^ (state.2 % 256)) * 1099511628211 % 2 ^ 64, state.2 / 256))
    (hash, number)).1

namespace Solver

def dim (solver : Solver) : Nat := solver.mBlock + solver.nBlock

def computeCkptTag (solver : Solver) : Nat :=
  mix (mix (mix (mix 1469598103934665603 solver.nrows) solver.mBlock) solver.nBlock)
    solver.seed

def checkpointTagMatches (solver : Solver) (files : Files) : Bool :=
  loadCheckpointTag files == some solver.computeCkptTag

/-! ## What the files are to hold -/

def sequenceWrite (solver : Solver) : Write :=
  saveSequence solver.krylov solver.seqLen solver.mBlock solver.nBlock

def generatorWrite (solver : Solver) (pi : List Word) : Write :=
  savePolynomial pi (pi.length / (solver.dim * wordsPerRow solver.dim)) solver.dim solver.dim

def solutionWrites (solver : Solver) (solutions : List (List Word)) : List Write :=
  saveSolutions solutions solver.nrows ++
    [saveSolutionsMeta solutions.length solver.nrows solver.mBlock solver.nBlock]

/-! ## Loading into the empty vectors of the solver -/

def loadSequence (solver : Solver) (before : Uninitialised) (files : Files) : Loaded (List Word) :=
  (BWIOSystem.loadSequence (solver.heap .s) before (files .s) ⟨[], 0⟩ solver.mBlock
    solver.nBlock).seen (·.words)

def loadPolynomial (solver : Solver) (files : Files) : Loaded (List Word) :=
  (BWIOSystem.loadPolynomial (solver.heap .pi) (files .pi) ⟨[], 0⟩ solver.dim).seen (·.words)

def loadSolutions (solver : Solver) (files : Files) : Loaded (List (List Word)) :=
  (BWIOSystem.loadSolutions (solver.heap .solMeta) files [] solver.nrows solver.mBlock
    solver.nBlock).seen id

/-! ## The stages -/

def runStage1 (solver : Solver) (flags : Flags) (before : Uninitialised) (files : Files)
    (vectorsOnly : Bool) : Option (List Word) × List Write :=
  let vectors := if flags.saveS then
    [saveVector .x solver.vectorX solver.nrows solver.mBlock,
      saveVector .y solver.vectorY solver.nrows solver.nBlock] else []
  if vectorsOnly then (some [], vectors)
  else
    let loaded := if flags.loadS && (files .s).isSome then solver.loadSequence before files
      else .rejected
    match loaded with
    | .accepted words => (some words, vectors)
    | .threw => (none, vectors)
    | .rejected =>
      (some solver.krylov, vectors ++ if flags.saveS then [solver.sequenceWrite] else [])

/-- The sources of the sequence in their order; none of them throws. -/
def source (solver : Solver) (hS : List Word) : List Word :=
  if solver.diskSequence = [] then hS else solver.diskSequence

def runStage2 (solver : Solver) (flags : Flags) (files : Files) (hS : List Word) :
    Option (List Word) × List Write :=
  let loaded := if flags.loadPi && (files .pi).isSome then solver.loadPolynomial files
    else .rejected
  match loaded with
  | .accepted pi => (some pi, [])
  | .threw => (none, [])
  | .rejected =>
    if solver.source hS = [] then (none, [])
    else
      let pi := solver.generator (solver.source hS)
      (some pi, if flags.savePi then [solver.generatorWrite pi] else [])

def runStage3 (solver : Solver) (flags : Flags) (files : Files) (hPi : List Word) :
    Option (List (List Word)) × List Write :=
  let loaded := if flags.loadSolutions && (files .solMeta).isSome then
    solver.loadSolutions files else .rejected
  match loaded with
  | .accepted solutions => (some solutions, [])
  | .threw => (none, [])
  | .rejected =>
    if hPi = [] then (some [], [])
    else
      let solutions := solver.reconstruct hPi
      (some solutions, if flags.saveSolutions then solver.solutionWrites solutions else [])

def checkedFlags (solver : Solver) (flags : Flags) (files : Files) : Flags :=
  if solver.checkpointTagMatches files then flags else flags.disableLoading

def tagWrites (solver : Solver) (flags : Flags) (files : Files) : List Write :=
  if flags.anySave && !solver.checkpointTagMatches files then
    [saveCheckpointTag solver.computeCkptTag] else []

def solve (solver : Solver) (given : Flags) (before : Uninitialised) (files : Files) :
    Outcome × List Write :=
  let tagged := solver.tagWrites given files
  let flags := solver.checkedFlags given files
  if flags.loadSolutions && (files .solMeta).isSome then
    let (solutions, third) := solver.runStage3 flags files []
    (.ofStage3 solutions, tagged ++ third)
  else
    let vectorsOnly := flags.loadPi && (files .pi).isSome
    match solver.runStage1 flags before files vectorsOnly with
    | (none, first) => (.threw, tagged ++ first)
    | (some hS, first) =>
      match solver.runStage2 flags files hS with
      | (none, second) => (.threw, tagged ++ first ++ second)
      | (some hPi, second) =>
        let (solutions, third) := solver.runStage3 flags files hPi
        (.ofStage3 solutions, tagged ++ first ++ second ++ third)

/-! ## The results of the stages -/

def pi (solver : Solver) : List Word := solver.generator (solver.source solver.krylov)

def solutions (solver : Solver) : List (List Word) :=
  if solver.pi = [] then [] else solver.reconstruct solver.pi

theorem source_krylov_ne (solver : Solver) : solver.source solver.krylov ≠ [] := by
  rw [source]
  split
  · exact solver.krylov_ne
  · assumption

def OwnSequence (solver : Solver) (files : Files) : Prop :=
  ∀ before, solver.loadSequence before files = .rejected ∨
    solver.loadSequence before files = .accepted solver.krylov ∨
      solver.loadSequence before files ≠ .threw ∧ solver.diskSequence ≠ []

/-- The generator is this solver's, or its refusal is made up for. -/
def OwnGenerator (solver : Solver) (files : Files) : Prop :=
  files .pi = none ∨ solver.loadPolynomial files = .accepted solver.pi ∨
    solver.loadPolynomial files = .rejected ∧ solver.diskSequence ≠ []

def OwnSolutions (solver : Solver) (files : Files) : Prop :=
  files .solMeta = none ∨ solver.loadSolutions files = .accepted solver.solutions

/-- Nothing but results of this solver is loaded, and what is refused is made up for. -/
structure Genuine (solver : Solver) (files : Files) : Prop where
  sequence : solver.OwnSequence files
  generator : solver.OwnGenerator files
  solutions : solver.OwnSolutions files

theorem genuine_noFiles (solver : Solver) : solver.Genuine noFiles :=
  ⟨fun _ => .inl rfl, .inl rfl, .inl rfl⟩

/-! ## Solves that load nothing -/

def freshWrites (solver : Solver) (flags : Flags) : List Write :=
  (if flags.saveS then
    [saveVector .x solver.vectorX solver.nrows solver.mBlock,
      saveVector .y solver.vectorY solver.nrows solver.nBlock, solver.sequenceWrite]
  else []) ++ ((if flags.savePi then [solver.generatorWrite solver.pi] else []) ++
      if solver.pi = [] then []
      else if flags.saveSolutions then solver.solutionWrites solver.solutions else [])

theorem solve_fresh {solver : Solver} {flags : Flags} {files : Files}
    (unloaded : solver.checkedFlags flags files = flags.disableLoading)
    (before : Uninitialised) :
    solver.solve flags before files = (.solutions solver.solutions,
      solver.tagWrites flags files ++ solver.freshWrites flags) := by
  have first : solver.runStage1 flags.disableLoading before files false =
      (some solver.krylov, if flags.saveS then
        [saveVector .x solver.vectorX solver.nrows solver.mBlock,
          saveVector .y solver.vectorY solver.nrows solver.nBlock, solver.sequenceWrite]
      else []) := by
    obtain ⟨_, _, _, saveS, _, _⟩ := flags
    cases saveS <;> rfl
  have second : solver.runStage2 flags.disableLoading files solver.krylov =
      (some solver.pi, if flags.savePi then [solver.generatorWrite solver.pi] else []) := by
    simp only [runStage2, Flags.disableLoading, Bool.false_and, Bool.false_eq_true, if_false]
    rw [if_neg solver.source_krylov_ne]
    rfl
  have third : solver.runStage3 flags.disableLoading files solver.pi =
      (some solver.solutions, if solver.pi = [] then [] else
        if flags.saveSolutions then solver.solutionWrites solver.solutions else []) := by
    simp only [runStage3, Flags.disableLoading, Bool.false_and, Bool.false_eq_true, if_false,
      solutions]
    by_cases empty : solver.pi = []
    · rw [if_pos empty, if_pos empty, if_pos empty]
    · rw [if_neg empty, if_neg empty, if_neg empty]
      rfl
  rw [solve, unloaded]
  simp only [show flags.disableLoading.loadSolutions = false from rfl,
    show flags.disableLoading.loadPi = false from rfl, Bool.false_and, Bool.false_eq_true,
    if_false, first, second, third]
  rw [freshWrites, List.append_assoc, List.append_assoc]
  rfl

/-- A write that a genuine run may be killed behind. -/
def Benign (solver : Solver) (entry : Write) : Prop :=
  match entry.1 with
  | .s => entry = solver.sequenceWrite
  | .pi => entry = solver.generatorWrite solver.pi
  | .sol i => i < solver.solutions.length ∧
      entry = saveSingleSolution (.sol i) (solver.solutions.getD i []) solver.nrows
  | .solMeta => False
  | _ => True

def Harmless (solver : Solver) (writes : List Write) : Prop :=
  ∃ front, (∀ entry ∈ front, solver.Benign entry) ∧
    (writes = front ∨ writes = front ++ solver.solutionWrites solver.solutions)

theorem benign_tagWrites (solver : Solver) (flags : Flags) (files : Files) :
    ∀ entry ∈ solver.tagWrites flags files, solver.Benign entry := by
  intro entry member
  rw [tagWrites] at member
  split at member
  · rw [List.mem_singleton.mp member]
    trivial
  · cases member

/-! ## Stages over genuine files -/

theorem runStage1_genuine {solver : Solver} {files : Files} (genuine : solver.Genuine files)
    (flags : Flags) (before : Uninitialised) :
    (∃ hS writes, solver.runStage1 flags before files false = (some hS, writes) ∧
      solver.source hS = solver.source solver.krylov ∧ ∀ entry ∈ writes, solver.Benign entry) ∧
      ∃ writes, solver.runStage1 flags before files true = (some [], writes) ∧
        ∀ entry ∈ writes, solver.Benign entry := by
  have vectors : ∀ entry ∈ (if flags.saveS then
      [saveVector .x solver.vectorX solver.nrows solver.mBlock,
        saveVector .y solver.vectorY solver.nrows solver.nBlock] else []),
      solver.Benign entry := by
    intro entry member
    split at member
    · rcases List.mem_cons.mp member with same | later
      · rw [same]
        trivial
      · rw [List.mem_singleton.mp later]
        trivial
    · cases member
  have rejected : ∀ entry ∈ (if flags.saveS then
      [saveVector .x solver.vectorX solver.nrows solver.mBlock,
        saveVector .y solver.vectorY solver.nrows solver.nBlock] else []) ++
          (if flags.saveS then [solver.sequenceWrite] else []), solver.Benign entry := by
    intro entry member
    rcases List.mem_append.mp member with first | last
    · exact vectors entry first
    · split at last
      · rw [List.mem_singleton.mp last]
        exact rfl
      · cases last
  refine ⟨?_, _, rfl, vectors⟩
  simp only [runStage1, Bool.false_eq_true, if_false]
  by_cases consulted : (flags.loadS && (files .s).isSome) = true
  · rw [if_pos consulted]
    rcases genuine.sequence before with refused | same | ⟨noThrow, disk⟩
    · rw [refused]
      exact ⟨_, _, rfl, rfl, rejected⟩
    · rw [same]
      exact ⟨_, _, rfl, rfl, vectors⟩
    · have fromDisk : ∀ hS, solver.source hS = solver.source solver.krylov := by
        intro hS
        rw [source, source, if_neg disk, if_neg disk]
      cases result : solver.loadSequence before files with
      | rejected => exact ⟨_, _, rfl, rfl, rejected⟩
      | accepted words => exact ⟨_, _, rfl, fromDisk words, vectors⟩
      | threw => exact absurd result noThrow
  · rw [if_neg consulted]
    exact ⟨_, _, rfl, rfl, rejected⟩

theorem runStage2_genuine {solver : Solver} {files : Files} (genuine : solver.Genuine files)
    (flags : Flags) {hS : List Word}
    (enough : solver.source hS = solver.source solver.krylov ∨
      (flags.loadPi && (files .pi).isSome) = true) :
    ∃ writes, solver.runStage2 flags files hS = (some solver.pi, writes) ∧
      ∀ entry ∈ writes, solver.Benign entry := by
  have computed : solver.source hS = solver.source solver.krylov →
      ∃ writes, (if solver.source hS = [] then (none, [])
        else (some (solver.generator (solver.source hS)), if flags.savePi then
          [solver.generatorWrite (solver.generator (solver.source hS))] else [])) =
            ((some solver.pi, writes) : Option (List Word) × List Write) ∧
              ∀ entry ∈ writes, solver.Benign entry := by
    intro same
    rw [same, if_neg solver.source_krylov_ne]
    refine ⟨_, rfl, ?_⟩
    intro entry member
    split at member
    · rw [List.mem_singleton.mp member]
      exact rfl
    · cases member
  rw [runStage2]
  by_cases consulted : (flags.loadPi && (files .pi).isSome) = true
  · simp only [if_pos consulted]
    rcases genuine.generator with absent | same | ⟨refused, disk⟩
    · rw [absent] at consulted
      simp at consulted
    · rw [same]
      exact ⟨[], rfl, by simp⟩
    · rw [refused]
      apply computed
      rw [source, source, if_neg disk, if_neg disk]
  · simp only [if_neg consulted]
    rcases enough with same | taken
    · exact computed same
    · exact absurd taken consulted

private theorem runStage3_genuine {solver : Solver} {files : Files} (flags : Flags)
    (skipped : (flags.loadSolutions && (files .solMeta).isSome) = false) :
    ∃ writes, solver.runStage3 flags files solver.pi = (some solver.solutions, writes) ∧
      (writes = [] ∨ writes = solver.solutionWrites solver.solutions) := by
  rw [runStage3, skipped]
  simp only [Bool.false_eq_true, if_false, solutions]
  by_cases empty : solver.pi = []
  · rw [if_pos empty, if_pos empty]
    exact ⟨[], rfl, .inl rfl⟩
  · rw [if_neg empty, if_neg empty]
    cases flags.saveSolutions with
    | false => exact ⟨[], rfl, .inl rfl⟩
    | true => exact ⟨_, rfl, .inr rfl⟩

/-- Over genuine files every solve ends with the solutions of the solver. -/
theorem solve_genuine {solver : Solver} {files : Files} (genuine : solver.Genuine files)
    (given : Flags) (before : Uninitialised) :
    (solver.solve given before files).1 = .solutions solver.solutions ∧
      solver.Harmless (solver.solve given before files).2 := by
  have tagged := solver.benign_tagWrites given files
  rw [solve]
  generalize solver.checkedFlags given files = flags
  by_cases resumes : (flags.loadSolutions && (files .solMeta).isSome) = true
  · have loaded : solver.runStage3 flags files [] = (some solver.solutions, []) := by
      rcases genuine.solutions with absent | same
      · rw [absent] at resumes
        simp at resumes
      · rw [runStage3]
        simp only [if_pos resumes, same]
    simp only [if_pos resumes, loaded, List.append_nil]
    exact ⟨rfl, _, tagged, .inl rfl⟩
  · simp only [if_neg resumes]
    have skipped := eq_false_of_ne_true resumes
    obtain ⟨full, vectorsOnly⟩ := runStage1_genuine genuine flags before
    obtain ⟨third, thirdRun, thirdWrites⟩ := @runStage3_genuine solver files flags skipped
    have joined : ∀ first second : List Write, (∀ entry ∈ first, solver.Benign entry) →
        (∀ entry ∈ second, solver.Benign entry) →
          solver.Harmless (solver.tagWrites given files ++ first ++ second ++ third) := by
      intro first second firstBenign secondBenign
      refine ⟨solver.tagWrites given files ++ first ++ second, ?_, ?_⟩
      · intro entry member
        rcases List.mem_append.mp member with early | late
        · rcases List.mem_append.mp early with tag | middle
          · exact tagged entry tag
          · exact firstBenign entry middle
        · exact secondBenign entry late
      · rcases thirdWrites with none | all
        · rw [none, List.append_nil]
          exact .inl rfl
        · rw [all]
          exact .inr rfl
    by_cases fromPi : (flags.loadPi && (files .pi).isSome) = true
    · obtain ⟨first, firstRun, firstBenign⟩ := vectorsOnly
      obtain ⟨second, secondRun, secondBenign⟩ :=
        @runStage2_genuine solver files genuine flags [] (.inr fromPi)
      simp only [fromPi, firstRun, secondRun, thirdRun]
      exact ⟨rfl, joined first second firstBenign secondBenign⟩
    · obtain ⟨hS, first, firstRun, same, firstBenign⟩ := full
      obtain ⟨second, secondRun, secondBenign⟩ :=
        runStage2_genuine genuine flags (.inl same)
      simp only [eq_false_of_ne_true fromPi, firstRun, secondRun, thirdRun]
      exact ⟨rfl, joined first second firstBenign secondBenign⟩

end Solver

end CudaMpqs.Lingen
