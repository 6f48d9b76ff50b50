import Mathlib.Algebra.Field.ZMod
import CudaMpqs.Foundation.LeadingPosition
import CudaMpqs.Foundation.Transition
import CudaMpqs.Lingen.BasecaseSolverReference

/-! # Solution reconstruction

`SolutionReconstructor` evaluates the rows of the generator at an operator and
applies the operator until the vector vanishes. In batch mode the columns of a
block are stripped together and the last states are kept in a cyclic history. -/

namespace CudaMpqs.Lingen

open LeadingPosition

variable {m n nrows : Nat}

abbrev Vec (nrows : Nat) := Fin nrows → ZMod 2

/-! ## The echelon of solutions -/

structure BasisVector (nrows : Nat) where
  pivot : Fin nrows
  vec : Vec nrows
  leads : Leads vec pivot

def firstBit (v : Vec nrows) : Option (Fin nrows) :=
  (List.finRange nrows).find? fun r => v r = 1

def reduceBy (basis : List (BasisVector nrows)) : Nat → Vec nrows → Vec nrows
  | 0, vec => vec
  | turns + 1, vec =>
    match firstBit vec with
    | none => vec
    | some pivot =>
      match basis.find? fun b => b.pivot = pivot with
      | none => vec
      | some b => reduceBy basis turns (vec + b.vec)

theorem firstBit_leads {v : Vec nrows} {pivot : Fin nrows} (found : firstBit v = some pivot) :
    Leads v pivot := by
  rcases List.find?_eq_some_iff_append.mp found with ⟨entry, before, after, split, clear⟩
  constructor
  · have one : v pivot = 1 := of_decide_eq_true entry
    rw [one]
    decide
  · intro earlier below
    have sorted := List.pairwise_lt_finRange nrows
    have member := List.mem_finRange earlier
    rw [split] at sorted member
    rcases List.mem_append.mp member with inside | inside
    · have notOne : v earlier ≠ 1 := by simpa using clear earlier inside
      revert notOne
      generalize v earlier = bit
      revert bit
      decide
    · rcases List.mem_cons.mp inside with same | later
      · exact absurd same below.ne
      · have order := (List.pairwise_cons.mp (List.pairwise_append.mp sorted).2.1).1 _ later
        exact absurd below order.asymm

/-- Inserts the reduced vector, unless it vanishes. -/
def insertIntoBasis (basis : List (BasisVector nrows)) (vec : Vec nrows) :
    Option (BasisVector nrows) :=
  let reduced := reduceBy basis nrows vec
  match found : firstBit reduced with
  | none => none
  | some pivot => some ⟨pivot, reduced, firstBit_leads found⟩

/-! ## The search -/

structure Candidate (m n : Nat) where
  degree : Nat
  colIdx : Fin (n + m)

/-- The inputs of the reconstruction. The operator is linear, which over two
elements is additivity; `uninitialized` is what the history holds before the
first batch, by slot and column. -/
structure Reconstruction (m n nrows : Nat) where
  op : Vec nrows →+ Vec nrows
  Z : Matrix (Fin nrows) (Fin n) (ZMod 2)
  hPi : List (Coefficient m n)
  batchMode : Bool
  historyDepth : Nat
  checkInterval : Nat
  strippingStepLimit : Nat
  uninitialized : Nat → Nat → Vec nrows

structure SearchState (m n nrows : Nat) where
  candidates : List (Candidate m n)
  batches : List (List (Candidate m n))
  solutionBuffer : List (Vec nrows)
  basis : List (BasisVector nrows)
  history : Nat → Nat → Vec nrows

structure StripState (nrows : Nat) where
  W : Nat → Vec nrows
  history : Nat → Nat → Vec nrows
  cursor : Nat
  isActive : Nat → Bool
  basis : List (BasisVector nrows)
  solutionBuffer : List (Vec nrows)

def buildBatches (nBlock : Nat) (current : List (Candidate m n)) :
    List (Candidate m n) → List (List (Candidate m n))
  | [] => if current.length = 0 then [] else [current]
  | cand :: rest =>
    if nBlock ≤ (current ++ [cand]).length then
      (current ++ [cand]) :: buildBatches nBlock [] rest
    else buildBatches nBlock (current ++ [cand]) rest

namespace Reconstruction

variable (input : Reconstruction m n nrows)

def extractCoeffVector (k : Nat) (row : Fin (n + m)) : Fin n → ZMod 2 :=
  fun l => input.hPi.getD k 0 row (Fin.castAdd m l)

def rowDegree (row : Fin (n + m)) : Option Nat :=
  (List.range input.hPi.length).reverse.find? fun k => input.extractCoeffVector k row ≠ 0

def candidateQueue : List (Candidate m n) :=
  ((List.finRange (n + m)).filterMap fun row =>
      (input.rowDegree row).map fun degree => ⟨degree, row⟩).insertionSort
    fun left right => left.degree < right.degree ∨
      left.degree = right.degree ∧ left.colIdx ≤ right.colIdx

def init : SearchState m n nrows where
  candidates := input.candidateQueue
  batches := if input.batchMode then buildBatches n [] input.candidateQueue else []
  solutionBuffer := []
  basis := []
  history := input.uninitialized

def hornerStep (cand : Candidate m n) (w : Vec nrows) (k : Nat) : Vec nrows :=
  let w := if 0 < k then input.op w else w
  if k ≤ cand.degree then w + input.Z.mulVec (input.extractCoeffVector k cand.colIdx) else w

def horner (cand : Candidate m n) (maxDegree : Nat) : Vec nrows :=
  (List.range (maxDegree + 1)).foldl (input.hornerStep cand) 0

/-! ### Batch mode -/

def maxDegree (batch : List (Candidate m n)) : Nat :=
  (batch.map Candidate.degree).foldl max 0

def batchColumn (batch : List (Candidate m n)) (col : Nat) : Vec nrows :=
  match batch[col]? with
  | some cand => input.horner cand (maxDegree batch)
  | none => 0

def maxSteps : Nat :=
  if 0 < input.strippingStepLimit then input.strippingStepLimit
  else min (nrows / 1024 + 128) 4096

def backtrackColumn (history : Nat → Nat → Vec nrows) (col cursor : Nat) : Option Nat :=
  ((List.range' 1 (input.historyDepth - 1)).find? fun back =>
      history ((cursor + input.historyDepth - back) % input.historyDepth) col ≠ 0).map
    fun back => (cursor + input.historyDepth - back) % input.historyDepth

def advance (state : StripState nrows) : StripState nrows :=
  let cursor := (state.cursor + 1) % input.historyDepth
  let W := fun col => input.op (state.W col)
  { state with
    cursor := cursor
    W := W
    history := Function.update state.history cursor W }

def checkColumn (state : StripState nrows) (col : Nat) : StripState nrows :=
  if state.isActive col ∧ state.W col = 0 then
    let isActive := Function.update state.isActive col false
    match input.backtrackColumn state.history col state.cursor with
    | none => { state with isActive := isActive }
    | some foundIdx =>
      match insertIntoBasis state.basis (state.history foundIdx col) with
      | none => { state with isActive := isActive }
      | some b =>
        { state with
          isActive := isActive
          basis := state.basis ++ [b]
          solutionBuffer := state.solutionBuffer ++ [b.vec] }
  else state

def stripLoop (size : Nat) : Nat → Nat → StripState nrows → StripState nrows
  | 0, _, state => state
  | left + 1, step, state =>
    let next := input.advance state
    if step % input.checkInterval = 0 then
      let checked := (List.range size).reverse.foldl input.checkColumn next
      if (List.range size).any checked.isActive then stripLoop size left (step + 1) checked
      else checked
    else stripLoop size left (step + 1) next

def stripStart (batch : List (Candidate m n)) (state : SearchState m n nrows) :
    StripState nrows where
  W := input.batchColumn batch
  history := Function.update state.history 0 (input.batchColumn batch)
  cursor := 0
  isActive := fun col => col < batch.length
  basis := state.basis
  solutionBuffer := state.solutionBuffer

def runBatchStripping (batch : List (Candidate m n)) (state : SearchState m n nrows) :
    SearchState m n nrows :=
  let stripped := input.stripLoop batch.length input.maxSteps 1 (input.stripStart batch state)
  { state with
    basis := stripped.basis
    solutionBuffer := stripped.solutionBuffer
    history := stripped.history }

def searchBatches (state : SearchState m n nrows) :
    List (List (Candidate m n)) → SearchState m n nrows × Option (Vec nrows)
  | [] => ({ state with batches := [] }, none)
  | batch :: rest =>
    let next := input.runBatchStripping batch state
    match next.solutionBuffer with
    | w :: buffer => ({ next with batches := rest, solutionBuffer := buffer }, some w)
    | [] => searchBatches next rest

def findNextBatch (state : SearchState m n nrows) : SearchState m n nrows × Option (Vec nrows) :=
  match state.solutionBuffer with
  | w :: buffer => ({ state with solutionBuffer := buffer }, some w)
  | [] => input.searchBatches state state.batches

/-! ### Legacy mode -/

def stripValuation : Nat → Vec nrows → Option (Vec nrows)
  | 0, w => if input.op w = 0 then some w else none
  | steps + 1, w => if input.op w = 0 then some w else stripValuation steps (input.op w)

def legacyLimit : Nat :=
  if 0 < input.strippingStepLimit then input.strippingStepLimit else nrows + 128

def processCandidate (basis : List (BasisVector nrows)) (cand : Candidate m n) :
    Option (BasisVector nrows) :=
  let w := input.horner cand cand.degree
  if w = 0 then none
  else (input.stripValuation input.legacyLimit w).bind (insertIntoBasis basis)

def searchCandidates (state : SearchState m n nrows) :
    List (Candidate m n) → SearchState m n nrows × Option (Vec nrows)
  | [] => ({ state with candidates := [] }, none)
  | cand :: rest =>
    match input.processCandidate state.basis cand with
    | some b => ({ state with candidates := rest, basis := state.basis ++ [b] }, some b.vec)
    | none => searchCandidates state rest

def findNext (state : SearchState m n nrows) : SearchState m n nrows × Option (Vec nrows) :=
  if input.batchMode then input.findNextBatch state
  else input.searchCandidates state state.candidates

def returned (calls : Nat) : List (Vec nrows) :=
  (Transition.emitRun (fun state (_ : Unit) => input.findNext state) input.init
    (List.replicate calls ())).2

end Reconstruction

end CudaMpqs.Lingen
