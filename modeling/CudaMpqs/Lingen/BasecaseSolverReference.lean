import Mathlib.Algebra.Field.ZMod
import Mathlib.Data.List.DropRight
import Mathlib.Data.List.GetD
import Mathlib.Data.Matrix.Basic
import CudaMpqs.Foundation.Approximant

/-! # The reference base case of the generator search

`BasecaseSolverLegacy` runs the block Berlekamp-Massey iteration on a sequence
of bit matrices. Matrices are kept by their entries, not by their words. -/

namespace CudaMpqs.Lingen

open Approximant

variable {m n : Nat}

abbrev Term (m n : Nat) := Matrix (Fin m) (Fin n) (ZMod 2)

/-- A coefficient of `F(x)`; the source stores it with `m + n` columns and uses
the first `n`. -/
abbrev Coefficient (m n : Nat) := Matrix (Fin (n + m)) (Fin (n + m)) (ZMod 2)

abbrev Discrepancy (m n : Nat) := Matrix (Fin (n + m)) (Fin m) (ZMod 2)

/-! ## Initialization -/

structure BasisState (m n : Nat) where
  basisVecs : Fin m → Option (Fin m → ZMod 2)
  pairs : List (Nat × Fin n)

structure InitResult (n : Nat) where
  t0 : Nat
  basisPairs : List (Nat × Fin n)

/-- The reduction of a column against the basis vectors in ascending pivot order. -/
def reduce (basisVecs : Fin m → Option (Fin m → ZMod 2)) (v : Fin m → ZMod 2) : Fin m → ZMod 2 :=
  (List.finRange m).foldl (fun v p =>
    match basisVecs p with
    | some vec => if v p = 1 then v + vec else v
    | none => v) v

/-- The scan of the columns in time order, up to the column that completes the rank. -/
def scanColumns (S : List (Term m n)) (state : BasisState m n) : List (Nat × Fin n) → InitResult n
  | [] => ⟨0, []⟩
  | (i, j) :: columns =>
    let v := reduce state.basisVecs fun r => S.getD i 0 r j
    match (List.finRange m).find? fun r => v r = 1 with
    | none => scanColumns S state columns
    | some firstBit =>
      let pairs := state.pairs ++ [(i, j)]
      if pairs.length = m then ⟨i + 1, pairs⟩
      else scanColumns S ⟨Function.update state.basisVecs firstBit (some v), pairs⟩ columns

def findInitializationBasis (S : List (Term m n)) : InitResult n :=
  scanColumns S ⟨fun _ => none, []⟩
    ((List.range S.length).flatMap fun i => (List.finRange n).map fun j => (i, j))

def initCoefficient (init : InitResult n) (deg : Nat) : Coefficient m n :=
  fun row column =>
    Fin.addCases
      (fun j => if deg = 0 ∧ column = Fin.castAdd m j then 1 else 0)
      (fun k =>
        match init.basisPairs[k.val]? with
        | none => 0
        | some (i, j) => if deg = init.t0 - i ∧ column = Fin.castAdd m j then 1 else 0)
      row

structure SolverState (m n : Nat) where
  F : List (Coefficient m n)
  gamma : Fin (n + m) → Nat

def buildFInit (init : InitResult n) : SolverState m n where
  F := (List.range (init.t0 + 1)).map (initCoefficient init)
  gamma := fun _ => init.t0

/-! ## One iteration -/

def computeDiscrepancy (F : List (Coefficient m n)) (S : List (Term m n)) (t : Nat) :
    Discrepancy m n :=
  fun r c => ∑ k ∈ Finset.range F.length,
    if k ≤ t then ∑ l : Fin n, F.getD k 0 r (Fin.castAdd m l) * S.getD (t - k) 0 c l else 0

structure EliminationState (m n : Nat) where
  tau : Coefficient m n
  reducedDelta : Discrepancy m n
  pOrd : List (Fin (n + m))

def EliminationState.findPivot (state : EliminationState m n) (col : Fin m) :
    Option (Fin (n + m)) :=
  state.pOrd.find? fun idx => state.reducedDelta idx col = 1

def EliminationState.Reduces (state : EliminationState m n) (pivotRow : Fin (n + m))
    (col : Fin m) (r : Fin (n + m)) : Prop :=
  r ≠ pivotRow ∧ state.reducedDelta r col = 1

instance (state : EliminationState m n) (pivotRow : Fin (n + m)) (col : Fin m)
    (r : Fin (n + m)) : Decidable (state.Reduces pivotRow col r) :=
  inferInstanceAs (Decidable (_ ∧ _))

def EliminationState.eliminate (state : EliminationState m n) (pivotRow : Fin (n + m))
    (col : Fin m) : EliminationState m n where
  tau := fun r =>
    if state.Reduces pivotRow col r then state.tau r + state.tau pivotRow else state.tau r
  reducedDelta := fun r =>
    if state.Reduces pivotRow col r then
      state.reducedDelta r + state.reducedDelta pivotRow
    else state.reducedDelta r
  pOrd := state.pOrd.filter (· != pivotRow)

def eliminateColumn (state : EliminationState m n) (col : Fin m) : EliminationState m n :=
  match state.findPivot col with
  | none => state
  | some pivotRow => state.eliminate pivotRow col

/-- The rows in the order of their degree bounds, equal bounds by index. -/
def sortByGamma (gamma : Fin (n + m) → Nat) (rows : List (Fin (n + m))) : List (Fin (n + m)) :=
  rows.insertionSort fun a b => gamma a ≤ gamma b

def eliminationStart (gamma : Fin (n + m) → Nat) (delta : Discrepancy m n) :
    EliminationState m n where
  tau := 1
  reducedDelta := delta
  pOrd := sortByGamma gamma (List.finRange (n + m))

def computeEliminationStep (gamma : Fin (n + m) → Nat) (delta : Discrepancy m n) :
    EliminationState m n :=
  (List.finRange m).foldl eliminateColumn (eliminationStart gamma delta)

def shiftOrder (gamma : Fin (n + m) → Nat) (reducedDelta : Discrepancy m n) : List (Fin (n + m)) :=
  let nonZeroIndices := (List.finRange (n + m)).filter fun r => reducedDelta r ≠ 0
  let zeroIndices := (List.finRange (n + m)).filter fun r => reducedDelta r = 0
  nonZeroIndices ++ sortByGamma gamma zeroIndices

def computeShiftVector (gamma : Fin (n + m) → Nat) (reducedDelta : Discrepancy m n) :
    Fin (n + m) → Bool :=
  fun idx => idx ∈ (shiftOrder gamma reducedDelta).take m

def trim : List (Coefficient m n) → List (Coefficient m n)
  | [] => []
  | first :: rest => first :: rest.rdropWhile fun mat => decide (mat = 0)

def updatedCoefficient (F : List (Coefficient m n)) (tau : Coefficient m n)
    (willShift : Fin (n + m) → Bool) (k : Nat) : Coefficient m n :=
  fun r =>
    if willShift r then
      match k with
      | 0 => 0
      | k + 1 => (tau * F.getD k 0) r
    else (tau * F.getD k 0) r

def applyUpdate (F : List (Coefficient m n)) (tau : Coefficient m n)
    (willShift : Fin (n + m) → Bool) : List (Coefficient m n) :=
  trim ((List.range (F.length + 1)).map (updatedCoefficient F tau willShift))

def iterate (S : List (Term m n)) (t : Nat) (state : SolverState m n) : SolverState m n :=
  let delta := computeDiscrepancy state.F S t
  let stepRes := computeEliminationStep state.gamma delta
  let willShift := computeShiftVector state.gamma stepRes.reducedDelta
  { F := applyUpdate state.F stepRes.tau willShift
    gamma := fun r => if willShift r then state.gamma r + 1 else state.gamma r }

def solveSteps (S : List (Term m n)) : Nat → SolverState m n
  | 0 => buildFInit (findInitializationBasis S)
  | steps + 1 => iterate S ((findInitializationBasis S).t0 + steps) (solveSteps S steps)

end CudaMpqs.Lingen
