import Mathlib.LinearAlgebra.Matrix.Notation
import CudaMpqs.Lingen.BasecaseSolverReference

/-! # What the iteration preserves

The elimination keeps the reduced discrepancy a row combination of the one it
started from and clears the rows it has not used as pivots. Row degrees survive
it as long as no pivot row is reduced by a later pivot of a larger bound. -/

namespace CudaMpqs.Lingen

open Approximant

variable {m n : Nat}

theorem eq_zero_of_ne_one {bit : ZMod 2} (different : bit ≠ 1) : bit = 0 := by
  revert bit
  decide

/-! ## Pivots -/

variable {state : EliminationState m n} {col : Fin m} {pivotRow : Fin (n + m)}

theorem findPivot_spec (found : state.findPivot col = some pivotRow) :
    pivotRow ∈ state.pOrd ∧ state.reducedDelta pivotRow col = 1 := by
  unfold EliminationState.findPivot at found
  constructor
  · exact List.mem_of_find?_eq_some found
  · simpa using List.find?_some found

theorem findPivot_none (missing : state.findPivot col = none) {r : Fin (n + m)}
    (member : r ∈ state.pOrd) : state.reducedDelta r col = 0 := by
  apply eq_zero_of_ne_one
  simpa using List.find?_eq_none.mp missing r member

theorem findPivot_le (found : state.findPivot col = some pivotRow) {gamma : Fin (n + m) → Nat}
    (sorted : state.pOrd.Pairwise fun a b => gamma a ≤ gamma b) {r : Fin (n + m)}
    (member : r ∈ state.pOrd) (bit : state.reducedDelta r col = 1) : gamma pivotRow ≤ gamma r := by
  rcases List.find?_eq_some_iff_append.mp found with ⟨_, before, after, split, clear⟩
  rw [split] at sorted member
  rcases List.mem_append.mp member with earlier | later
  · simpa [bit] using clear r earlier
  · rcases List.mem_cons.mp later with rfl | later
    · exact le_refl _
    · exact (List.pairwise_cons.mp (List.pairwise_append.mp sorted).2.1).1 r later

/-! ## The elimination -/

structure Eliminated (gamma : Fin (n + m) → Nat) (delta : Discrepancy m n)
    (processed : List (Fin m)) (state : EliminationState m n) : Prop where
  product : ∀ r c, state.reducedDelta r c = ∑ l, state.tau r l * delta l c
  cleared : ∀ r ∈ state.pOrd, ∀ col ∈ processed, state.reducedDelta r col = 0
  sorted : state.pOrd.Pairwise fun a b => gamma a ≤ gamma b
  nodup : state.pOrd.Nodup
  unused : n + m ≤ state.pOrd.length + processed.length

variable {gamma : Fin (n + m) → Nat} {delta : Discrepancy m n}

theorem sortByGamma_perm (gamma : Fin (n + m) → Nat) (rows : List (Fin (n + m))) :
    (sortByGamma gamma rows).Perm rows :=
  List.perm_insertionSort _ rows

private theorem sortByGamma_sorted (gamma : Fin (n + m) → Nat) (rows : List (Fin (n + m))) :
    (sortByGamma gamma rows).Pairwise fun a b => gamma a ≤ gamma b := by
  have total : Std.Total fun a b : Fin (n + m) => gamma a ≤ gamma b :=
    ⟨fun a b => Nat.le_total _ _⟩
  have trans : IsTrans (Fin (n + m)) fun a b => gamma a ≤ gamma b :=
    ⟨fun a b c => Nat.le_trans⟩
  exact List.pairwise_insertionSort _ rows

theorem Eliminated.start (gamma : Fin (n + m) → Nat) (delta : Discrepancy m n) :
    Eliminated gamma delta [] (eliminationStart gamma delta) where
  product := by
    intro r c
    exact (congrFun (congrFun (Matrix.one_mul delta) r) c).symm
  cleared := by
    intro r member col impossible
    cases impossible
  sorted := sortByGamma_sorted gamma _
  nodup := (sortByGamma_perm gamma _).nodup_iff.mpr (List.nodup_finRange _)
  unused := by
    rw [eliminationStart, (sortByGamma_perm gamma _).length_eq]
    simp

theorem Eliminated.eliminate {processed : List (Fin m)}
    (eliminated : Eliminated gamma delta processed state)
    (found : state.findPivot col = some pivotRow) :
    Eliminated gamma delta (col :: processed) (state.eliminate pivotRow col) where
  product := by
    intro r c
    by_cases reduces : state.Reduces pivotRow col r
    · simp only [EliminationState.eliminate, if_pos reduces, Pi.add_apply, add_mul,
        Finset.sum_add_distrib, eliminated.product]
    · simp only [EliminationState.eliminate, if_neg reduces, eliminated.product]
  cleared := by
    rcases findPivot_spec found with ⟨pivotMember, pivotBit⟩
    intro r member processedCol columnMember
    rcases List.mem_filter.mp member with ⟨oldMember, different⟩
    have different : r ≠ pivotRow := by simpa using different
    by_cases reduces : state.Reduces pivotRow col r
    · simp only [EliminationState.eliminate, if_pos reduces, Pi.add_apply]
      rcases List.mem_cons.mp columnMember with rfl | columnMember
      · rw [reduces.2, pivotBit]
        decide
      · rw [eliminated.cleared r oldMember _ columnMember,
          eliminated.cleared pivotRow pivotMember _ columnMember, add_zero]
    · simp only [EliminationState.eliminate, if_neg reduces]
      rcases List.mem_cons.mp columnMember with rfl | columnMember
      · apply eq_zero_of_ne_one
        intro bit
        exact reduces ⟨different, bit⟩
      · exact eliminated.cleared r oldMember _ columnMember
  sorted := eliminated.sorted.filter _
  nodup := eliminated.nodup.filter _
  unused := by
    have erased : (state.pOrd.filter (· != pivotRow)).length + 1 = state.pOrd.length := by
      rw [← List.Nodup.erase_eq_filter eliminated.nodup,
        List.length_erase_of_mem (findPivot_spec found).1]
      have nonempty := List.length_pos_of_mem (findPivot_spec found).1
      omega
    have unused := eliminated.unused
    rw [EliminationState.eliminate, List.length_cons]
    dsimp only
    omega

theorem Eliminated.column {processed : List (Fin m)}
    (eliminated : Eliminated gamma delta processed state) (col : Fin m) :
    Eliminated gamma delta (col :: processed) (eliminateColumn state col) := by
  unfold eliminateColumn
  cases found : state.findPivot col with
  | some pivotRow => exact eliminated.eliminate found
  | none =>
    have unused := eliminated.unused
    refine ⟨eliminated.product, ?_, eliminated.sorted, eliminated.nodup, ?_⟩
    · intro r member processedCol columnMember
      rcases List.mem_cons.mp columnMember with rfl | columnMember
      · exact findPivot_none found member
      · exact eliminated.cleared r member _ columnMember
    · rw [List.length_cons]
      dsimp only
      omega

theorem Eliminated.columns {columns processed : List (Fin m)}
    (eliminated : Eliminated gamma delta processed state) :
    Eliminated gamma delta (columns.reverse ++ processed)
      (columns.foldl eliminateColumn state) := by
  induction columns generalizing processed state with
  | nil => exact eliminated
  | cons col columns induction =>
    rw [List.foldl_cons, List.reverse_cons, List.append_assoc]
    exact induction (eliminated.column col)

theorem computeEliminationStep_eliminated (gamma : Fin (n + m) → Nat) (delta : Discrepancy m n) :
    Eliminated gamma delta ((List.finRange m).reverse ++ []) (computeEliminationStep gamma delta) :=
  (Eliminated.start gamma delta).columns

/-! ## Degrees of the combined rows -/

def PivotsOrdered (gamma : Fin (n + m) → Nat) : List (Fin m) → EliminationState m n → Prop
  | [], _ => True
  | col :: columns, state =>
    (∀ pivotRow, state.findPivot col = some pivotRow →
      ∀ r, r ∉ state.pOrd → state.Reduces pivotRow col r → gamma pivotRow ≤ gamma r) ∧
    PivotsOrdered gamma columns (eliminateColumn state col)

def Graded (gamma : Fin (n + m) → Nat) (tau : Coefficient m n) : Prop :=
  ∀ r l, tau r l = 1 → gamma l ≤ gamma r

theorem graded_one (gamma : Fin (n + m) → Nat) : Graded gamma (1 : Coefficient m n) := by
  intro r l one
  by_cases same : r = l
  · rw [same]
  · rw [Matrix.one_apply_ne same] at one
    exact absurd one (by decide)

theorem Graded.eliminate (graded : Graded gamma state.tau)
    (ordered : ∀ r, state.Reduces pivotRow col r → gamma pivotRow ≤ gamma r) :
    Graded gamma (state.eliminate pivotRow col).tau := by
  intro r l one
  by_cases reduces : state.Reduces pivotRow col r
  · simp only [EliminationState.eliminate, if_pos reduces, Pi.add_apply] at one
    by_cases own : state.tau r l = 1
    · exact graded r l own
    · rw [eq_zero_of_ne_one own, zero_add] at one
      exact (graded pivotRow l one).trans (ordered r reduces)
  · simp only [EliminationState.eliminate, if_neg reduces] at one
    exact graded r l one

theorem Graded.columns {columns processed : List (Fin m)} (graded : Graded gamma state.tau)
    (eliminated : Eliminated gamma delta processed state)
    (ordered : PivotsOrdered gamma columns state) :
    Graded gamma (columns.foldl eliminateColumn state).tau := by
  induction columns generalizing processed state with
  | nil => exact graded
  | cons col columns induction =>
    rw [List.foldl_cons]
    apply induction _ (eliminated.column col) ordered.2
    unfold eliminateColumn
    cases found : state.findPivot col with
    | none => exact graded
    | some pivotRow =>
      apply graded.eliminate
      intro r reduces
      by_cases member : r ∈ state.pOrd
      · exact findPivot_le found eliminated.sorted member reduces.2
      · exact ordered.1 pivotRow found r member reduces

/-! ## The shifts -/

private theorem shiftOrder_perm (gamma : Fin (n + m) → Nat) (reducedDelta : Discrepancy m n) :
    (shiftOrder gamma reducedDelta).Perm (List.finRange (n + m)) := by
  unfold shiftOrder
  have split := List.filter_append_perm (fun r => decide (reducedDelta r ≠ 0))
    (List.finRange (n + m))
  simp only [decide_not, Bool.not_not] at split
  simpa using ((sortByGamma_perm gamma _).append_left _).trans split

theorem card_computeShiftVector (gamma : Fin (n + m) → Nat) (reducedDelta : Discrepancy m n) :
    (Finset.univ.filter fun r => computeShiftVector gamma reducedDelta r).card = m := by
  have perm := shiftOrder_perm gamma reducedDelta
  have distinct : ((shiftOrder gamma reducedDelta).take m).Nodup :=
    (perm.nodup_iff.mpr (List.nodup_finRange _)).sublist (List.take_sublist _ _)
  have members : (Finset.univ.filter fun r => computeShiftVector gamma reducedDelta r) =
      ((shiftOrder gamma reducedDelta).take m).toFinset := by
    ext r
    simp [computeShiftVector]
  rw [members, List.toFinset_card_of_nodup distinct, List.length_take, perm.length_eq,
    List.length_finRange]
  omega

/-- Rows that are left with a discrepancy are shifted, as there are at most `m`. -/
theorem computeShiftVector_of_ne_zero {reducedDelta : Discrepancy m n}
    (few : ((List.finRange (n + m)).filter fun r => reducedDelta r ≠ 0).length ≤ m)
    {r : Fin (n + m)} (nonZero : reducedDelta r ≠ 0) :
    computeShiftVector gamma reducedDelta r = true := by
  rw [computeShiftVector, shiftOrder, List.take_append, List.take_of_length_le few]
  simp [nonZero]

theorem Eliminated.few {columns : List (Fin m)} (eliminated : Eliminated gamma delta columns state)
    (all : ∀ col, col ∈ columns) (count : columns.length = m) :
    ((List.finRange (n + m)).filter fun r => state.reducedDelta r ≠ 0).length ≤ m := by
  have disjoint : (state.pOrd ++
      (List.finRange (n + m)).filter fun r => state.reducedDelta r ≠ 0).Nodup := by
    rw [List.nodup_append]
    refine ⟨eliminated.nodup, (List.nodup_finRange _).filter _, ?_⟩
    rintro unused member _ other rfl
    have nonZero : state.reducedDelta unused ≠ 0 := by simpa using other
    apply nonZero
    funext col
    exact eliminated.cleared unused member col (all col)
  have bound := disjoint.length_le_card
  have unused := eliminated.unused
  rw [List.length_append, Fintype.card_fin] at bound
  omega

/-! ## Rows of the generator -/

def rowOf (F : List (Coefficient m n)) (r : Fin (n + m)) (k : Nat) : Fin (n + m) → ZMod 2 :=
  F.getD k 0 r

def pairTerm (S : List (Term m n)) (i : Nat) : (Fin (n + m) → ZMod 2) →+ (Fin m → ZMod 2) where
  toFun := fun v c => ∑ l : Fin n, v (Fin.castAdd m l) * S.getD i 0 c l
  map_zero' := by
    funext c
    simp
  map_add' := by
    intro left right
    funext c
    simp only [Pi.add_apply, add_mul, Finset.sum_add_distrib]

theorem computeDiscrepancy_eq (F : List (Coefficient m n)) (S : List (Term m n)) (t : Nat)
    (r : Fin (n + m)) :
    computeDiscrepancy F S t r = Approximant.residual (pairTerm S) (rowOf F r) t := by
  have beyond : ∀ k, F.length ≤ k → pairTerm S (t - k) (rowOf F r k) = 0 := by
    intro k above
    have zero : rowOf F r k = 0 := by
      rw [rowOf, List.getD_eq_default _ _ above]
      rfl
    rw [zero, map_zero]
  have indices : (Finset.range F.length).filter (· ≤ t) ⊆ Finset.range (t + 1) := by
    intro k member
    have bounds := (Finset.mem_filter.mp member).2
    exact Finset.mem_range.mpr (by omega)
  rw [Approximant.residual, ← Finset.sum_subset indices]
  · funext c
    rw [computeDiscrepancy, Finset.sum_apply, Finset.sum_filter]
    rfl
  · intro k member outside
    apply beyond
    by_contra below
    apply outside
    rw [Finset.mem_range] at member
    rw [Finset.mem_filter, Finset.mem_range]
    omega

private theorem getD_rdropWhile (F : List (Coefficient m n)) (k : Nat) :
    (F.rdropWhile fun mat => decide (mat = 0)).getD k 0 = F.getD k 0 := by
  induction F using List.reverseRecOn with
  | nil => rfl
  | append_singleton F last induction =>
    rw [List.rdropWhile_concat]
    split
    next zero =>
        rw [induction]
        by_cases inside : k < F.length
        · rw [List.getD_append _ _ _ _ inside]
        · rw [List.getD_eq_default _ _ (not_lt.mp inside),
            List.getD_append_right _ _ _ _ (not_lt.mp inside)]
          cases k - F.length with
          | zero => exact (of_decide_eq_true zero).symm
          | succ rest => rfl
    next => rfl

theorem getD_trim (F : List (Coefficient m n)) (k : Nat) : (trim F).getD k 0 = F.getD k 0 := by
  cases F with
  | nil => rfl
  | cons first rest =>
    rw [trim]
    cases k with
    | zero => rfl
    | succ k =>
      rw [List.getD_cons_succ, List.getD_cons_succ]
      exact getD_rdropWhile rest k

def sources (tau : Coefficient m n) (r : Fin (n + m)) : Finset (Fin (n + m)) :=
  Finset.univ.filter fun l => tau r l = 1

private theorem mul_row (tau mat : Coefficient m n) (r : Fin (n + m)) :
    (tau * mat) r = ∑ l ∈ sources tau r, mat l := by
  funext c
  have pointwise := Finset.sum_apply c (sources tau r) fun l => (mat l : Fin (n + m) → ZMod 2)
  rw [Matrix.mul_apply]
  refine Eq.trans ?_ pointwise.symm
  rw [sources, Finset.sum_filter]
  apply Finset.sum_congr rfl
  intro l member
  by_cases one : tau r l = 1
  · rw [if_pos one, one, one_mul]
  · rw [if_neg one, eq_zero_of_ne_one one, zero_mul]

/-- The rows after the update: the combined row, times `x` where it is shifted. -/
theorem rowOf_applyUpdate (F : List (Coefficient m n)) (tau : Coefficient m n)
    (willShift : Fin (n + m) → Bool) (r : Fin (n + m)) :
    rowOf (applyUpdate F tau willShift) r =
      if willShift r then shift fun k => ∑ l ∈ sources tau r, rowOf F l k
      else fun k => ∑ l ∈ sources tau r, rowOf F l k := by
  have combined (k : Nat) : ∑ l ∈ sources tau r, rowOf F l k = (tau * F.getD k 0) r :=
    (mul_row tau (F.getD k 0) r).symm
  have beyond (k : Nat) (above : F.length ≤ k) :
      ∑ l ∈ sources tau r, rowOf F l k = 0 := by
    rw [combined, List.getD_eq_default _ _ above, mul_zero]
    rfl
  have updated (k : Nat) : updatedCoefficient F tau willShift k r =
      (if willShift r then shift fun k => ∑ l ∈ sources tau r, rowOf F l k
        else fun k => ∑ l ∈ sources tau r, rowOf F l k) k := by
    unfold updatedCoefficient
    cases willShift r with
    | true =>
      rw [if_pos rfl, if_pos rfl]
      cases k with
      | zero => rfl
      | succ k => exact (combined k).symm
    | false =>
      rw [if_neg (by decide), if_neg (by decide)]
      exact (combined k).symm
  funext k
  rw [rowOf, applyUpdate, getD_trim, ← updated]
  by_cases inside : k < F.length + 1
  · rw [List.getD_eq_getElem _ _ (by rwa [List.length_map, List.length_range]),
      List.getElem_map, List.getElem_range]
  · rw [List.getD_eq_default _ _ (by rw [List.length_map, List.length_range]; omega), updated]
    cases willShift r with
    | true =>
      rw [if_pos rfl]
      cases k with
      | zero => rfl
      | succ k => exact (beyond k (by omega)).symm
    | false =>
      rw [if_neg (by decide)]
      exact (beyond k (by omega)).symm

/-! ## The invariant of the iteration -/

/-- Every row respects its degree bound and annihilates the sequence from there
up to the order `t`. -/
def RowsAnnihilate (S : List (Term m n)) (t : Nat) (state : SolverState m n) : Prop :=
  ∀ r, Annihilates (pairTerm S) (state.gamma r) t (rowOf state.F r)

def IterationOrdered (S : List (Term m n)) (t : Nat) (state : SolverState m n) : Prop :=
  PivotsOrdered state.gamma (List.finRange m)
    (eliminationStart state.gamma (computeDiscrepancy state.F S t))

theorem iterate_gamma_sum (S : List (Term m n)) (t : Nat) (state : SolverState m n) :
    ∑ r, (iterate S t state).gamma r = ∑ r, state.gamma r + m := by
  unfold iterate
  dsimp only
  generalize (computeEliminationStep _ _).reducedDelta = reducedDelta
  have split (r : Fin (n + m)) :
      (if computeShiftVector state.gamma reducedDelta r then state.gamma r + 1 else state.gamma r) =
      state.gamma r + if computeShiftVector state.gamma reducedDelta r then 1 else 0 := by
    split
    next => rfl
    next => rfl
  rw [Finset.sum_congr rfl fun r _ => split r, Finset.sum_add_distrib, ← Finset.card_filter,
    card_computeShiftVector]

theorem RowsAnnihilate.iterate {S : List (Term m n)} {t : Nat} {state : SolverState m n}
    (rows : RowsAnnihilate S t state) (ordered : IterationOrdered S t state) :
    RowsAnnihilate S (t + 1) (iterate S t state) := by
  have eliminated := computeEliminationStep_eliminated state.gamma
    (computeDiscrepancy state.F S t)
  have graded : Graded state.gamma (computeEliminationStep state.gamma
      (computeDiscrepancy state.F S t)).tau :=
    (graded_one state.gamma).columns (Eliminated.start state.gamma _) ordered
  have few := eliminated.few (by simp) (by simp)
  intro r
  unfold Lingen.iterate
  dsimp only
  generalize computeEliminationStep state.gamma (computeDiscrepancy state.F S t) = step at *
  have combined : Annihilates (pairTerm S) (state.gamma r) t
      fun k => ∑ l ∈ sources step.tau r, rowOf state.F l k := by
    apply Annihilates.sum fun l _ => rows l
    intro l member
    exact graded r l (Finset.mem_filter.mp member).2
  rw [rowOf_applyUpdate]
  cases shifted : computeShiftVector state.gamma step.reducedDelta r with
  | true => exact combined.shift
  | false =>
    apply combined.advance
    have zero : step.reducedDelta r = 0 := by
      by_contra nonZero
      rw [computeShiftVector_of_ne_zero few nonZero] at shifted
      cases shifted
    rw [residual_sum, ← zero]
    funext c
    rw [eliminated.product, Finset.sum_apply, sources, Finset.sum_filter]
    apply Finset.sum_congr rfl
    intro l _
    rw [← computeDiscrepancy_eq]
    by_cases one : step.tau r l = 1
    · rw [if_pos one, one, one_mul]
    · rw [if_neg one, eq_zero_of_ne_one one, zero_mul]

theorem rowsAnnihilate_start (S : List (Term m n)) (init : InitResult n) :
    RowsAnnihilate S init.t0 (buildFInit init) := by
  intro r
  constructor
  · intro k above
    have outside : ((List.range (init.t0 + 1)).map
        (initCoefficient (m := m) init)).length ≤ k := by
      rw [List.length_map, List.length_range]
      exact above
    rw [rowOf, buildFInit, List.getD_eq_default _ _ outside]
    rfl
  · intro s lower upper
    exact absurd upper (not_lt.mpr lower)

/-! ## Runs -/

/-- Row `r` has degree at most `gamma_r`, and `F_r(x) * S^T(x)` has no terms from
`x ^ gamma_r` up to `x ^ t`. -/
structure GeneratorLaw (S : List (Term m n)) (t : Nat) (state : SolverState m n) : Prop where
  degree : ∀ r k, state.gamma r < k → rowOf state.F r k = 0
  annihilates : ∀ r s, state.gamma r ≤ s → s < t → computeDiscrepancy state.F S s r = 0

theorem RowsAnnihilate.generatorLaw {S : List (Term m n)} {t : Nat} {state : SolverState m n}
    (rows : RowsAnnihilate S t state) : GeneratorLaw S t state where
  degree := fun r => (rows r).above
  annihilates := by
    intro r s lower upper
    rw [computeDiscrepancy_eq]
    exact (rows r).vanishes s lower upper

private theorem rowsAnnihilate_solveSteps (S : List (Term m n)) {steps : Nat}
    (ordered : ∀ earlier < steps,
      IterationOrdered S ((findInitializationBasis S).t0 + earlier) (solveSteps S earlier)) :
    RowsAnnihilate S ((findInitializationBasis S).t0 + steps) (solveSteps S steps) := by
  induction steps with
  | zero => exact rowsAnnihilate_start S _
  | succ steps induction =>
    have before := induction fun earlier below => ordered earlier (below.trans steps.lt_succ_self)
    exact before.iterate (ordered steps steps.lt_succ_self)

/-- In a run whose eliminations order their pivots the generator law holds at
every iteration; the bounds grow by `m` in every iteration of every run. -/
theorem solveSteps_generatorLaw (S : List (Term m n)) (steps : Nat) : ((∀ earlier < steps,
        IterationOrdered S ((findInitializationBasis S).t0 + earlier) (solveSteps S earlier)) →
      GeneratorLaw S ((findInitializationBasis S).t0 + steps) (solveSteps S steps)) ∧
    ∑ r, (solveSteps S (steps + 1)).gamma r = ∑ r, (solveSteps S steps).gamma r + m := by
  constructor
  · intro ordered
    exact (rowsAnnihilate_solveSteps S ordered).generatorLaw
  · exact iterate_gamma_sum S _ _

instance decidablePivotsOrdered (gamma : Fin (n + m) → Nat) :
    ∀ (columns : List (Fin m)) (state : EliminationState m n),
      Decidable (PivotsOrdered gamma columns state)
  | [], _ => isTrue trivial
  | col :: columns, state =>
    have := decidablePivotsOrdered gamma columns (eliminateColumn state col)
    inferInstanceAs (Decidable (_ ∧ _))

instance (S : List (Term m n)) (t : Nat) (state : SolverState m n) :
    Decidable (IterationOrdered S t state) :=
  decidablePivotsOrdered _ _ _

def shortSequence : List (Term 2 1) :=
  [!![1; 1], !![0; 1], !![1; 0], !![0; 0]]

theorem shortSequence_init : (findInitializationBasis shortSequence).t0 = 2 ∧
      (findInitializationBasis shortSequence).basisPairs.length = 2 := by
  decide +kernel

theorem solveSteps_generatorLaw_short :
    GeneratorLaw shortSequence 3 (solveSteps shortSequence 1) := by
  have law := (solveSteps_generatorLaw shortSequence 1).1 (by
    intro earlier below
    rw [Nat.lt_one_iff.mp below]
    decide +kernel)
  rwa [shortSequence_init.1] at law

/-- In the second iteration the pivot row of the first column is reduced by a
pivot of a larger bound. -/
theorem not_generatorLaw_short : (findInitializationBasis shortSequence).basisPairs.length = 2 ∧
      ¬GeneratorLaw shortSequence 4 (solveSteps shortSequence 2) := by
  refine ⟨shortSequence_init.2, ?_⟩
  intro law
  have zero := law.annihilates 2 3 (by decide +kernel) (by decide)
  exact absurd zero (by decide +kernel)

end CudaMpqs.Lingen
