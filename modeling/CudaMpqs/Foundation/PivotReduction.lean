import Mathlib.LinearAlgebra.Finsupp.LinearCombination

/-! # Residues modulo pivot vectors

Each pivot is a coordinate with a vector of its own. A vector that is reduced until it
vanishes on all pivots does not depend on how it was reduced, as long as vectors with the
same span are fully reduced. -/

namespace CudaMpqs.PivotReduction

variable {K ι : Type} [CommRing K]

def spanOn (pivots : Finset ι) (vectors : ι → ι → K) : Submodule K (ι → K) :=
  Submodule.span K (vectors '' pivots)

variable {pivots : Finset ι} {vectors : ι → ι → K} {v w : ι → K}

theorem vector_mem {p : ι} (member : p ∈ pivots) : vectors p ∈ spanOn pivots vectors :=
  Submodule.subset_span ⟨p, member, rfl⟩

structure Residue (pivots : Finset ι) (space : Submodule K (ι → K)) (v w : ι → K) : Prop where
  congruent : v - w ∈ space
  vanishes : ∀ p ∈ pivots, w p = 0

/-! ## Fully reduced vectors -/

structure Reduced (pivots : Finset ι) (vectors : ι → ι → K) : Prop where
  one : ∀ p ∈ pivots, vectors p p = 1
  zero : ∀ p ∈ pivots, ∀ other ∈ pivots, other ≠ p → vectors p other = 0

theorem reduced_empty (vectors : ι → ι → K) : Reduced ∅ vectors where
  one _ member := absurd member (Finset.notMem_empty _)
  zero _ member := absurd member (Finset.notMem_empty _)

theorem Reduced.congr {vectors' : ι → ι → K} (reduced : Reduced pivots vectors)
    (same : ∀ p ∈ pivots, vectors' p = vectors p) : Reduced pivots vectors' where
  one p member := by rw [same p member, reduced.one p member]
  zero p member other isOther different := by
    rw [same p member, reduced.zero p member other isOther different]

theorem spanOn_congr {vectors' : ι → ι → K} (same : ∀ p ∈ pivots, vectors' p = vectors p) :
    spanOn pivots vectors' = spanOn pivots vectors := by
  rw [spanOn, spanOn, Set.image_congr same]

theorem Reduced.combination_apply (reduced : Reduced pivots vectors) (coefficients : ι → K) {p : ι}
    (member : p ∈ pivots) :
    (∑ q ∈ pivots, coefficients q • vectors q) p = coefficients p := by
  rw [Finset.sum_apply, Finset.sum_eq_single_of_mem p member]
  · rw [Pi.smul_apply, reduced.one p member, smul_eq_mul, mul_one]
  · intro q isPivot different
    rw [Pi.smul_apply, reduced.zero q isPivot p member different.symm, smul_zero]

theorem Reduced.eq_zero (reduced : Reduced pivots vectors) (member : v ∈ spanOn pivots vectors)
    (vanishes : ∀ p ∈ pivots, v p = 0) : v = 0 := by
  rcases (Submodule.mem_span_image_finset_iff_exists_fun' K).mp member with ⟨coefficients, rfl⟩
  apply Finset.sum_eq_zero
  intro p isPivot
  have coefficient := reduced.combination_apply coefficients isPivot
  rw [vanishes p isPivot] at coefficient
  rw [← coefficient, zero_smul]

theorem Reduced.residue_unique (reduced : Reduced pivots vectors) {w' : ι → K}
    (residue : Residue pivots (spanOn pivots vectors) v w)
    (residue' : Residue pivots (spanOn pivots vectors) v w') : w = w' := by
  have difference : w - w' ∈ spanOn pivots vectors := by
    have both := Submodule.sub_mem _ residue'.congruent residue.congruent
    rwa [sub_sub_sub_cancel_left] at both
  have zero := reduced.eq_zero difference fun p member => by
    rw [Pi.sub_apply, residue.vanishes p member, residue'.vanishes p member, sub_zero]
  exact sub_eq_zero.mp zero

theorem Reduced.residue (reduced : Reduced pivots vectors) (v : ι → K) :
    Residue pivots (spanOn pivots vectors) v (v - ∑ p ∈ pivots, v p • vectors p) where
  congruent := by
    rw [sub_sub_cancel]
    exact Submodule.sum_mem _ fun p member => Submodule.smul_mem _ _ (vector_mem member)
  vanishes p member := by rw [Pi.sub_apply, reduced.combination_apply v member, sub_self]

section Elimination

variable [DecidableEq ι]

def eliminate (vectors : ι → ι → K) (q : ι) (w : ι → K) (p : ι) : ι → K :=
  if p = q then w else vectors p - vectors p q • w

variable {q : ι}

theorem eliminate_self : eliminate vectors q w q = w := if_pos rfl

theorem eliminate_of_ne {p : ι} (different : p ≠ q) :
    eliminate vectors q w p = vectors p - vectors p q • w := if_neg different

theorem Reduced.eliminate (reduced : Reduced pivots vectors) (vanishes : ∀ p ∈ pivots, w p = 0)
    (leads : w q = 1) : Reduced (insert q pivots) (eliminate vectors q w) where
  one p member := by
    by_cases isNew : p = q
    · rw [isNew, eliminate_self, leads]
    · have old := Finset.mem_of_mem_insert_of_ne member isNew
      rw [eliminate_of_ne isNew, Pi.sub_apply, Pi.smul_apply, vanishes p old, smul_zero, sub_zero,
        reduced.one p old]
  zero p member other isOther different := by
    by_cases isNew : p = q
    · subst isNew
      rw [eliminate_self]
      exact vanishes other (Finset.mem_of_mem_insert_of_ne isOther different)
    · have old := Finset.mem_of_mem_insert_of_ne member isNew
      rw [eliminate_of_ne isNew, Pi.sub_apply, Pi.smul_apply]
      by_cases otherNew : other = q
      · rw [otherNew, leads, smul_eq_mul, mul_one, sub_self]
      · have otherOld := Finset.mem_of_mem_insert_of_ne isOther otherNew
        rw [vanishes other otherOld, smul_zero, sub_zero,
          reduced.zero p old other otherOld different]

theorem spanOn_le_eliminate (fresh : q ∉ pivots) (w : ι → K) :
    spanOn pivots vectors ≤ spanOn (insert q pivots) (PivotReduction.eliminate vectors q w) := by
  refine Submodule.span_le.mpr ?_
  rintro _ ⟨p, member, rfl⟩
  have different : p ≠ q := fun same => fresh (same ▸ member)
  have own := @vector_mem _ _ _ _ (PivotReduction.eliminate vectors q w) p
    (Finset.mem_insert_of_mem member : p ∈ insert q pivots)
  have new := @vector_mem _ _ _ _ (PivotReduction.eliminate vectors q w) q
    (Finset.mem_insert_self q pivots)
  rw [eliminate_of_ne different] at own
  rw [eliminate_self] at new
  have both := Submodule.add_mem _ own (Submodule.smul_mem _ (vectors p q) new)
  rwa [sub_add_cancel] at both

end Elimination

/-! ## Ascending reduction -/

section Ascending

variable [LinearOrder ι]

structure Echelon (pivots : Finset ι) (vectors : ι → ι → K) : Prop where
  one : ∀ p ∈ pivots, vectors p p = 1
  zero : ∀ p ∈ pivots, ∀ earlier < p, vectors p earlier = 0

def clear (vectors : ι → ι → K) (v : ι → K) (p : ι) : ι → K := v - v p • vectors p

/-- Clearing the pivots in ascending order leaves a residue. -/
theorem Echelon.residue_foldl (echelon : Echelon pivots vectors) {space : Submodule K (ι → K)}
    (inside : ∀ p ∈ pivots, vectors p ∈ space) {order : List ι} (ascending : order.Pairwise (· < ·))
    (arePivots : ∀ p ∈ order, p ∈ pivots) (v : ι → K) :
    v - order.foldl (clear vectors) v ∈ space ∧ (∀ p ∈ order, order.foldl (clear vectors) v p = 0) ∧
      ∀ p, (∀ q ∈ order, p < q) → order.foldl (clear vectors) v p = v p := by
  induction order generalizing v with
  | nil =>
    refine ⟨?_, fun p member => absurd member List.not_mem_nil, fun _ _ => rfl⟩
    rw [List.foldl_nil, sub_self]
    exact Submodule.zero_mem _
  | cons q order induction =>
    rcases List.pairwise_cons.mp ascending with ⟨below, rest⟩
    have isPivot := arePivots q List.mem_cons_self
    rcases induction rest (fun p member => arePivots p (List.mem_cons_of_mem _ member))
      (clear vectors v q) with ⟨congruent, vanishes, kept⟩
    rw [List.foldl_cons]
    have first : v - clear vectors v q ∈ space := by
      rw [clear, sub_sub_cancel]
      exact Submodule.smul_mem _ _ (inside q isPivot)
    refine ⟨?_, ?_, ?_⟩
    · have both := Submodule.add_mem _ first congruent
      rwa [sub_add_sub_cancel] at both
    · intro p member
      rcases List.mem_cons.mp member with rfl | later
      · rw [kept p below, clear, Pi.sub_apply, Pi.smul_apply, echelon.one p isPivot, smul_eq_mul,
          mul_one, sub_self]
      · exact vanishes p later
    · intro p before
      rw [kept p fun later member => before later (List.mem_cons_of_mem _ member), clear,
        Pi.sub_apply, Pi.smul_apply, echelon.zero q isPivot p (before q List.mem_cons_self),
        smul_zero, sub_zero]

end Ascending

end CudaMpqs.PivotReduction
