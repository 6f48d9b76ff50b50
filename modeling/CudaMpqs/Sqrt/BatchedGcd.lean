import CudaMpqs.Foundation.CongruentSquares
import CudaMpqs.Sqrt.BatchedSquareRoot
import CudaMpqs.Sqrt.RefinedFactors

/-! # Factors from square roots

`BatchedGCD` of `sqrt_step.cu`: its first kernel compares the two roots of every solution, and
the factors that it finds are refined. -/

namespace CudaMpqs.BatchedGcd

open UInt512 RefineFactors CongruentSquares

/-! ## The kernel -/

/-- The absolute difference; `sub` alone would wrap. -/
def difference (Xj Yj : UInt512) : UInt512 := if Xj.less Yj then Yj.sub Xj else Xj.sub Yj

def compareRoots (N Xj Yj : UInt512) : Option UInt512 × BitVec 32 :=
  let f1 := (difference Xj Yj).gcd N
  if nontrivial N f1 then (some f1, 1)
  else
    let f2 := (Xj.addMod Yj N).gcd N
    if nontrivial N f2 then (some f2, 2) else (none, 0)

structure FactorArrays where
  dFactors : Nat → UInt512
  dFactorStatus : Nat → BitVec 32

def batchedGCDKernel (N : UInt512) (dX dY : Nat → UInt512) (n : Nat) (before : FactorArrays) :
    FactorArrays where
  dFactors j :=
    if j < n then (compareRoots N (dX j) (dY j)).1.getD (before.dFactors j) else before.dFactors j
  dFactorStatus j :=
    if j < n then (compareRoots N (dX j) (dY j)).2 else before.dFactorStatus j

/-! ## The call -/

def withCofactor (N factor : UInt512) : UInt512 × UInt512 := (factor, N.div factor)

def fallback (N : UInt512) (arrays : FactorArrays) (n : Nat) : UInt512 × UInt512 :=
  let multipliesBack (j : Nat) := arrays.dFactorStatus j != 0 &&
    (arrays.dFactors j).mult (N.div (arrays.dFactors j)) == N
  match (List.range n).find? multipliesBack with
  | some j => withCofactor N (arrays.dFactors j)
  | none => (ofUInt32 1, N)

def choose (N : UInt512) (arrays : FactorArrays) (n : Nat) : List UInt512 → UInt512 × UInt512
  | factor :: _ => withCofactor N factor
  | [] => fallback N arrays n

def tooManySolutions (n : Nat) : String :=
  "BatchedGCDKernel: n=" ++ toString n ++ " exceeds CUDA maximum thread count (1024). " ++
    "Block Wiedemann typically produces <=64 solutions — this indicates an unexpected solver state."

/-- What a call may return, from device memory that holds anything. -/
inductive BatchedGCD (N : UInt512) (dX dY : Nat → UInt512) (n : Nat) :
    Except String (UInt512 × UInt512) → Prop
  | tooMany (many : 1024 < n) : BatchedGCD N dX dY n (.error (tooManySolutions n))
  | run {arrays : FactorArrays} (few : n ≤ 1024) (memory : FactorArrays)
      (kernel : arrays = batchedGCDKernel N dX dY n
        ⟨memory.dFactors, BatchedSquareRoot.cudaMemset n 0 memory.dFactorStatus⟩)
      (refined : Run N arrays.dFactors arrays.dFactorStatus n) :
      BatchedGCD N dX dY n (.ok (choose N arrays n refined.dRefined))

/-! ## One solution -/

/-- The roots are neither equal nor opposite modulo `N`, or twice a root has a factor of `N`. -/
def Separates (N X Y : ℕ) : Prop :=
  (¬ X ≡ Y [MOD N] ∧ ¬ N ∣ X + Y) ∨ Proper N ((2 * X).gcd N)

instance (N X Y : ℕ) : Decidable (Separates N X Y) := inferInstanceAs (Decidable (_ ∨ _))

section Solution

variable {N Xj Yj : UInt512}

theorem toNat_gcd_difference : ((difference Xj Yj).gcd N).toNat =
    ((Xj.toNat : ℤ) - Yj.toNat).gcd N.toNat := by
  have apart : (difference Xj Yj).toNat = ((Xj.toNat : ℤ) - Yj.toNat).natAbs := by
    rw [difference]
    split
    · next less =>
        have below := (less_iff _ _).mp less
        rw [toNat_sub_of_le below.le]
        omega
    · next less =>
        have above := (less_eq_false_iff _ _).mp (Bool.not_eq_true _ ▸ less)
        rw [toNat_sub_of_le above]
        omega
  rw [toNat_gcd, apart, Int.gcd, Int.natAbs_natCast]

theorem toNat_gcd_addMod (left : Xj.toNat < N.toNat) (right : Yj.toNat < N.toNat) :
    ((Xj.addMod Yj N).gcd N).toNat = ((Xj.toNat : ℤ) + Yj.toNat).gcd N.toNat := by
  rw [toNat_gcd, toNat_addMod left right, ← Nat.gcd_rec, Nat.gcd_comm, ← Int.natCast_add,
    Int.gcd_natCast_natCast]

theorem nontrivial_iff_proper {factor : UInt512} :
    nontrivial N factor = true ↔ Proper N.toNat factor.toNat :=
  nontrivial_iff

theorem compareRoots_eq (N Xj Yj : UInt512) : compareRoots N Xj Yj =
    if nontrivial N ((difference Xj Yj).gcd N) then (some ((difference Xj Yj).gcd N), 1)
    else if nontrivial N ((Xj.addMod Yj N).gcd N) then (some ((Xj.addMod Yj N).gcd N), 2)
    else (none, 0) := rfl

theorem compareRoots_status_iff : (compareRoots N Xj Yj).2 ≠ 0 ↔
    nontrivial N ((difference Xj Yj).gcd N) = true ∨
      nontrivial N ((Xj.addMod Yj N).gcd N) = true := by
  rw [compareRoots_eq]
  split
  · next first => exact iff_of_true (nofun : (1 : BitVec 32) ≠ 0) (.inl first)
  · next first =>
      split
      · next second => exact iff_of_true (nofun : (2 : BitVec 32) ≠ 0) (.inr second)
      · next second => exact iff_of_false (not_not.mpr rfl) (not_or.mpr ⟨first, second⟩)

/-- A thread reports a factor if and only if its roots separate. -/
theorem compareRoots_status (left : Xj.toNat < N.toNat) (right : Yj.toNat < N.toNat)
    (squares : Xj.toNat ^ 2 ≡ Yj.toNat ^ 2 [MOD N.toNat]) :
    (compareRoots N Xj Yj).2 ≠ 0 ↔ Separates N.toNat Xj.toNat Yj.toNat := by
  have congruent : (N.toNat : ℤ) ∣ (Xj.toNat : ℤ) ^ 2 - (Yj.toNat : ℤ) ^ 2 := by
    have divides := Nat.modEq_iff_dvd.mp squares.symm
    rwa [Nat.cast_pow, Nat.cast_pow] at divides
  have same : (N.toNat : ℤ) ∣ (Xj.toNat : ℤ) - Yj.toNat ↔ Xj.toNat ≡ Yj.toNat [MOD N.toNat] :=
    Nat.modEq_iff_dvd.symm.trans Nat.ModEq.comm
  have opposite : (N.toNat : ℤ) ∣ (Xj.toNat : ℤ) + Yj.toNat ↔ N.toNat ∣ Xj.toNat + Yj.toNat := by
    rw [← Int.natCast_add, Int.natCast_dvd_natCast]
  have double : (2 * (Xj.toNat : ℤ)).gcd N.toNat = (2 * Xj.toNat).gcd N.toNat := by
    rw [← Int.gcd_natCast_natCast, Nat.cast_mul, Nat.cast_ofNat]
  rw [compareRoots_status_iff, nontrivial_iff_proper, nontrivial_iff_proper, toNat_gcd_difference,
    toNat_gcd_addMod left right, proper_gcd_iff congruent, same, opposite, double, Separates]

theorem compareRoots_factor (modulus : 1 < N.toNat) (status : (compareRoots N Xj Yj).2 ≠ 0) :
    ∃ factor, (compareRoots N Xj Yj).1 = some factor ∧ ProperFactor N factor := by
  have proper : ∀ a : UInt512, nontrivial N (a.gcd N) = true → ProperFactor N (a.gcd N) := by
    intro a kept
    have divides : (a.gcd N).toNat ∣ N.toNat := toNat_gcd a N ▸ Nat.gcd_dvd_right _ _
    have positive := Nat.pos_of_dvd_of_pos divides (Nat.zero_lt_of_lt modulus)
    have bound := Nat.le_of_dvd (Nat.zero_lt_of_lt modulus) divides
    rcases nontrivial_iff.mp kept with ⟨more, less⟩
    exact ⟨divides, by omega, by omega⟩
  rw [compareRoots_eq] at status ⊢
  split
  · next first => exact ⟨_, rfl, proper _ first⟩
  · next first =>
      rw [if_neg first] at status
      split
      · next second => exact ⟨_, rfl, proper _ second⟩
      · next second =>
          rw [if_neg second] at status
          exact absurd rfl status

end Solution

/-! ## A batch -/

structure Factorizes (N : UInt512) (found : Prop) (pair : UInt512 × UInt512) : Prop where
  product : pair.1.toNat * pair.2.toNat = N.toNat
  proper : 1 < pair.1.toNat ∧ pair.1.toNat < N.toNat ↔ found

section Batch

variable {N : UInt512} {dX dY : Nat → UInt512} {n : Nat} {before arrays : FactorArrays}

theorem handed_batchedGCDKernel (modulus : 1 < N.toNat) :
    Handed N (batchedGCDKernel N dX dY n before).dFactors
      (batchedGCDKernel N dX dY n before).dFactorStatus n := by
  intro j inside status
  rw [batchedGCDKernel] at status ⊢
  dsimp only at status ⊢
  rw [if_pos inside] at status ⊢
  rcases compareRoots_factor modulus status with ⟨factor, stored, proper⟩
  rw [stored, Option.getD_some]
  exact proper

theorem factorizes_withCofactor {factor : UInt512} {found : Prop} (modulus : 0 < N.toNat)
    (proper : ProperFactor N factor) (holds : found) :
    Factorizes N found (withCofactor N factor) :=
  ⟨toNat_mul_div N modulus proper.divides, iff_of_true ⟨proper.above, proper.below⟩ holds⟩

private theorem factorizes_fallback (modulus : 1 < N.toNat)
    (handed : Handed N arrays.dFactors arrays.dFactorStatus n) :
    Factorizes N (∃ j < n, arrays.dFactorStatus j ≠ 0) (fallback N arrays n) := by
  have positive := Nat.zero_lt_of_lt modulus
  rw [fallback]
  split
  · next j found =>
      have inside := List.mem_range.mp (List.mem_of_find?_eq_some found)
      have tested := List.find?_some found
      have status := bne_iff_ne.mp (Bool.and_eq_true_iff.mp tested).1
      exact factorizes_withCofactor positive (handed j inside status) ⟨j, inside, status⟩
  · next missing =>
      have one : (ofUInt32 1).toNat = 1 := toNat_ofUInt32 1
      refine ⟨by rw [one, Nat.one_mul], iff_of_false (fun proper => ?_) ?_⟩
      · exact absurd proper.1 (by rw [one]; exact Nat.lt_irrefl 1)
      · rintro ⟨j, inside, status⟩
        refine List.find?_eq_none.mp missing j (List.mem_range.mpr inside) ?_
        rw [mult_div N positive (handed j inside status).divides, beq_self_eq_true,
          Bool.and_true, bne_iff_ne]
        exact status

theorem factorizes_choose (modulus : 1 < N.toNat)
    (handed : Handed N arrays.dFactors arrays.dFactorStatus n)
    (refined : Run N arrays.dFactors arrays.dFactorStatus n) :
    Factorizes N (∃ j < n, arrays.dFactorStatus j ≠ 0) (choose N arrays n refined.dRefined) := by
  cases outputs : refined.dRefined with
  | nil => exact factorizes_fallback modulus handed
  | cons factor rest =>
    have member : factor ∈ refined.dRefined := outputs ▸ List.mem_cons_self
    rcases refined.divides_reported handed _ (List.mem_map_of_mem member) with
      ⟨-, _, ⟨j, inside, status, -⟩, -⟩
    exact factorizes_withCofactor (Nat.zero_lt_of_lt modulus)
      ((refined.derived handed).proper factor member) ⟨j, inside, status⟩

private theorem exists_batchedGCD (N : UInt512) (dX dY : Nat → UInt512) (n : Nat) :
    ∃ result, BatchedGCD N dX dY n result := by
  by_cases few : n ≤ 1024
  · rcases @Run.nonempty N _ _ n with ⟨refined⟩
    exact ⟨_, .run few ⟨fun _ => ofUInt32 0, fun _ => 0⟩ rfl refined⟩
  · exact ⟨_, .tooMany (Nat.not_le.mp few)⟩

/-- The call returns a factor and its cofactor, for any modulus of 512 bits. -/
theorem batchedGCD_factorizes (modulus : 1 < N.toNat) (few : n ≤ 1024)
    (residues : ∀ j < n, (dX j).toNat < N.toNat ∧ (dY j).toNat < N.toNat)
    (squares : ∀ j < n, (dX j).toNat ^ 2 ≡ (dY j).toNat ^ 2 [MOD N.toNat]) :
    (∀ before, ∀ j < n, ((batchedGCDKernel N dX dY n before).dFactorStatus j ≠ 0 ↔
      Separates N.toNat (dX j).toNat (dY j).toNat)) ∧
    (∃ result, BatchedGCD N dX dY n result) ∧
    ∀ result, BatchedGCD N dX dY n result → ∃ pair, result = .ok pair ∧
      Factorizes N (∃ j < n, Separates N.toNat (dX j).toNat (dY j).toNat) pair := by
  have status : ∀ before : FactorArrays, ∀ j < n,
      ((batchedGCDKernel N dX dY n before).dFactorStatus j ≠ 0 ↔
        Separates N.toNat (dX j).toNat (dY j).toNat) := by
    intro before j inside
    have stored : (batchedGCDKernel N dX dY n before).dFactorStatus j =
        (compareRoots N (dX j) (dY j)).2 := if_pos inside
    rw [stored]
    exact compareRoots_status (residues j inside).1 (residues j inside).2 (squares j inside)
  refine ⟨status, exists_batchedGCD N dX dY n, ?_⟩
  rintro _ (many | ⟨few, memory, kernel, refined⟩)
  · exact absurd many (Nat.not_lt.mpr few)
  · subst kernel
    have chosen := factorizes_choose modulus (handed_batchedGCDKernel modulus) refined
    refine ⟨_, rfl, chosen.product, chosen.proper.trans ?_⟩
    exact exists_congr fun j => and_congr_right fun inside => status _ j inside

end Batch

/-- A modulus with its top bit set. -/
theorem batchedGCD_mersenne :
    ∃ pair, BatchedGCD (UInt512.ofNat (2 ^ 512 - 1)) (fun _ => UInt512.ofNat (2 ^ 256))
        (fun _ => UInt512.ofNat 1) 1 (.ok pair) ∧
      Factorizes (UInt512.ofNat (2 ^ 512 - 1)) True pair := by
  have modulus : (UInt512.ofNat (2 ^ 512 - 1)).toNat = 2 ^ 512 - 1 := by decide +kernel
  have root : (UInt512.ofNat (2 ^ 256)).toNat = 2 ^ 256 := by decide +kernel
  have one : (UInt512.ofNat 1).toNat = 1 := by decide +kernel
  have separates : Separates (2 ^ 512 - 1) (2 ^ 256) 1 := by decide +kernel
  rcases @batchedGCD_factorizes (UInt512.ofNat (2 ^ 512 - 1)) (fun _ => UInt512.ofNat (2 ^ 256))
      (fun _ => UInt512.ofNat 1) 1 (by rw [modulus]; decide +kernel) (by decide)
      (fun _ _ => by rw [modulus, root, one]; decide +kernel)
      (fun _ _ => by rw [modulus, root, one]; decide +kernel) with ⟨-, ⟨result, returns⟩, splits⟩
  rcases splits result returns with ⟨pair, rfl, factorizes⟩
  refine ⟨pair, returns, factorizes.product, factorizes.proper.trans (iff_true_intro ?_)⟩
  refine ⟨0, Nat.zero_lt_one, ?_⟩
  rw [modulus, root, one]
  exact separates

/-- Two equal roots of nine modulo 15 share a factor with it. -/
theorem batchedGCD_fifteen :
    ¬ ∀ (N : UInt512) (dX dY : Nat → UInt512) (n : Nat), 1 < N.toNat → n ≤ 1024 →
      (∀ j < n, (dX j).toNat < N.toNat ∧ (dY j).toNat < N.toNat) →
      (∀ j < n, (dX j).toNat ^ 2 ≡ (dY j).toNat ^ 2 [MOD N.toNat]) →
      ∀ result, BatchedGCD N dX dY n result → ∃ pair, result = .ok pair ∧
        Factorizes N (∃ j < n, ¬ (dX j).toNat ≡ (dY j).toNat [MOD N.toNat] ∧
          ¬ N.toNat ∣ (dX j).toNat + (dY j).toNat) pair := by
  intro holds
  let N := ofUInt32 15
  let root := fun _ : Nat => ofUInt32 3
  let memory : FactorArrays := ⟨fun _ => ofUInt32 0, fun _ => 0⟩
  let arrays := batchedGCDKernel N root root 1
    ⟨memory.dFactors, BatchedSquareRoot.cudaMemset 1 0 memory.dFactorStatus⟩
  let refined : Run N arrays.dFactors arrays.dFactorStatus 1 :=
    ⟨reporting arrays.dFactorStatus 1, [], List.Perm.refl _, trivial, by decide,
      .inr (by decide +kernel)⟩
  have returns : BatchedGCD N root root 1 (.ok (choose N arrays 1 refined.dRefined)) :=
    .run (by decide) memory rfl refined
  rcases holds N root root 1 (by decide +kernel) (by decide) (fun _ _ => by decide +kernel)
    (fun _ _ => Nat.ModEq.refl _) _ returns with ⟨pair, same, factorizes⟩
  have split : 1 < pair.1.toNat ∧ pair.1.toNat < N.toNat := by
    rw [← Except.ok.inj same]
    decide +kernel
  rcases factorizes.proper.mp split with ⟨j, -, differ, -⟩
  exact differ (Nat.ModEq.refl _)

end CudaMpqs.BatchedGcd
