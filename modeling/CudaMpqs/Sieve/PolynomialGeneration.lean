import Mathlib.Data.List.GetD
import Mathlib.Data.Nat.Squarefree
import Mathlib.Tactic.NormNum.Prime
import CudaMpqs.Common.UInt512Product
import CudaMpqs.Foundation.SignedSum
import CudaMpqs.Sieve.ModularInverse

/-! # `a` and the `B` values

The host computes them in `recalc_a`, the device in `generatePolynomialsKernel`,
one thread block for each step of a batch. -/

namespace CudaMpqs

open SignedSum

structure FactorBase (N : UInt512) where
  factorBase : List (BitVec 32)
  rootN : List (BitVec 32)
  prime : ∀ p ∈ factorBase, p.toNat.Prime
  ascending : factorBase.Pairwise fun p q => p.toNat < q.toNat
  root : List.Forall₂ (fun p r => r.toNat ^ 2 ≡ N.toNat [MOD p.toNat]) factorBase rootN

/-! ## The host -/

def prefixProducts : List (BitVec 32) → UInt512 → List UInt512
  | [], _ => []
  | p :: primes, product => product :: prefixProducts primes (product.multUInt32 p)

/-- The loop from the last factor down: every product before a factor is
multiplied by the one behind it. -/
def suffixLoop : List (UInt512 × BitVec 32) → List UInt512 × UInt512
  | [] => ([], UInt512.ofUInt32 1)
  | (result, p) :: rest =>
    let behind := suffixLoop rest
    (result.mult behind.2 :: behind.1, behind.2.multUInt32 p)

def gammaTerm (inv root p : BitVec 32) : BitVec 32 :=
  let gamma := (inv.setWidth 64 * root.setWidth 64 % p.setWidth 64).setWidth 32
  if p >>> 1 < gamma then p - gamma else gamma

def recalcA (factorBase rootN : List (BitVec 32)) (aFactors : List Nat) : UInt512 × List UInt512 :=
  let primes := aFactors.map fun index => factorBase.getD index 0
  let loop := suffixLoop ((prefixProducts primes (UInt512.ofUInt32 1)).zip primes)
  (loop.2, List.zipWith (fun result index =>
    let p := factorBase.getD index 0
    let inv := modInv (result.modUInt32 p) p
    result.multUInt32 (gammaTerm inv (rootN.getD index 0) p)) loop.1 aFactors)

/-! ## The device -/

def reductionDim (shcDim : Nat) : Nat → Nat → Nat
  | 0, rdim => rdim
  | turns + 1, rdim =>
    if rdim < shcDim then reductionDim shcDim turns (rdim <<< 1) else rdim

def foldStep (stride : Nat) (slots : Nat → UInt512) (tid : Nat) : UInt512 :=
  if tid < stride then (slots tid).mult (slots (tid + stride)) else slots tid

def foldSlots : Nat → Nat → (Nat → UInt512) → Nat → UInt512
  | 0, _, slots => slots
  | turns + 1, stride, slots =>
    if 0 < stride then foldSlots turns (stride >>> 1) (foldStep stride slots) else slots

def generatePolynomial (factorBase rootN : List (BitVec 32)) (shcDim : Nat)
    (fbIdx : Nat → Nat) : UInt512 × List UInt512 :=
  let rdim := reductionDim shcDim 32 32
  let leaves := fun tid =>
    if tid < shcDim then UInt512.ofUInt32 (factorBase.getD (fbIdx tid) 0)
    else UInt512.ofUInt32 1
  let a := foldSlots 32 (rdim >>> 1) leaves 0
  (a, (List.range (min 64 shcDim)).map fun tid =>
    let p := factorBase.getD (fbIdx tid) 0
    let r := rootN.getD (fbIdx tid) 0
    let Tk := a.divUInt32Const p
    let rem := Tk.modUInt32 p
    let inv := modInverse (UInt512.ofUInt32 rem) p
    Tk.multUInt32 (gammaTerm inv r p))

def generatePolynomialsKernel (factorBase rootN : List (BitVec 32))
    (numSteps shcDim : Nat) (factorIndicesFlat : List Nat) : List (UInt512 × List UInt512) :=
  (List.range numSteps).map fun stepIdx =>
    generatePolynomial factorBase rootN shcDim fun tid =>
      factorIndicesFlat.getD (stepIdx * shcDim + tid) 0

/-! ## Cofactors -/

def product (primes : List (BitVec 32)) : Nat := (primes.map BitVec.toNat).prod

@[simp] theorem product_nil : product [] = 1 := rfl

@[simp] theorem product_cons (p : BitVec 32) (primes : List (BitVec 32)) :
    product (p :: primes) = p.toNat * product primes := rfl

theorem product_pos {primes : List (BitVec 32)} (positive : ∀ p ∈ primes, 0 < p.toNat) :
    0 < product primes := by
  induction primes with
  | nil => exact Nat.one_pos
  | cons p primes induction =>
    exact Nat.mul_pos (positive p List.mem_cons_self)
      (induction (fun q member => positive q (List.mem_cons_of_mem p member)))

def Cofactor (total : Nat) (T : UInt512) (p : BitVec 32) : Prop :=
  T.toNat * p.toNat = total

theorem Cofactor.unique {total : Nat} {left right : UInt512} {p : BitVec 32}
    (positive : 0 < p.toNat) (leftCofactor : Cofactor total left p)
    (rightCofactor : Cofactor total right p) : left = right := by
  apply UInt512.toNat_injective
  exact Nat.eq_of_mul_eq_mul_right positive (leftCofactor.trans rightCofactor.symm)

/-- The two loops of the host leave the cofactors and the whole product. -/
theorem suffixLoop_spec {primes : List (BitVec 32)} (positive : ∀ p ∈ primes, 0 < p.toNat)
    {leading : UInt512} {total : Nat} (leadingPos : 0 < leading.toNat)
    (total_eq : leading.toNat * product primes = total)
    (fits : total < UInt512.cardinality) :
    let loop := suffixLoop ((prefixProducts primes leading).zip primes)
    loop.2.toNat = product primes ∧ List.Forall₂ (Cofactor total) loop.1 primes := by
  induction primes generalizing leading with
  | nil => exact ⟨rfl, List.Forall₂.nil⟩
  | cons p primes induction =>
    have pPos := positive p List.mem_cons_self
    have restPositive : ∀ q ∈ primes, 0 < q.toNat :=
      fun q member => positive q (List.mem_cons_of_mem p member)
    rw [product_cons, ← Nat.mul_assoc] at total_eq
    have headFits : leading.toNat * p.toNat < UInt512.cardinality := by
      apply Nat.lt_of_le_of_lt _ fits
      rw [← total_eq]
      exact Nat.le_mul_of_pos_right _ (product_pos restPositive)
    have head : (leading.multUInt32 p).toNat = leading.toNat * p.toNat := by
      rw [UInt512.toNat_multUInt32, Nat.mod_eq_of_lt headFits]
    have headPos : 0 < (leading.multUInt32 p).toNat := by
      rw [head]
      exact Nat.mul_pos leadingPos pPos
    have rest_eq : (leading.multUInt32 p).toNat * product primes = total := by
      rw [head]
      exact total_eq
    rcases induction restPositive headPos rest_eq with ⟨suffix, cofactors⟩
    rw [prefixProducts, List.zip_cons_cons, suffixLoop]
    have cofactor : leading.toNat * product primes * p.toNat = total := by
      rw [Nat.mul_right_comm]
      exact total_eq
    have cofactorFits : leading.toNat * product primes < UInt512.cardinality := by
      apply Nat.lt_of_le_of_lt _ fits
      rw [← cofactor]
      exact Nat.le_mul_of_pos_right _ pPos
    have productFits : product primes * p.toNat < UInt512.cardinality := by
      apply Nat.lt_of_le_of_lt _ fits
      rw [← cofactor, Nat.mul_assoc]
      exact Nat.le_mul_of_pos_left _ leadingPos
    refine ⟨?_, List.Forall₂.cons ?_ cofactors⟩
    · rw [UInt512.toNat_multUInt32, suffix, Nat.mod_eq_of_lt productFits, product_cons,
        Nat.mul_comm]
    · rw [Cofactor, UInt512.toNat_mult, suffix, Nat.mod_eq_of_lt cofactorFits]
      exact cofactor

/-! ## The product tree -/

def slotProduct (slots : Nat → UInt512) (count : Nat) : Nat :=
  ∏ tid ∈ Finset.range count, (slots tid).toNat

theorem slotProduct_foldStep (level : Nat) (slots : Nat → UInt512) :
    slotProduct (foldStep (2 ^ level) slots) (2 ^ level) ≡ slotProduct slots (2 ^ (level + 1))
      [MOD UInt512.cardinality] := by
  rw [pow_succ, Nat.mul_two, slotProduct, slotProduct, Finset.prod_range_add,
    ← Finset.prod_mul_distrib, Nat.ModEq, Finset.prod_nat_mod,
    Finset.prod_nat_mod (Finset.range (2 ^ level)) _
      (fun tid => (slots tid).toNat * (slots (2 ^ level + tid)).toNat)]
  congr 1
  apply Finset.prod_congr rfl
  intro tid member
  rw [foldStep, if_pos (Finset.mem_range.mp member), UInt512.toNat_mult,
    Nat.add_comm (2 ^ level), Nat.mod_mod]

private theorem foldSlots_zero (turns : Nat) (slots : Nat → UInt512) :
    foldSlots turns 0 slots = slots := by
  cases turns with
  | zero => rfl
  | succ turns => rfl

theorem foldSlots_modEq (level turns : Nat) (enough : level < turns) (slots : Nat → UInt512) :
    (foldSlots turns (2 ^ level) slots 0).toNat ≡ slotProduct slots (2 ^ (level + 1))
      [MOD UInt512.cardinality] := by
  have folded := slotProduct_foldStep level slots
  induction level generalizing turns slots with
  | zero =>
    cases turns with
    | zero => exact absurd enough (Nat.not_lt_zero 0)
    | succ turns =>
      have spent : foldSlots turns (2 ^ 0 >>> 1) (foldStep (2 ^ 0) slots) =
          foldStep (2 ^ 0) slots := foldSlots_zero turns _
      rw [foldSlots, if_pos (Nat.two_pow_pos 0), spent]
      rw [slotProduct, Nat.pow_zero, Finset.prod_range_one] at folded
      exact folded
  | succ level previous =>
    cases turns with
    | zero => exact absurd enough (Nat.not_lt_zero _)
    | succ turns =>
      have half : 2 ^ (level + 1) >>> 1 = 2 ^ level := by
        rw [Nat.shiftRight_one, pow_succ, Nat.mul_div_cancel _ Nat.two_pos]
      rw [foldSlots, if_pos (Nat.two_pow_pos _), half]
      have next := previous turns (Nat.lt_of_succ_lt_succ enough)
        (foldStep (2 ^ (level + 1)) slots) (slotProduct_foldStep level _)
      exact next.trans folded

theorem reductionDim_spec {shcDim : Nat} (few : shcDim ≤ 64) :
    ∃ level < 31, reductionDim shcDim 32 32 = 2 ^ (level + 1) ∧ shcDim ≤ 2 ^ (level + 1) := by
  rcases Nat.lt_or_ge 32 shcDim with large | small
  · refine ⟨5, by decide, ?_, few⟩
    rw [reductionDim, if_pos large, reductionDim]
    exact if_neg (Nat.not_lt.mpr few)
  · refine ⟨4, by decide, ?_, small⟩
    rw [reductionDim]
    exact if_neg (Nat.not_lt.mpr small)

private theorem slotProduct_leaves (primes : List (BitVec 32)) (padding : Nat)
    {slots : Nat → UInt512}
    (used : ∀ tid < primes.length, slots tid = UInt512.ofUInt32 (primes.getD tid 0))
    (padded : ∀ tid, primes.length ≤ tid → slots tid = UInt512.ofUInt32 1) :
    slotProduct slots (primes.length + padding) = product primes := by
  have ones : ∏ tid ∈ Finset.range padding, (slots (primes.length + tid)).toNat = 1 := by
    apply Finset.prod_eq_one
    intro tid _
    rw [padded _ (Nat.le_add_right _ _)]
    rfl
  rw [slotProduct, Finset.prod_range_add, ones, Nat.mul_one]
  clear ones padded
  induction primes generalizing slots with
  | nil => rfl
  | cons p primes induction =>
    have rest := @induction (fun tid => slots (tid + 1))
      (fun tid bound => used (tid + 1) (Nat.succ_lt_succ bound))
    rw [List.length_cons, Finset.prod_range_succ', rest, used 0 (Nat.succ_pos _),
      product_cons, UInt512.toNat_ofUInt32, Nat.mul_comm]
    rfl

theorem foldSlots_product {primes : List (BitVec 32)} {shcDim : Nat}
    (size : primes.length = shcDim) (few : shcDim ≤ 64)
    (fits : product primes < UInt512.cardinality) {slots : Nat → UInt512}
    (used : ∀ tid < shcDim, slots tid = UInt512.ofUInt32 (primes.getD tid 0))
    (padded : ∀ tid, shcDim ≤ tid → slots tid = UInt512.ofUInt32 1) :
    (foldSlots 32 (reductionDim shcDim 32 32 >>> 1) slots 0).toNat = product primes := by
  rw [← size] at used padded few ⊢
  rcases reductionDim_spec few with ⟨level, bound, rdim, covers⟩
  have half : 2 ^ (level + 1) >>> 1 = 2 ^ level := by
    rw [Nat.shiftRight_one, pow_succ, Nat.mul_div_cancel _ Nat.two_pos]
  have leaves := slotProduct_leaves primes (2 ^ (level + 1) - primes.length) used padded
  rw [Nat.add_sub_cancel' covers] at leaves
  have folded := foldSlots_modEq level 32 (by omega) slots
  rw [leaves] at folded
  rw [rdim, half]
  exact Nat.ModEq.eq_of_lt_of_lt folded (UInt512.toNat_lt _) fits

/-! ## The `B` values -/

theorem gammaTerm_residue {p inv : BitVec 32} (root : BitVec 32) {inverse : ZMod p.toNat}
    (residue : Residue p inv inverse) :
    (gammaTerm inv root p).toNat ≤ p.toNat / 2 ∧
      (((gammaTerm inv root p).toNat : ZMod p.toNat) = inverse * root.toNat ∨
        ((gammaTerm inv root p).toNat : ZMod p.toNat) = -(inverse * root.toNat)) := by
  have positive : 0 < p.toNat := Nat.zero_lt_of_lt residue.lt
  have gamma := residue_mul positive inv root
  rw [residue.cast] at gamma
  have bound := gamma.lt
  have shifted : (p >>> 1).toNat = p.toNat / 2 := by
    rw [BitVec.toNat_ushiftRight, Nat.shiftRight_one]
  rw [gammaTerm]
  split
  next large =>
      rw [BitVec.lt_def, shifted] at large
      refine ⟨?_, Or.inr gamma.neg.cast⟩
      rw [BitVec.toNat_sub_of_le bound.le]
      omega
  next small =>
      rw [BitVec.lt_def, shifted, Nat.not_lt] at small
      exact ⟨small, Or.inl gamma.cast⟩

/-- What both sides compute from a cofactor: the inverses agree. -/
theorem inverse_agree {p : BitVec 32} (prime : p.toNat.Prime) {T : UInt512}
    (coprime : ¬ p.toNat ∣ T.toNat) :
    modInverse (UInt512.ofUInt32 (T.modUInt32 p)) p = modInv (T.modUInt32 p) p ∧
      Inverse p (modInv (T.modUInt32 p) p) T.toNat := by
  have nonzero : p ≠ 0 := by
    intro zero
    rw [zero] at prime
    exact Nat.not_prime_zero prime
  have reduced := T.toNat_modUInt32 nonzero
  have cast : ((T.modUInt32 p).toNat : ZMod p.toNat) = T.toNat := by
    rw [reduced, ZMod.natCast_mod]
  have coprime' : ¬ p.toNat ∣ (T.modUInt32 p).toNat := by
    rw [reduced, Nat.dvd_mod_iff (dvd_refl _)]
    exact coprime
  have host := modInv_inverse prime coprime'
  have device := @modInverse_inverse (UInt512.ofUInt32 (T.modUInt32 p)) p prime
    (by rw [UInt512.toNat_ofUInt32]; exact coprime')
  rw [UInt512.toNat_ofUInt32] at device
  rw [cast] at host device
  exact ⟨device.unique host, host⟩

/-- One `B` value: a square root of `N` modulo its own prime. -/
theorem bValue_spec {N total : Nat} {p root : BitVec 32} {T : UInt512}
    (prime : p.toNat.Prime) (square : root.toNat ^ 2 ≡ N [MOD p.toNat])
    (cofactor : Cofactor total T p) (coprime : ¬ p.toNat ∣ T.toNat)
    (fits : total < UInt512.cardinality) :
    let B := T.multUInt32 (gammaTerm (modInv (T.modUInt32 p) p) root p)
    B.toNat ≤ total / 2 ∧ T.toNat ∣ B.toNat ∧ (p.toNat : Int) ∣ (B.toNat : Int) ^ 2 - N := by
  rcases (inverse_agree prime coprime).2 with ⟨inverse, residue, one⟩
  rcases gammaTerm_residue root residue with ⟨half, cast⟩
  generalize gammaTerm (modInv (T.modUInt32 p) p) root p = gamma at half cast ⊢
  intro B
  have bound : T.toNat * gamma.toNat ≤ total / 2 := by
    rw [Nat.le_div_iff_mul_le Nat.two_pos, Nat.mul_assoc, ← cofactor]
    exact Nat.mul_le_mul_left _ (by omega)
  have value : B.toNat = T.toNat * gamma.toNat := by
    have small : T.toNat * gamma.toNat < UInt512.cardinality := by omega
    rw [UInt512.toNat_multUInt32, Nat.mod_eq_of_lt small]
  refine ⟨value ▸ bound, value ▸ Nat.dvd_mul_right _ _, ?_⟩
  have squareCast := (ZMod.natCast_eq_natCast_iff _ _ _).mpr square
  rw [Nat.cast_pow] at squareCast
  rw [← ZMod.intCast_zmod_eq_zero_iff_dvd, Int.cast_sub, Int.cast_pow, Int.cast_natCast,
    Int.cast_natCast, value, Nat.cast_mul, ← squareCast, sub_eq_zero, mul_pow]
  have square_gamma : (gamma.toNat : ZMod p.toNat) ^ 2 = (inverse * root.toNat) ^ 2 := by
    rcases cast with plus | minus
    · rw [plus]
    · rw [minus, neg_sq]
  calc (T.toNat : ZMod p.toNat) ^ 2 * (gamma.toNat : ZMod p.toNat) ^ 2
      = (inverse * T.toNat) ^ 2 * (root.toNat : ZMod p.toNat) ^ 2 := by
        rw [square_gamma]
        ring
    _ = (root.toNat : ZMod p.toNat) ^ 2 := by rw [one, one_pow, one_mul]

/-! ## A selection of factors -/

structure Selection {N : UInt512} (base : FactorBase N) (shcDim : Nat)
    (indices : List Nat) : Prop where
  length : indices.length = shcDim
  distinct : indices.Nodup
  inside : ∀ index ∈ indices, index < base.factorBase.length
  fits : product (indices.map fun index => base.factorBase.getD index 0) < UInt512.cardinality

section Selected

variable {N : UInt512} {base : FactorBase N} {shcDim : Nat} {indices : List Nat}

theorem FactorBase.getD_lt (base : FactorBase N) {i j : Nat} (order : i < j)
    (inside : j < base.factorBase.length) :
    (base.factorBase.getD i 0).toNat < (base.factorBase.getD j 0).toNat := by
  rw [List.getD_eq_getElem _ _ (order.trans inside), List.getD_eq_getElem _ _ inside]
  exact List.pairwise_iff_getElem.mp base.ascending i j _ inside order

theorem FactorBase.getD_prime (base : FactorBase N) {i : Nat}
    (inside : i < base.factorBase.length) : (base.factorBase.getD i 0).toNat.Prime := by
  rw [List.getD_eq_getElem _ _ inside]
  exact base.prime _ (List.getElem_mem inside)

theorem FactorBase.getD_root (base : FactorBase N) {i : Nat} (inside : i < base.factorBase.length) :
    (base.rootN.getD i 0).toNat ^ 2 ≡ N.toNat [MOD (base.factorBase.getD i 0).toNat] := by
  have bound : i < base.rootN.length := by
    rw [← base.root.length_eq]
    exact inside
  rw [List.getD_eq_getElem _ _ inside, List.getD_eq_getElem _ _ bound]
  exact base.root.get inside bound

theorem FactorBase.getD_coprime (base : FactorBase N) {i j : Nat} (different : i ≠ j)
    (iInside : i < base.factorBase.length) (jInside : j < base.factorBase.length) :
    Nat.Coprime (base.factorBase.getD i 0).toNat (base.factorBase.getD j 0).toNat := by
  rw [Nat.coprime_primes (base.getD_prime iInside) (base.getD_prime jInside)]
  rcases Nat.lt_or_gt_of_ne different with below | above
  · exact (base.getD_lt below jInside).ne
  · exact (base.getD_lt above iInside).ne'

theorem Selection.coprime (selection : Selection base shcDim indices) :
    (indices.map fun index => (base.factorBase.getD index 0).toNat).Pairwise Nat.Coprime := by
  rw [List.pairwise_map]
  apply selection.distinct.imp_of_mem
  intro i j iMember jMember different
  exact base.getD_coprime different (selection.inside i iMember)
    (selection.inside j jMember)

theorem Selection.dvd_product {index : Nat} (member : index ∈ indices) :
    (base.factorBase.getD index 0).toNat ∣
      product (indices.map fun index => base.factorBase.getD index 0) := by
  apply List.dvd_prod
  rw [List.map_map]
  exact List.mem_map.mpr ⟨index, member, rfl⟩

theorem squarefree_product {primes : List (BitVec 32)} (prime : ∀ p ∈ primes, p.toNat.Prime)
    (coprime : (primes.map BitVec.toNat).Pairwise Nat.Coprime) :
    Squarefree (product primes) := by
  induction primes with
  | nil => exact squarefree_one
  | cons p primes induction =>
    rw [List.map_cons, List.pairwise_cons] at coprime
    have apart : Nat.Coprime p.toNat (product primes) :=
      Nat.coprime_list_prod_right_iff.mpr coprime.1
    rw [product_cons, Nat.squarefree_mul apart]
    exact ⟨(prime p List.mem_cons_self).prime.squarefree,
      induction (fun q member => prime q (List.mem_cons_of_mem p member)) coprime.2⟩

theorem Cofactor.not_dvd {total : Nat} {T : UInt512} {p : BitVec 32}
    (cofactor : Cofactor total T p) (prime : p.toNat.Prime) (squarefree : Squarefree total) :
    ¬ p.toNat ∣ T.toNat := by
  intro divides
  have square : p.toNat * p.toNat ∣ total := by
    rw [← cofactor]
    exact Nat.mul_dvd_mul_right divides _
  exact prime.one_lt.ne' (Nat.isUnit_iff.mp (squarefree _ square))

section

variable (selection : Selection base shcDim indices)

include selection

theorem Selection.recalcA_cofactors :
    let primes := indices.map fun index => base.factorBase.getD index 0
    let loop := suffixLoop ((prefixProducts primes (UInt512.ofUInt32 1)).zip primes)
    loop.2.toNat = product primes ∧
      List.Forall₂ (Cofactor (product primes)) loop.1 primes := by
  intro primes
  have positive : ∀ p ∈ primes, 0 < p.toNat := by
    intro p member
    rcases List.mem_map.mp member with ⟨index, indexMember, rfl⟩
    exact (base.getD_prime (selection.inside index indexMember)).pos
  exact suffixLoop_spec positive Nat.one_pos (Nat.one_mul _) selection.fits

theorem Selection.cofactor {index : Nat} (member : index ∈ indices) {T : UInt512}
    (cofactor : Cofactor (product (indices.map fun index => base.factorBase.getD index 0)) T
      (base.factorBase.getD index 0)) : ¬ (base.factorBase.getD index 0).toNat ∣ T.toNat := by
  apply cofactor.not_dvd (base.getD_prime (selection.inside index member))
  apply squarefree_product
  · intro p primeMember
    rcases List.mem_map.mp primeMember with ⟨other, otherMember, rfl⟩
    exact base.getD_prime (selection.inside other otherMember)
  · rw [List.map_map]
    exact selection.coprime

theorem Selection.divided {index : Nat} (member : index ∈ indices) {a : UInt512}
    (whole : a.toNat = product (indices.map fun index => base.factorBase.getD index 0)) :
    Cofactor (product (indices.map fun index => base.factorBase.getD index 0))
      (a.divUInt32Const (base.factorBase.getD index 0)) (base.factorBase.getD index 0) := by
  have prime := base.getD_prime (selection.inside index member)
  have nonzero : base.factorBase.getD index 0 ≠ 0 := by
    intro zero
    rw [zero] at prime
    exact Nat.not_prime_zero prime
  rw [Cofactor, UInt512.toNat_divUInt32Const _ nonzero, whole]
  exact Nat.div_mul_cancel (Selection.dvd_product member)

theorem Selection.reduced (few : shcDim ≤ 64) {fbIdx : Nat → Nat}
    (read : ∀ tid < shcDim, fbIdx tid = indices.getD tid 0) :
    (generatePolynomial base.factorBase base.rootN shcDim fbIdx).1.toNat =
      product (indices.map fun index => base.factorBase.getD index 0) := by
  have size : (indices.map fun index => base.factorBase.getD index 0).length = shcDim := by
    rw [List.length_map, selection.length]
  apply foldSlots_product size few selection.fits
  · intro tid used
    have inside : tid < indices.length := by
      rw [selection.length]
      exact used
    have mapped : tid < (indices.map fun index => base.factorBase.getD index 0).length := by
      rw [size]
      exact used
    rw [if_pos used, read tid used, List.getD_eq_getElem _ _ inside,
      List.getD_eq_getElem _ _ mapped, List.getElem_map]
  · intro tid unused
    exact if_neg (Nat.not_lt.mpr unused)

theorem Selection.generatePolynomial_eq (few : shcDim ≤ 64) {fbIdx : Nat → Nat}
    (read : ∀ tid < shcDim, fbIdx tid = indices.getD tid 0) :
    generatePolynomial base.factorBase base.rootN shcDim fbIdx =
      recalcA base.factorBase base.rootN indices := by
  have length := selection.length
  rcases selection.recalcA_cofactors with ⟨whole, cofactors⟩
  have reduced := selection.reduced few read
  have same : (generatePolynomial base.factorBase base.rootN shcDim fbIdx).1 =
      (recalcA base.factorBase base.rootN indices).1 :=
    UInt512.toNat_injective (reduced.trans whole.symm)
  have sizes := cofactors.length_eq
  rw [List.length_map] at sizes
  refine Prod.ext same (List.ext_getElem ?_ ?_)
  · simp only [generatePolynomial, recalcA, List.length_map, List.length_range,
      List.length_zipWith, sizes]
    omega
  · intro i bound _
    simp only [generatePolynomial, List.length_map, List.length_range] at bound
    have inside : i < indices.length := by omega
    have member := List.getElem_mem inside
    have index : fbIdx i = indices[i] := by
      rw [read i (by omega), List.getD_eq_getElem _ _ inside]
    have prime := base.getD_prime (selection.inside _ member)
    have host := cofactors.get (sizes.symm ▸ inside) (by rw [List.length_map]; exact inside)
    rw [List.get_eq_getElem, List.get_eq_getElem, List.getElem_map] at host
    have device := selection.divided member reduced
    have T := device.unique prime.pos host
    have inverses := (inverse_agree prime (selection.cofactor member host)).1
    rw [← T] at inverses
    simp only [generatePolynomial, recalcA, List.getElem_map, List.getElem_range,
      List.getElem_zipWith, index]
    rw [generatePolynomial] at inverses T
    rw [inverses, T]

end

theorem getD_flatten {vectors : List (List Nat)}
    (lengths : ∀ vector ∈ vectors, vector.length = shcDim) {step tid : Nat}
    (inside : step < vectors.length) (bound : tid < shcDim) :
    vectors.flatten.getD (step * shcDim + tid) 0 = vectors[step].getD tid 0 := by
  induction vectors generalizing step with
  | nil => exact absurd inside (Nat.not_lt_zero step)
  | cons vector vectors induction =>
    have length := lengths vector List.mem_cons_self
    rw [List.flatten_cons]
    cases step with
    | zero =>
      rw [Nat.zero_mul, Nat.zero_add, List.getElem_cons_zero]
      exact List.getD_append _ _ _ _ (length ▸ bound)
    | succ step =>
      have place : (step + 1) * shcDim + tid - vector.length = step * shcDim + tid := by
        rw [length, Nat.succ_mul]
        omega
      rw [List.getElem_cons_succ, List.getD_append_right _ _ _ _
        (by rw [length, Nat.succ_mul]; omega), place]
      exact induction (fun other member => lengths other (List.mem_cons_of_mem _ member))
        (Nat.lt_of_succ_lt_succ inside)

theorem Selection.recalcA_length (selection : Selection base shcDim indices) :
    (recalcA base.factorBase base.rootN indices).2.length = indices.length := by
  have sizes := selection.recalcA_cofactors.2.length_eq
  rw [List.length_map] at sizes
  simp only [recalcA, List.length_zipWith, sizes, Nat.min_self]

/-- One `B` value: a multiple of its cofactor and a root modulo its prime. -/
theorem Selection.bValue (selection : Selection base shcDim indices) {i : Nat}
    (inside : i < indices.length)
    (bound : i < (recalcA base.factorBase base.rootN indices).2.length) :
    let total := product (indices.map fun index => base.factorBase.getD index 0)
    let p := base.factorBase.getD indices[i] 0
    let B := (recalcA base.factorBase base.rootN indices).2[i]
    B.toNat ≤ total / 2 ∧ (p.toNat : Int) ∣ (B.toNat : Int) ^ 2 - N.toNat ∧
      ∃ T, Cofactor total T p ∧ T.toNat ∣ B.toNat := by
  intro total p B
  have member := List.getElem_mem inside
  have range := selection.inside _ member
  have cofactors := selection.recalcA_cofactors.2
  have sizes := cofactors.length_eq
  rw [List.length_map] at sizes
  have cofactor := cofactors.get (sizes.symm ▸ inside) (by rw [List.length_map]; exact inside)
  rw [List.get_eq_getElem, List.get_eq_getElem, List.getElem_map] at cofactor
  rcases bValue_spec (base.getD_prime range) (base.getD_root range) cofactor
    (selection.cofactor member cofactor) selection.fits with ⟨half, multiple, square⟩
  have value : B = _ := List.getElem_zipWith
  rw [value]
  exact ⟨half, square, _, cofactor, multiple⟩

theorem Selection.dvd_cofactor (selection : Selection base shcDim indices) {i j : Nat}
    (iInside : i < indices.length) (jInside : j < indices.length) (different : j ≠ i)
    {T : UInt512}
    (cofactor : Cofactor (product (indices.map fun index => base.factorBase.getD index 0)) T
      (base.factorBase.getD indices[j] 0)) :
    (base.factorBase.getD indices[i] 0).toNat ∣ T.toNat := by
  have distinct : indices[i] ≠ indices[j] := by
    intro equal
    exact different (selection.distinct.getElem_inj_iff.mp equal).symm
  have coprime := base.getD_coprime distinct
    (selection.inside _ (List.getElem_mem iInside))
    (selection.inside _ (List.getElem_mem jInside))
  have divides := @Selection.dvd_product N base indices _ (List.getElem_mem iInside)
  rw [← cofactor] at divides
  exact coprime.dvd_of_dvd_mul_right divides

/-- Every sign pattern of the host's values is a square root of `N` modulo `a`. -/
theorem Selection.recalcA_spec (selection : Selection base shcDim indices) :
    let (a, B) := recalcA base.factorBase base.rootN indices
    a.toNat = product (indices.map fun index => base.factorBase.getD index 0) ∧
      B.length = shcDim ∧ (∀ b ∈ B, b.toNat ≤ a.toNat / 2) ∧
      ∀ positive : Nat → Bool, (a.toNat : Int) ∣
        signedSum (B.map fun b => (b.toNat : Int)) positive ^ 2 - N.toNat := by
  have whole : (recalcA base.factorBase base.rootN indices).1.toNat =
    product (indices.map fun index => base.factorBase.getD index 0) :=
    selection.recalcA_cofactors.1
  have length := selection.recalcA_length
  have values := fun {i} inside bound => @Selection.bValue N base shcDim indices selection i
    inside bound
  generalize recalcA base.factorBase base.rootN indices = computed at whole length values
  rcases computed with ⟨a, B⟩
  dsimp only at whole length values ⊢
  refine ⟨whole, length.trans selection.length, ?_, ?_⟩
  · intro b member
    rcases List.getElem_of_mem member with ⟨i, bound, rfl⟩
    rw [whole]
    exact (values (length ▸ bound) bound).1
  · intro positive
    have moduli : (indices.map fun index => (base.factorBase.getD index 0).toNat).prod =
        a.toNat := by
      rw [whole, product, List.map_map]
      rfl
    rw [← moduli]
    apply signedSum_sq_sub_dvd selection.coprime
    · rw [List.length_map, List.length_map, length]
    · intro i j iBound jBound different
      rw [List.length_map] at iBound jBound
      rcases values (length ▸ jBound) jBound with ⟨_, _, T, cofactor, multiple⟩
      rw [List.getElem_map, List.getElem_map, Int.natCast_dvd_natCast]
      exact (selection.dvd_cofactor iBound (length ▸ jBound) different cofactor).trans multiple
    · intro i iBound jBound
      rw [List.length_map] at iBound jBound
      rw [List.getElem_map, List.getElem_map]
      exact (values iBound jBound).2.1

/-- The launch over a batch computes what the host computes step by step. -/
theorem generatePolynomialsKernel_eq {N : UInt512} (base : FactorBase N) {shcDim : Nat}
    (few : shcDim ≤ 64) {vectors : List (List Nat)}
    (selections : ∀ indices ∈ vectors, Selection base shcDim indices) :
    generatePolynomialsKernel base.factorBase base.rootN vectors.length shcDim
        vectors.flatten = vectors.map (recalcA base.factorBase base.rootN) ∧
      ∀ indices ∈ vectors,
        let (a, B) := recalcA base.factorBase base.rootN indices
        a.toNat = product (indices.map fun index => base.factorBase.getD index 0) ∧
          B.length = shcDim ∧ (∀ b ∈ B, b.toNat ≤ a.toNat / 2) ∧
          ∀ positive : Nat → Bool, (a.toNat : Int) ∣
            signedSum (B.map fun b => (b.toNat : Int)) positive ^ 2 - N.toNat := by
  constructor
  · apply List.ext_getElem
    · rw [generatePolynomialsKernel, List.length_map, List.length_range, List.length_map]
    · intro step bound inside
      rw [List.length_map] at inside
      have selection := selections _ (List.getElem_mem inside)
      rw [List.getElem_map]
      simp only [generatePolynomialsKernel, List.getElem_map, List.getElem_range]
      apply selection.generatePolynomial_eq few
      intro tid used
      exact getD_flatten (fun vector member => (selections vector member).length) inside used
  · intro indices member
    exact (selections indices member).recalcA_spec

end Selected

def tenFactorBase : FactorBase (UInt512.ofUInt32 10) where
  factorBase := [3, 13, 31]
  rootN := [1, 6, 14]
  prime := by
    intro p member
    simp only [List.mem_cons, List.not_mem_nil, or_false] at member
    rcases member with rfl | rfl | rfl
    · exact Nat.prime_three
    · exact (by norm_num : Nat.Prime 13)
    · exact (by norm_num : Nat.Prime 31)
  ascending := by decide
  root := by
    refine .cons ?_ (.cons ?_ (.cons ?_ .nil))
    all_goals decide

private theorem tenFactorBase_selections :
    ∀ indices ∈ [[0, 1], [2, 1]], Selection tenFactorBase 2 indices := by
  intro indices member
  rcases List.mem_cons.mp member with rfl | member
  · exact ⟨rfl, by decide, by decide, UInt512.toNat_lt (UInt512.ofUInt32 39)⟩
  · rw [List.mem_singleton] at member
    rw [member]
    exact ⟨rfl, by decide, by decide, UInt512.toNat_lt (UInt512.ofUInt32 403)⟩

theorem generatePolynomialsKernel_eq_ten :
    generatePolynomialsKernel tenFactorBase.factorBase tenFactorBase.rootN 2 2
        [[0, 1], [2, 1]].flatten =
        [[0, 1], [2, 1]].map (recalcA tenFactorBase.factorBase tenFactorBase.rootN) ∧
      ∀ indices ∈ [[0, 1], [2, 1]],
        let (a, B) := recalcA tenFactorBase.factorBase tenFactorBase.rootN indices
        a.toNat = product (indices.map fun index => tenFactorBase.factorBase.getD index 0) ∧
          B.length = 2 ∧ (∀ b ∈ B, b.toNat ≤ a.toNat / 2) ∧
          ∀ positive : Nat → Bool, (a.toNat : Int) ∣
            signedSum (B.map fun b => (b.toNat : Int)) positive ^ 2 -
              (UInt512.ofUInt32 10).toNat :=
  generatePolynomialsKernel_eq tenFactorBase (by decide) tenFactorBase_selections

end CudaMpqs
