import Mathlib.Data.Nat.ChineseRemainder
import Mathlib.Data.ZMod.Basic
import Mathlib.Tactic.Abel

/-! # Sums with chosen signs

The points of a hypercube: one term for each dimension, taken with `+` where the
predicate holds and with `-` elsewhere. -/

namespace CudaMpqs.SignedSum

variable {G H : Type} [AddCommGroup G] [AddCommGroup H]

def signedSum : List G → (Nat → Bool) → G
  | [], _ => 0
  | term :: terms, positive =>
    (if positive 0 then term else -term) + signedSum terms (fun index => positive (index + 1))

theorem map_signedSum (hom : G →+ H) (terms : List G) (positive : Nat → Bool) :
    hom (signedSum terms positive) = signedSum (terms.map hom) positive := by
  induction terms generalizing positive with
  | nil => exact map_zero hom
  | cons term terms induction =>
    simp only [signedSum, List.map_cons, map_add, induction]
    cases positive 0 <;> simp

private theorem signedSum_congr {terms : List G} {left right : Nat → Bool}
    (agree : ∀ index < terms.length, left index = right index) :
    signedSum terms left = signedSum terms right := by
  induction terms generalizing left right with
  | nil => rfl
  | cons term terms induction =>
    have tail : signedSum terms (fun index => left (index + 1)) =
        signedSum terms (fun index => right (index + 1)) := by
      apply induction
      intro index bound
      exact agree (index + 1) (Nat.succ_lt_succ bound)
    rw [signedSum, signedSum, agree 0 (Nat.succ_pos _), tail]

/-- Crossing an edge of the hypercube moves the sum by twice the term. -/
theorem signedSum_flip {terms : List G} {before after : Nat → Bool} {bit : Nat}
    (inside : bit < terms.length) (flipped : after bit = !before bit)
    (others : ∀ index, index ≠ bit → after index = before index) :
    signedSum terms after = signedSum terms before +
      (if after bit then terms[bit] else -terms[bit]) +
      (if after bit then terms[bit] else -terms[bit]) := by
  induction terms generalizing before after bit with
  | nil => exact absurd inside (Nat.not_lt_zero bit)
  | cons term terms induction =>
    cases bit with
    | zero =>
      have tail : signedSum terms (fun index => after (index + 1)) =
          signedSum terms (fun index => before (index + 1)) := by
        apply signedSum_congr
        intro index _
        exact others (index + 1) (Nat.succ_ne_zero index)
      rw [signedSum, signedSum, tail, flipped, List.getElem_cons_zero]
      cases before 0 <;> simp [add_comm]
    | succ bit =>
      have tail := @induction (fun index => before (index + 1))
        (fun index => after (index + 1)) bit
        (Nat.lt_of_succ_lt_succ inside) flipped
        (fun index different => others (index + 1) (by omega))
      rw [signedSum, signedSum, tail, others 0 (Nat.succ_ne_zero bit).symm,
        List.getElem_cons_succ, add_assoc, add_assoc, add_assoc]

private theorem signedSum_of_zero {terms : List G} (zero : ∀ term ∈ terms, term = 0)
    (positive : Nat → Bool) : signedSum terms positive = 0 := by
  induction terms generalizing positive with
  | nil => rfl
  | cons term terms induction =>
    rw [signedSum, zero term List.mem_cons_self, neg_zero, ite_self, zero_add]
    exact induction (fun other member => zero other (List.mem_cons_of_mem _ member)) _

private theorem signedSum_of_single {terms : List G} {index : Nat} (inside : index < terms.length)
    (others : ∀ other (bound : other < terms.length), other ≠ index → terms[other] = 0)
    (positive : Nat → Bool) :
    signedSum terms positive = if positive index then terms[index] else -terms[index] := by
  induction terms generalizing index positive with
  | nil => exact absurd inside (Nat.not_lt_zero index)
  | cons term terms induction =>
    cases index with
    | zero =>
      have tail : ∀ other ∈ terms, other = 0 := by
        intro other member
        rcases List.getElem_of_mem member with ⟨place, bound, rfl⟩
        exact others (place + 1) (Nat.succ_lt_succ bound) (Nat.succ_ne_zero place)
      rw [signedSum, signedSum_of_zero tail, add_zero, List.getElem_cons_zero]
    | succ index =>
      have head : term = 0 := others 0 (Nat.succ_pos _) (Nat.succ_ne_zero index).symm
      rw [signedSum, head, neg_zero, ite_self, zero_add, List.getElem_cons_succ]
      apply induction (Nat.lt_of_succ_lt_succ inside)
      intro other bound different
      exact others (other + 1) (Nat.succ_lt_succ bound) (by omega)

/-- Terms that vanish modulo all moduli but their own, and are square roots of
`N` there, sum to square roots of `N` modulo the product. -/
theorem signedSum_sq_sub_dvd {moduli : List Nat} (coprime : moduli.Pairwise Nat.Coprime)
    {terms : List Int} {N : Int} (lengths : terms.length = moduli.length)
    (others : ∀ i j (bound : i < moduli.length) (inside : j < terms.length), j ≠ i →
      (moduli[i] : Int) ∣ terms[j])
    (squares : ∀ i (bound : i < moduli.length) (inside : i < terms.length),
      (moduli[i] : Int) ∣ terms[i] ^ 2 - N)
    (positive : Nat → Bool) :
    (moduli.prod : Int) ∣ signedSum terms positive ^ 2 - N := by
  rw [Int.natCast_dvd, ← Nat.modEq_zero_iff_dvd, Nat.modEq_list_prod_iff coprime]
  intro i
  rw [Nat.modEq_zero_iff_dvd, ← Int.natCast_dvd, List.get_eq_getElem,
    ← ZMod.intCast_zmod_eq_zero_iff_dvd]
  have inside : i.1 < terms.length := by
    rw [lengths]
    exact i.2
  have reduced : ((signedSum terms positive : Int) : ZMod moduli[i.1]) =
      signedSum (terms.map (Int.castAddHom (ZMod moduli[i.1]))) positive :=
    map_signedSum (Int.castAddHom (ZMod moduli[i.1])) terms positive
  have length : i.1 < (terms.map (Int.castAddHom (ZMod moduli[i.1]))).length := by
    rw [List.length_map]
    exact inside
  have single : signedSum (terms.map (Int.castAddHom (ZMod moduli[i.1]))) positive =
      if positive i.1 then ((terms[i.1] : Int) : ZMod moduli[i.1]) else -terms[i.1] := by
    rw [signedSum_of_single length, List.getElem_map]
    · rfl
    · intro other bound different
      rw [List.length_map] at bound
      rw [List.getElem_map]
      exact (ZMod.intCast_zmod_eq_zero_iff_dvd _ _).mpr
        (others i.1 other i.2 bound different)
  have root := (ZMod.intCast_zmod_eq_zero_iff_dvd _ _).mpr (squares i.1 i.2 inside)
  rw [Int.cast_sub, Int.cast_pow] at root ⊢
  rw [reduced, single]
  cases positive i.1 with
  | false => simpa using root
  | true => simpa using root

end CudaMpqs.SignedSum
