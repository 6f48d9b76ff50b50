import Mathlib.Algebra.BigOperators.Associated
import Mathlib.Algebra.BigOperators.Group.Finset.Piecewise
import Mathlib.Algebra.Order.BigOperators.Ring.Finset
import Mathlib.Data.Fintype.Powerset
import Mathlib.Data.Nat.GCD.BigOperators
import Mathlib.Data.Nat.Prime.Basic
import CudaMpqs.Foundation.CoprimeBase
import CudaMpqs.Foundation.CrossingSets

/-! # Products of coprime atoms

Numbers that are products of some of a few coprime atoms. One divides another if its atoms are
among the other's, and splitting two numbers cuts their sets of atoms. -/

namespace CudaMpqs.CoprimeBase

open CrossingSets

/-- Where one number divides another, a third one, which does not divide the larger, parts the
primes that the first one parts. -/
def Parted (numbers : Set ℕ) : Prop :=
  ∀ a ∈ numbers, ∀ b ∈ numbers, b ∣ a → b ≠ a → ∀ p q : ℕ, p.Prime → q.Prime →
    p ∣ b → q ∣ a → ¬ q ∣ b → ∃ c ∈ numbers, ¬ c ∣ a ∧ (p ∣ c ↔ ¬ q ∣ c)

structure SplitsAll (pool next : List ℕ) : Prop where
  cut : ∀ a ∈ pool, ∀ b ∈ pool, Crosses a b → a.gcd b ∈ next ∧ a / a.gcd b ∈ next
  comes : ∀ q ∈ next, (q ∈ pool ∧ ∀ b ∈ pool, ¬ Crosses q b) ∨
    ∃ a ∈ pool, ∃ b ∈ pool, Crosses a b ∧ (q = a.gcd b ∨ q = a / a.gcd b)

variable {ι : Type*}

structure Atoms (atom : ι → ℕ) : Prop where
  above : ∀ i, 1 < atom i
  coprime : ∀ i j, i ≠ j → (atom i).Coprime (atom j)

def Over (atom : ι → ℕ) (numbers : Set ℕ) : Prop := ∀ a ∈ numbers, ∃ s, ∏ i ∈ s, atom i = a

def atomSets (atom : ι → ℕ) (pool : List ℕ) : Set (Finset ι) := {s | ∏ i ∈ s, atom i ∈ pool}

variable {atom : ι → ℕ} {s t : Finset ι}

section Products

variable (atoms : Atoms atom)

include atoms

theorem Atoms.coprime_of_disjoint (apart : Disjoint s t) :
    (∏ i ∈ s, atom i).Coprime (∏ i ∈ t, atom i) := by
  refine Nat.Coprime.prod_left fun i left => Nat.Coprime.prod_right fun j right => ?_
  exact atoms.coprime i j (Finset.disjoint_left.mp apart left <| · ▸ right)

theorem Atoms.prod_pos (s : Finset ι) : 0 < ∏ i ∈ s, atom i :=
  Finset.prod_pos fun i _ => Nat.zero_lt_of_lt (atoms.above i)

variable [DecidableEq ι]

theorem Atoms.dvd_iff : ∏ i ∈ s, atom i ∣ ∏ i ∈ t, atom i ↔ s ⊆ t := by
  refine ⟨fun divides i member => ?_, Finset.prod_dvd_prod_of_subset s t atom⟩
  by_contra absent
  have coprime : (atom i).Coprime (∏ j ∈ t, atom j) :=
    Nat.Coprime.prod_right fun j right => atoms.coprime i j fun same => absent (same ▸ right)
  have one := Nat.Coprime.eq_one_of_dvd coprime ((Finset.dvd_prod_of_mem atom member).trans divides)
  exact absurd (atoms.above i) (by omega)

theorem Atoms.prod_injective (same : ∏ i ∈ s, atom i = ∏ i ∈ t, atom i) : s = t :=
  Finset.Subset.antisymm (atoms.dvd_iff.mp (dvd_of_eq same))
    (atoms.dvd_iff.mp (dvd_of_eq same.symm))

theorem Atoms.gcd_prod (s t : Finset ι) :
    (∏ i ∈ s, atom i).gcd (∏ i ∈ t, atom i) = ∏ i ∈ s ∩ t, atom i := by
  have left := Finset.prod_inter_mul_prod_sdiff s t atom
  have right := Finset.prod_inter_mul_prod_sdiff t s atom
  have apart : Disjoint (s \ t) (t \ s) :=
    Finset.disjoint_of_subset_right Finset.sdiff_subset Finset.sdiff_disjoint
  rw [Finset.inter_comm t s] at right
  rw [← left, ← right, Nat.gcd_mul_left, (atoms.coprime_of_disjoint apart).gcd_eq_one, Nat.mul_one]

theorem Atoms.div_gcd (s t : Finset ι) :
    (∏ i ∈ s, atom i) / (∏ i ∈ s, atom i).gcd (∏ i ∈ t, atom i) = ∏ i ∈ s \ t, atom i := by
  have whole := Finset.prod_inter_mul_prod_sdiff s t atom
  rw [atoms.gcd_prod]
  exact Nat.div_eq_of_eq_mul_right (atoms.prod_pos _) whole.symm

theorem Atoms.crosses_iff : Crosses (∏ i ∈ s, atom i) (∏ i ∈ t, atom i) ↔ Cross s t := by
  have meets : ∏ i ∈ s ∩ t, atom i = 1 ↔ ¬ (s ∩ t).Nonempty := by
    rw [Finset.not_nonempty_iff_eq_empty, ← Finset.prod_empty (f := atom)]
    exact ⟨atoms.prod_injective, fun empty => by rw [empty]⟩
  have held : ∀ s t : Finset ι, ∏ i ∈ s ∩ t, atom i = ∏ i ∈ s, atom i ↔ s ⊆ t := fun s t =>
    ⟨fun same => Finset.inter_eq_left.mp (atoms.prod_injective same),
      fun held => by rw [Finset.inter_eq_left.mpr held]⟩
  have holds : ∏ i ∈ s ∩ t, atom i = ∏ i ∈ t, atom i ↔ t ⊆ s := by
    rw [Finset.inter_comm, held]
  rw [Crosses, atoms.gcd_prod, Cross, ne_eq, ne_eq, ne_eq, meets, held, holds, not_not]

theorem Atoms.prime_dvd_iff {p : ℕ} {i : ι} (prime : p.Prime) (divides : p ∣ atom i) :
    p ∣ ∏ j ∈ s, atom j ↔ i ∈ s := by
  refine ⟨fun whole => ?_, fun member => divides.trans (Finset.dvd_prod_of_mem atom member)⟩
  rcases (Prime.dvd_finsetProd_iff prime.prime atom).mp whole with ⟨j, member, other⟩
  by_contra absent
  have differ : i ≠ j := fun same => absent (same ▸ member)
  exact prime.one_lt.ne' (Nat.Coprime.eq_one_of_dvd
    ((atoms.coprime i j differ).coprime_dvd_left divides) other)

end Products

section Pools

variable [DecidableEq ι] {pool next : List ℕ}

theorem SplitsAll.products (splits : SplitsAll pool next) (atoms : Atoms atom)
    (products : Over atom {a | a ∈ pool}) : Over atom {a | a ∈ next} := by
  intro q member
  rcases splits.comes q member with ⟨stays, -⟩ | ⟨a, left, b, right, -, piece⟩
  · exact products q stays
  · rcases products a left with ⟨s, rfl⟩
    rcases products b right with ⟨t, rfl⟩
    rcases piece with rfl | rfl
    · exact ⟨s ∩ t, (atoms.gcd_prod s t).symm⟩
    · exact ⟨s \ t, (atoms.div_gcd s t).symm⟩

theorem SplitsAll.round (splits : SplitsAll pool next) (atoms : Atoms atom)
    (products : Over atom {a | a ∈ pool}) : Round (atomSets atom pool) (atomSets atom next) := by
  constructor
  · intro s left t right cross
    have pieces := splits.cut _ left _ right (atoms.crosses_iff.mpr cross)
    rw [atoms.gcd_prod, ← atoms.gcd_prod, atoms.div_gcd, atoms.gcd_prod] at pieces
    exact pieces
  · intro u member
    rcases splits.comes _ member with ⟨stays, uncut⟩ | ⟨a, left, b, right, crosses, piece⟩
    · exact .inl ⟨stays, fun t inside cross => uncut _ inside (atoms.crosses_iff.mpr cross)⟩
    · rcases products a left with ⟨s, rfl⟩
      rcases products b right with ⟨t, rfl⟩
      refine .inr ⟨s, left, t, right, atoms.crosses_iff.mp crosses, ?_⟩
      rw [atoms.gcd_prod, ← atoms.gcd_prod, atoms.div_gcd, atoms.gcd_prod] at piece
      exact piece.imp atoms.prod_injective atoms.prod_injective

theorem Parted.untangled (parted : Parted {a | a ∈ pool}) (atoms : Atoms atom)
    (products : Over atom {a | a ∈ pool}) : Untangled (atomSets atom pool) := by
  have nested : ∀ t ∈ atomSets atom pool, ∀ s ∈ atomSets atom pool, s ⊆ t → ∀ i ∈ s, ∀ j ∈ t,
      j ∉ s → ∃ u ∈ atomSets atom pool, ¬ u ⊆ t ∧ Parts u i j := by
    intro t right s left held i inner j outer absent
    rcases Nat.exists_prime_and_dvd (atoms.above i).ne' with ⟨p, prime, divides⟩
    rcases Nat.exists_prime_and_dvd (atoms.above j).ne' with ⟨q, prime', divides'⟩
    have differ : ∏ i ∈ s, atom i ≠ ∏ i ∈ t, atom i := fun same =>
      absent (atoms.prod_injective same ▸ outer)
    rcases parted _ right _ left (atoms.dvd_iff.mpr held) differ p q prime prime'
      ((atoms.prime_dvd_iff prime divides).mpr inner)
      ((atoms.prime_dvd_iff prime' divides').mpr outer)
      (mt (atoms.prime_dvd_iff prime' divides').mp absent) with ⟨c, member, outside, parts⟩
    rcases products c member with ⟨u, rfl⟩
    rw [atoms.dvd_iff] at outside
    rw [atoms.prime_dvd_iff prime divides, atoms.prime_dvd_iff prime' divides'] at parts
    exact ⟨u, member, outside, parts⟩
  rintro t right i left j other ⟨s, member, parts⟩
  by_cases held : s ⊆ t
  · by_cases inner : i ∈ s
    · exact nested t right s member held i inner j other (parts.mp inner)
    · have inner' : j ∈ s := by
        by_contra absent
        exact inner (parts.mpr absent)
      rcases nested t right s member held j inner' i left inner with ⟨u, inside, outside, parts⟩
      exact ⟨u, inside, outside, by simp only [Parts] at parts ⊢; tauto⟩
  · exact ⟨s, member, held, parts⟩

/-- There are no more entries than sets of atoms that are not empty. -/
theorem Over.length_lt [Fintype ι] (products : Over atom {a | a ∈ pool}) (distinct : pool.Nodup)
    (above : ∀ a ∈ pool, 1 < a) : pool.length < 2 ^ Fintype.card ι := by
  have covered : pool.toFinset ⊆
      ((Finset.univ : Finset (Finset ι)).erase ∅).image fun s => ∏ i ∈ s, atom i := by
    intro a member
    rcases products a (List.mem_toFinset.mp member) with ⟨s, isProduct⟩
    refine Finset.mem_image.mpr ⟨s, Finset.mem_erase.mpr ⟨?_, Finset.mem_univ s⟩, isProduct⟩
    rintro rfl
    have more := above a (List.mem_toFinset.mp member)
    rw [← isProduct, Finset.prod_empty] at more
    exact Nat.lt_irrefl 1 more
  have few := (Finset.card_le_card covered).trans Finset.card_image_le
  rw [List.toFinset_card_of_nodup distinct, Finset.card_erase_of_mem (Finset.mem_univ _),
    Finset.card_univ, Fintype.card_finset] at few
  have positive := Nat.two_pow_pos (Fintype.card ι)
  omega

end Pools

end CudaMpqs.CoprimeBase
