import Mathlib.Data.Finset.Card
import Mathlib.Data.Fintype.Card
import Mathlib.Data.Set.Basic
import Mathlib.Tactic.Tauto

/-! # Crossing sets

Two sets cross when they meet and neither holds the other. A round cuts every two crossing
sets of a family along each other. Sets that are nested are not cut, so that a family may
come to rest before its sets are disjoint. -/

namespace CudaMpqs.CrossingSets

variable {ι : Type*} [DecidableEq ι]

def Cross (s t : Finset ι) : Prop := (s ∩ t).Nonempty ∧ ¬ s ⊆ t ∧ ¬ t ⊆ s

instance (s t : Finset ι) : Decidable (Cross s t) :=
  inferInstanceAs (Decidable (_ ∧ _ ∧ _))

structure Round (family next : Set (Finset ι)) : Prop where
  cut : ∀ s ∈ family, ∀ t ∈ family, Cross s t → s ∩ t ∈ next ∧ s \ t ∈ next
  comes : ∀ u ∈ next, (u ∈ family ∧ ∀ t ∈ family, ¬ Cross u t) ∨
    ∃ s ∈ family, ∃ t ∈ family, Cross s t ∧ (u = s ∩ t ∨ u = s \ t)

def Parts (s : Finset ι) (i j : ι) : Prop := i ∈ s ↔ j ∉ s

/-- Two points of a set that the family parts are parted by a member that is not inside. -/
def Untangled (family : Set (Finset ι)) : Prop :=
  ∀ t ∈ family, ∀ i ∈ t, ∀ j ∈ t, (∃ s ∈ family, Parts s i j) → ∃ s ∈ family, ¬ s ⊆ t ∧ Parts s i j

def Narrow (family : Set (Finset ι)) (size : Nat) : Prop :=
  ∀ s ∈ family, ∀ t ∈ family, Cross s t → s.card ≤ size

section Pairs

variable {s t u : Finset ι} {i j : ι}

theorem Cross.symm (cross : Cross s t) : Cross t s :=
  ⟨Finset.inter_comm s t ▸ cross.1, cross.2.2, cross.2.1⟩

theorem Cross.ssubset (cross : Cross s t) (piece : u = s ∩ t ∨ u = s \ t) : u ⊂ s := by
  rcases piece with rfl | rfl
  · exact ⟨Finset.inter_subset_left, fun whole => cross.2.1 (Finset.subset_inter_iff.mp whole).2⟩
  · refine ⟨Finset.sdiff_subset, fun whole => ?_⟩
    rcases cross.1 with ⟨point, both⟩
    have inside := Finset.mem_inter.mp both
    exact (Finset.mem_sdiff.mp (whole inside.1)).2 inside.2

theorem Cross.two_le_card (cross : Cross s t) : 2 ≤ s.card := by
  have meets := Finset.card_pos.mpr cross.1
  have fewer := Finset.card_lt_card (cross.ssubset (.inl rfl))
  omega

theorem Parts.cross (parts : Parts s i j) (left : i ∈ t) (right : j ∈ t) (outside : ¬ s ⊆ t) :
    Cross t s := by
  by_cases member : i ∈ s
  · exact ⟨⟨i, Finset.mem_inter.mpr ⟨left, member⟩⟩,
      fun whole => parts.mp member (whole right), outside⟩
  · have other : j ∈ s := by
      by_contra absent
      exact member (parts.mpr absent)
    exact ⟨⟨j, Finset.mem_inter.mpr ⟨right, other⟩⟩, fun whole => member (whole left), outside⟩

/-- Cutting a set that holds both points does not join them again. -/
theorem Parts.pieces (parts : Parts s i j) (left : i ∈ t) (right : j ∈ t) :
    Parts (t ∩ s) i j ∧ Parts (t \ s) i j := by
  simp only [Parts, Finset.mem_inter, Finset.mem_sdiff, left, right, true_and, not_not] at parts ⊢
  exact ⟨parts, by tauto⟩

end Pairs

/-! ## One round -/

section Round

variable {family next : Set (Finset ι)}

theorem Round.parted (round : Round family next) {u : Finset ι} (member : u ∈ next) {i j : ι}
    (parts : Parts u i j) : ∃ s ∈ family, Parts s i j := by
  rcases round.comes u member with ⟨stays, -⟩ | ⟨s, left, t, right, -, piece⟩
  · exact ⟨u, stays, parts⟩
  · by_contra none
    have same : ∀ s ∈ family, (i ∈ s ↔ j ∈ s) := by
      intro s inside
      by_contra differ
      exact none ⟨s, inside, by rw [Parts]; tauto⟩
    have first := same s left
    have second := same t right
    rcases piece with rfl | rfl
    · simp only [Parts, Finset.mem_inter] at parts
      tauto
    · simp only [Parts, Finset.mem_sdiff] at parts
      tauto

/-- A family that is untangled stays so: one of the two halves of a set that was cut also
crosses every other piece of it. -/
theorem Untangled.round (untangled : Untangled family) (round : Round family next) :
    Untangled next := by
  rintro u member i left j right ⟨w, other, parts⟩
  have parted := round.parted other parts
  rcases round.comes u member with ⟨stays, uncut⟩ | ⟨s, inside, t, -, cross, piece⟩
  · rcases untangled u stays i left j right parted with ⟨v, inside, outside, parts⟩
    exact absurd (parts.cross left right outside) (uncut v inside)
  · have smaller := cross.ssubset piece
    rcases untangled s inside i (smaller.1 left) j (smaller.1 right) parted with
      ⟨v, vMember, outside, parts⟩
    have halves := round.cut s inside v vMember
      (parts.cross (smaller.1 left) (smaller.1 right) outside)
    have pieces := parts.pieces (smaller.1 left) (smaller.1 right)
    by_cases within : s ∩ v ⊆ u
    · refine ⟨s \ v, halves.2, fun rest => smaller.2 fun point member => ?_, pieces.2⟩
      by_cases shared : point ∈ v
      · exact within (Finset.mem_inter.mpr ⟨member, shared⟩)
      · exact rest (Finset.mem_sdiff.mpr ⟨member, shared⟩)
    · exact ⟨s ∩ v, halves.1, within, pieces.1⟩

theorem Round.not_cross (round : Round family next) {u w : Finset ι}
    (uncut : ∀ t ∈ family, ¬ Cross u t) (member : w ∈ next) : ¬ Cross u w := by
  intro cross
  rcases round.comes w member with ⟨stays, -⟩ | ⟨s, left, t, right, crossing, piece⟩
  · exact uncut w stays cross
  · have smaller := (crossing.ssubset piece).1
    rcases cross with ⟨⟨point, both⟩, outside, notHeld⟩
    have inBoth := Finset.mem_inter.mp both
    have inner : u ⊆ s := by
      by_contra out
      refine uncut s left ⟨⟨point, ?_⟩, out, fun held => notHeld (smaller.trans held)⟩
      exact Finset.mem_inter.mpr ⟨inBoth.1, smaller inBoth.2⟩
    have apart := uncut t right
    rcases piece with rfl | rfl
    · refine apart ⟨⟨point, Finset.mem_inter.mpr
        ⟨inBoth.1, (Finset.mem_inter.mp inBoth.2).2⟩⟩, fun held => ?_, fun held => ?_⟩
      · exact outside (Finset.subset_inter inner held)
      · exact notHeld (Finset.inter_subset_right.trans held)
    · by_cases meets : (u ∩ t).Nonempty
      · refine apart ⟨meets, fun held => ?_, fun held => crossing.2.2 (held.trans inner)⟩
        exact (Finset.mem_sdiff.mp inBoth.2).2 (held inBoth.1)
      · refine outside fun other inside => Finset.mem_sdiff.mpr ⟨inner inside, fun shared => ?_⟩
        exact meets ⟨other, Finset.mem_inter.mpr ⟨inside, shared⟩⟩

theorem Narrow.round {size : Nat} (narrow : Narrow family size) (round : Round family next) :
    Narrow next (size - 1) := by
  intro u left w right cross
  rcases round.comes u left with ⟨-, uncut⟩ | ⟨s, inside, t, other, crossing, piece⟩
  · exact absurd cross (round.not_cross uncut right)
  · have fewer := Finset.card_lt_card (crossing.ssubset piece)
    have bound := narrow s inside t other crossing
    omega

theorem Narrow.not_cross {size : Nat} (narrow : Narrow family size) (few : size < 2) :
    ∀ s ∈ family, ∀ t ∈ family, ¬ Cross s t := by
  intro s left t right cross
  have bound := narrow s left t right cross
  have many := cross.two_le_card
  omega

/-- When nothing crosses any more, the sets of an untangled family are disjoint. -/
theorem Untangled.disjoint (untangled : Untangled family)
    (rest : ∀ s ∈ family, ∀ t ∈ family, ¬ Cross s t) {s t : Finset ι} (left : s ∈ family)
    (right : t ∈ family) (differ : s ≠ t) : Disjoint s t := by
  have nested : ∀ s ∈ family, ∀ t ∈ family, s ⊆ t → s ≠ t → s = ∅ := by
    intro s left t right held differ
    by_contra filled
    rcases Finset.nonempty_iff_ne_empty.mpr filled with ⟨i, inner⟩
    rcases Finset.exists_of_ssubset (held.ssubset_of_ne differ) with ⟨j, outer, absent⟩
    rcases untangled t right i (held inner) j outer ⟨s, left, iff_of_true inner absent⟩ with
      ⟨v, inside, outside, parts⟩
    exact rest t right v inside (parts.cross (held inner) outer outside)
  by_contra meets
  rw [Finset.disjoint_iff_inter_eq_empty, ← ne_eq, ← Finset.nonempty_iff_ne_empty] at meets
  by_cases held : s ⊆ t
  · rw [nested s left t right held differ, Finset.empty_inter] at meets
    exact Finset.not_nonempty_empty meets
  · by_cases holds : t ⊆ s
    · rw [nested t right s left holds differ.symm, Finset.inter_empty] at meets
      exact Finset.not_nonempty_empty meets
    · exact rest s left t right ⟨meets, held, holds⟩

end Round

end CudaMpqs.CrossingSets
