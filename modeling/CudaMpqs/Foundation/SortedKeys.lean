import Mathlib.Data.List.Destutter
import Mathlib.Order.Lattice

/-! # Sorted keys

Keys numbered in their order: sorted, without repetitions, and looked up by
`lower_bound`. -/

namespace CudaMpqs.SortedKeys

variable {κ : Type} [LinearOrder κ]

def sortUnique (items : List κ) : List κ :=
  (items.mergeSort fun left right => decide (left ≤ right)).destutter (· ≠ ·)

def lowerBound (keys : List κ) (key : κ) : Nat := keys.findIdx fun other => decide (key ≤ other)

def upperBound (keys : List κ) (key : κ) : Nat := keys.findIdx fun other => decide (key < other)

private theorem mem_destutter'_ne {item head : κ} {items : List κ} :
    item ∈ items.destutter' (· ≠ ·) head ↔ item ∈ head :: items := by
  induction items generalizing head with
  | nil => rfl
  | cons next items induction =>
    by_cases same : head = next
    · subst same
      rw [List.destutter'_cons_neg _ (not_not.mpr rfl), induction]
      simp
    · rw [List.destutter'_cons_pos _ same, List.mem_cons, induction]
      exact List.mem_cons.symm

theorem mem_sortUnique {item : κ} {items : List κ} : item ∈ sortUnique items ↔ item ∈ items := by
  have sorted : ∀ sorted : List κ, item ∈ sorted.destutter (· ≠ ·) ↔ item ∈ sorted := by
    intro sorted
    cases sorted with
    | nil => rfl
    | cons head rest => exact mem_destutter'_ne
  rw [sortUnique, sorted]
  exact (List.mergeSort_perm items _).mem_iff

theorem ascending_sortUnique (items : List κ) : (sortUnique items).Pairwise (· < ·) := by
  have sorted : (items.mergeSort fun left right => decide (left ≤ right)).Pairwise (· ≤ ·) := by
    refine (List.pairwise_mergeSort ?_ ?_ items).imp of_decide_eq_true
    · intro a b c first second
      exact decide_eq_true ((of_decide_eq_true first).trans (of_decide_eq_true second))
    · intro a b
      simpa using le_total a b
  have monotone : (sortUnique items).Pairwise (· ≤ ·) :=
    sorted.sublist (List.destutter_sublist _ _)
  have distinct := List.isChain_destutter (· ≠ ·)
    (items.mergeSort fun left right => decide (left ≤ right))
  rw [← List.isChain_iff_pairwise, List.isChain_iff_getElem] at monotone ⊢
  rw [List.isChain_iff_getElem] at distinct
  exact fun i inside => lt_of_le_of_ne (monotone i inside) (distinct i inside)

theorem getElem?_lowerBound {keys : List κ} (ascending : keys.Pairwise (· < ·)) {key : κ}
    (present : key ∈ keys) : keys[lowerBound keys key]? = some key := by
  rcases List.getElem_of_mem present with ⟨place, inside, rfl⟩
  have bound : lowerBound keys keys[place] < keys.length :=
    List.findIdx_lt_length_of_exists ⟨_, present, decide_eq_true le_rfl⟩
  have above : keys[place] ≤ keys[lowerBound keys keys[place]] :=
    of_decide_eq_true (List.findIdx_getElem (w := bound))
  have notLater : ¬ place < lowerBound keys keys[place] := by
    intro less
    have below := List.not_of_lt_findIdx less
    exact of_decide_eq_false below le_rfl
  have notEarlier : ¬ lowerBound keys keys[place] < place := by
    intro less
    exact (List.pairwise_iff_getElem.mp ascending _ _ bound inside less).not_ge above
  have same : lowerBound keys keys[place] = place := by omega
  rw [same]
  exact List.getElem?_eq_getElem inside

theorem lowerBound_lt {keys : List κ} (ascending : keys.Pairwise (· < ·)) {key : κ}
    (present : key ∈ keys) : lowerBound keys key < keys.length :=
  (List.getElem?_eq_some_iff.mp (getElem?_lowerBound ascending present)).1

/-- Before the place that `upper_bound` finds, no key is greater. -/
theorem le_of_lt_upperBound {f : Nat → κ} {count place : Nat} {key : κ}
    (before : place < upperBound ((List.range count).map f) key) : f place ≤ key := by
  have inside : place < ((List.range count).map f).length :=
    before.trans_le List.findIdx_le_length
  have notGreater := List.not_of_lt_findIdx before
  rw [List.getElem_map, List.getElem_range] at notGreater
  exact not_lt.mp (of_decide_eq_false notGreater)

theorem upperBound_lt {f : Nat → κ} {count place : Nat} {key : κ} (inside : place < count)
    (greater : key < f place) : upperBound ((List.range count).map f) key < count := by
  have found := @List.findIdx_lt_length_of_exists _ (fun other => decide (key < other))
    ((List.range count).map f) ⟨f place, List.mem_map_of_mem (List.mem_range.mpr inside),
      decide_eq_true greater⟩
  rwa [List.length_map, List.length_range] at found

theorem lt_apply_upperBound {f : Nat → κ} {count : Nat} {key : κ}
    (inside : upperBound ((List.range count).map f) key < count) :
    key < f (upperBound ((List.range count).map f) key) := by
  have bound : ((List.range count).map f).findIdx (fun other => decide (key < other)) <
      ((List.range count).map f).length := by
    rwa [List.length_map, List.length_range]
  have greater := of_decide_eq_true (List.findIdx_getElem (w := bound))
  rwa [List.getElem_map, List.getElem_range] at greater

end CudaMpqs.SortedKeys
