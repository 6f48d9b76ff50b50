import Mathlib.Data.List.Dedup
import Mathlib.Data.List.Sort

/-! # Sorting without repetition

Insertion sort, followed by a loop that drops repeated and unwanted items. Items are compared by
a key. -/

namespace CudaMpqs.DistinctSort

variable {Item Key : Type}

/-- Each item moves down below the larger ones. The items sorted so far are kept from the
largest one on. -/
def insertionSort (less : Item → Item → Bool) (items : List Item) : List Item :=
  (items.foldl (fun sorted item =>
    sorted.orderedInsert (fun item top => less item top = false) item) []).reverse

def dropRepeated [DecidableEq Item] (wanted : Item → Bool) : Option Item → List Item → List Item
  | _, [] => []
  | before, item :: items =>
    if before = some item then dropRepeated wanted (some item) items
    else if wanted item then item :: dropRepeated wanted (some item) items
    else dropRepeated wanted (some item) items

section Sorting

variable (less : Item → Item → Bool)

theorem insertionSort_eq (items : List Item) : insertionSort less items =
    (items.reverse.insertionSort fun item top => less item top = false).reverse := by
  rw [insertionSort, List.insertionSort, List.foldr_reverse]

theorem mem_insertionSort {items : List Item} {item : Item} :
    item ∈ insertionSort less items ↔ item ∈ items := by
  rw [insertionSort_eq, List.mem_reverse, List.mem_insertionSort, List.mem_reverse]

theorem pairwise_insertionSort [LinearOrder Key] {key : Item → Key}
    (order : ∀ a b, less a b = true ↔ key a < key b) (items : List Item) :
    (insertionSort less items).Pairwise (key · ≤ key ·) := by
  have notLess : ∀ a b, less a b = false ↔ key b ≤ key a := fun a b => by
    rw [← Bool.not_eq_true, order, not_lt]
  have total : Std.Total fun a b => less a b = false :=
    ⟨fun a b => by rw [notLess, notLess]; exact le_total _ _⟩
  have trans : IsTrans Item fun a b => less a b = false :=
    ⟨fun a b c => by rw [notLess, notLess, notLess]; exact fun ab bc => bc.trans ab⟩
  rw [insertionSort_eq, List.pairwise_reverse]
  exact (List.pairwise_insertionSort _ _).imp fun {a b} => (notLess a b).mp

end Sorting

section Dropping

variable [DecidableEq Item] (wanted : Item → Bool)

theorem of_mem_dropRepeated {items : List Item} {before : Option Item} {item : Item}
    (member : item ∈ dropRepeated wanted before items) : item ∈ items ∧ wanted item = true := by
  induction items generalizing before with
  | nil => exact absurd member List.not_mem_nil
  | cons head items induction =>
    rw [dropRepeated] at member
    split at member
    · exact (induction member).imp_left (List.mem_cons_of_mem _)
    · split at member
      · next kept =>
          rcases List.mem_cons.mp member with rfl | later
          · exact ⟨List.mem_cons_self, kept⟩
          · exact (induction later).imp_left (List.mem_cons_of_mem _)
      · exact (induction member).imp_left (List.mem_cons_of_mem _)

private theorem mem_dropRepeated_or {items : List Item} (before : Option Item) {item : Item}
    (member : item ∈ items) (kept : wanted item = true) :
    before = some item ∨ item ∈ dropRepeated wanted before items := by
  induction items generalizing before with
  | nil => exact absurd member List.not_mem_nil
  | cons head items induction =>
    rw [dropRepeated]
    have first : head = item → before = some item ∨ item ∈
        if before = some head then dropRepeated wanted (some head) items
        else if wanted head then head :: dropRepeated wanted (some head) items
        else dropRepeated wanted (some head) items := by
      rintro rfl
      by_cases repeated : before = some head
      · exact .inl repeated
      · rw [if_neg repeated, if_pos kept]
        exact .inr List.mem_cons_self
    rcases List.mem_cons.mp member with same | later
    · exact first same.symm
    · rcases induction (some head) later with same | rest
      · exact first (Option.some.inj same)
      · right
        split
        · exact rest
        · split
          · exact List.mem_cons_of_mem _ rest
          · exact rest

theorem mem_dropRepeated {items : List Item} {item : Item} :
    item ∈ dropRepeated wanted none items ↔ item ∈ items ∧ wanted item = true :=
  ⟨of_mem_dropRepeated wanted, fun ⟨member, kept⟩ =>
    (mem_dropRepeated_or wanted none member kept).resolve_left nofun⟩

theorem pairwise_dropRepeated [LinearOrder Key] {key : Item → Key}
    (injective : Function.Injective key) {items : List Item}
    (sorted : items.Pairwise (key · ≤ key ·)) {before : Option Item}
    (above : ∀ first, before = some first → ∀ item ∈ items, key first ≤ key item) :
    (dropRepeated wanted before items).Pairwise (key · < key ·) ∧
      ∀ first, before = some first → ∀ item ∈ dropRepeated wanted before items,
        key first < key item := by
  induction items generalizing before with
  | nil => exact ⟨List.Pairwise.nil, fun _ _ _ member => absurd member List.not_mem_nil⟩
  | cons head items induction =>
    rcases List.pairwise_cons.mp sorted with ⟨least, rest⟩
    rcases @induction rest (some head) fun first same item member =>
        Option.some.inj same ▸ least item member with ⟨ascending, greater⟩
    have bigger := greater head rfl
    rw [dropRepeated]
    split
    · next repeated =>
        refine ⟨ascending, fun first same item member => ?_⟩
        rw [Option.some.inj (same.symm.trans repeated)]
        exact bigger item member
    · next differ =>
        have higher : ∀ first, before = some first → key first < key head := fun first same =>
          lt_of_le_of_ne (above first same head List.mem_cons_self) fun equal =>
            differ (same.trans (congrArg some (injective equal)))
        split
        · refine ⟨List.pairwise_cons.mpr ⟨bigger, ascending⟩, fun first same item member => ?_⟩
          rcases List.mem_cons.mp member with rfl | later
          · exact higher first same
          · exact (higher first same).trans (bigger item later)
        · exact ⟨ascending, fun first same item member =>
            (higher first same).trans (bigger item member)⟩

end Dropping

/-! ## Both loops -/

section Both

variable [DecidableEq Item] (less : Item → Item → Bool) (wanted : Item → Bool)

def distinctSort (items : List Item) : List Item :=
  dropRepeated wanted none (insertionSort less items)

theorem mem_distinctSort {items : List Item} {item : Item} :
    item ∈ distinctSort less wanted items ↔ item ∈ items ∧ wanted item = true := by
  rw [distinctSort, mem_dropRepeated, mem_insertionSort]

theorem pairwise_distinctSort [LinearOrder Key] {key : Item → Key}
    (injective : Function.Injective key) (order : ∀ a b, less a b = true ↔ key a < key b)
    (items : List Item) : (distinctSort less wanted items).Pairwise (key · < key ·) :=
  (pairwise_dropRepeated wanted injective (pairwise_insertionSort less order items)
    fun _ same => absurd same.symm (Option.some_ne_none _)).1

theorem length_distinctSort_le [LinearOrder Key] {key : Item → Key}
    (injective : Function.Injective key) (order : ∀ a b, less a b = true ↔ key a < key b)
    (items : List Item) : (distinctSort less wanted items).length ≤ items.dedup.length := by
  have distinct : (distinctSort less wanted items).Nodup := by
    refine (pairwise_distinctSort less wanted injective order items).imp fun below same => ?_
    exact below.ne (congrArg key same)
  refine (List.subperm_of_subset distinct fun item member => ?_).length_le
  exact List.mem_dedup.mpr ((mem_distinctSort less wanted).mp member).1

end Both

end CudaMpqs.DistinctSort
