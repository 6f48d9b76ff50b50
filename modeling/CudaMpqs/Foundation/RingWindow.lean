import Mathlib.Data.List.Basic
import Mathlib.Data.Nat.ModEq

/-! # Windows on a ring of slots

The items of a sequence are kept in slots that are used in turn. While fewer than
`capacity` items are live, every live item has a slot of its own. -/

namespace CudaMpqs.RingWindow

variable {Item : Type} {capacity : Nat}

theorem slot_inj {first second : Nat} (order : first ≤ second)
    (window : second < first + capacity) (same : first % capacity = second % capacity) :
    first = second := by
  have divides := (Nat.modEq_iff_dvd' order).mp same
  have zero := Nat.eq_zero_of_dvd_of_lt divides (by omega)
  omega

def Holds (capacity : Nat) (slots : Nat → Item) (items : List Item) (first : Nat) : Prop :=
  ∀ position item, first ≤ position → items[position]? = some item →
    slots (position % capacity) = item

theorem Holds.write {slots : Nat → Item} {items : List Item} {first : Nat}
    (holds : Holds capacity slots items first) (window : items.length < first + capacity)
    (item : Item) :
    Holds capacity (Function.update slots (items.length % capacity) item)
      (items ++ [item]) first := by
  intro position other after found
  by_cases old : position < items.length
  · have apart : position % capacity ≠ items.length % capacity := by
      intro same
      have equal := slot_inj old.le (by omega) same
      omega
    rw [List.getElem?_append_left old] at found
    rw [Function.update_of_ne apart]
    exact holds position other after found
  · have last : position = items.length := by
      have inside := (List.getElem?_eq_some_iff.mp found).1
      simp at inside
      omega
    subst last
    simpa using found

theorem Holds.read {slots : Nat → Item} {items : List Item} {first : Nat}
    (holds : Holds capacity slots items first) (window : items.length ≤ first + capacity)
    (left : Item) :
    Holds capacity (Function.update slots (first % capacity) left) items (first + 1) := by
  intro position item after found
  have inside := (List.getElem?_eq_some_iff.mp found).1
  have apart : position % capacity ≠ first % capacity := by
    intro same
    have equal := slot_inj (by omega) (by omega) same.symm
    omega
  rw [Function.update_of_ne apart]
  exact holds position item (by omega) found

end CudaMpqs.RingWindow
