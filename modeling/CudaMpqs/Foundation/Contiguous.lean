import Mathlib.Data.List.Basic

/-! # Ranges laid end to end

Nonempty ranges of which each begins where the one before it ends. -/

namespace CudaMpqs

variable {α : Type} {start stop : α → Nat} {items left right : List α} {low high : Nat}

def Contiguous (start stop : α → Nat) : List α → Nat → Nat → Prop
  | [], low, high => low = high
  | item :: items, low, high =>
    start item = low ∧ low < stop item ∧ Contiguous start stop items (stop item) high

namespace Contiguous

theorem append_iff : Contiguous start stop (left ++ right) low high ↔
    ∃ middle, Contiguous start stop left low middle ∧ Contiguous start stop right middle high := by
  induction left generalizing low with
  | nil =>
    constructor
    · exact fun contiguous => ⟨low, rfl, contiguous⟩
    · rintro ⟨_, rfl, contiguous⟩
      exact contiguous
  | cons item left induction =>
    rw [List.cons_append]
    simp only [Contiguous, induction]
    constructor
    · rintro ⟨begins, nonempty, middle, before, after⟩
      exact ⟨middle, ⟨begins, nonempty, before⟩, after⟩
    · rintro ⟨middle, ⟨begins, nonempty, before⟩, after⟩
      exact ⟨begins, nonempty, middle, before, after⟩

theorem add_length_le (contiguous : Contiguous start stop items low high) :
    low + items.length ≤ high := by
  induction items generalizing low with
  | nil => exact Nat.le_of_eq contiguous
  | cons item items induction =>
    have rest := induction contiguous.2.2
    have nonempty := contiguous.2.1
    rw [List.length_cons]
    omega

/-- The first range begins and the last one ends where all of them do. -/
theorem ends (contiguous : Contiguous start stop items low high) {first last : α}
    (isFirst : items.head? = some first) (isLast : items.getLast? = some last) :
    start first = low ∧ stop last = high ∧ low < high := by
  rcases List.getLast?_eq_some_iff.mp isLast with ⟨front, rfl⟩
  rcases append_iff.mp contiguous with ⟨middle, before, -, nonempty, ends⟩
  have within := before.add_length_le
  refine ⟨?_, ends, ?_⟩
  · cases front with
    | nil =>
      cases isFirst
      exact contiguous.1
    | cons item front =>
      cases isFirst
      exact contiguous.1
  · rw [← show stop last = high from ends]
    omega

/-- The ranges from place `prev` on and before place `next`. -/
theorem between (contiguous : Contiguous start stop (items.take next) low high)
    (ordered : prev ≤ next) :
    ∃ middle, Contiguous start stop (items.take prev) low middle ∧
      Contiguous start stop ((items.take next).drop prev) middle high := by
  apply append_iff.mp
  have front : (items.take next).take prev = items.take prev := by
    rw [List.take_take, Nat.min_eq_left ordered]
  rwa [← front, List.take_append_drop]

end Contiguous

end CudaMpqs
