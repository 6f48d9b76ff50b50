import CudaMpqs.Foundation.Slice

/-! # Checked array accesses

Reads that fail outside an array, and loops that stop at the first failure. -/

namespace CudaMpqs.CheckedAccess

open Slice

variable {Item State : Type}

def checkedSlice (items : List Item) (start stop : Nat) : Option (List Item) :=
  if start ≤ stop ∧ stop ≤ items.length then some (slice items start stop) else none

theorem checkedSlice_inside {items : List Item} {start stop : Nat} (ordered : start ≤ stop)
    (inside : stop ≤ items.length) :
    checkedSlice items start stop = some (slice items start stop) :=
  if_pos ⟨ordered, inside⟩

theorem foldlM_isSome {step : State → Item → Option State} {items : List Item}
    (steps : ∀ item ∈ items, ∀ state, (step state item).isSome) (state : State) :
    (items.foldlM step state).isSome := by
  induction items generalizing state with
  | nil => rfl
  | cons item items induction =>
    obtain ⟨next, stepped⟩ :=
      Option.isSome_iff_exists.mp (steps item List.mem_cons_self state)
    rw [List.foldlM_cons, stepped]
    exact induction (fun other member => steps other (List.mem_cons_of_mem _ member)) next

/-- A checked loop whose checks all pass is the loop without them. -/
theorem foldlM_eq_foldl {checked : State → Item → Option State}
    {step : State → Item → State} {items : List Item}
    (passes : ∀ item ∈ items, ∀ state, checked state item = some (step state item))
    (state : State) : items.foldlM checked state = some (items.foldl step state) := by
  induction items generalizing state with
  | nil => rfl
  | cons item items induction =>
    rw [List.foldlM_cons, passes item List.mem_cons_self]
    exact induction (fun other member => passes other (List.mem_cons_of_mem _ member)) _

end CudaMpqs.CheckedAccess
