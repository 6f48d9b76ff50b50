import Mathlib.Data.List.Basic

/-! # Mailboxes

A receiver that works on one message at a time and keeps one slot for the
newest message of an in-order channel. A delivery overwrites the slot, so
messages are lost, but never the one that was sent last. -/

namespace CudaMpqs

structure Mailbox (Message : Type) where
  taken : Option Message
  slot : Option Message
  channel : List Message

namespace Mailbox

variable {Message : Type}

/-- Every message that was sent and is neither finished nor overwritten, in
sending order. -/
def contents (box : Mailbox Message) : List Message :=
  box.taken.toList ++ box.slot.toList ++ box.channel

def deliver (box : Mailbox Message) : Mailbox Message :=
  match box.channel with
  | [] => box
  | message :: rest => { box with slot := some message, channel := rest }

def finish (box : Mailbox Message) : Mailbox Message :=
  { box with taken := none }

theorem contents_finish (box : Mailbox Message) :
    box.contents = box.taken.toList ++ box.finish.contents := by
  simp [contents, finish]

theorem contents_deliver_sublist (box : Mailbox Message) :
    box.deliver.contents.Sublist box.contents := by
  rcases box with ⟨taken, slot, _ | ⟨message, rest⟩⟩
  · exact List.Sublist.refl _
  · simp only [deliver, contents, Option.toList_some, List.append_assoc, List.singleton_append]
    exact (List.sublist_append_right slot.toList _).append_left taken.toList

theorem getLast?_deliver (box : Mailbox Message) :
    box.deliver.contents.getLast? = box.contents.getLast? := by
  rcases box with ⟨taken, slot, _ | ⟨message, rest⟩⟩
  · rfl
  · simp [deliver, contents, List.getLast?_append, List.getLast?_cons]

theorem contents_deliver_of_single {box : Mailbox Message}
    (single : box.contents.length ≤ 1) : box.deliver.contents = box.contents := by
  have sublist := contents_deliver_sublist box
  have last := getLast?_deliver box
  cases contents : box.contents with
  | nil =>
    rw [contents] at sublist
    exact List.sublist_nil.mp sublist
  | cons message rest =>
    rw [contents, List.length_cons] at single
    have none : rest = [] := List.length_eq_zero_iff.mp (by omega)
    rw [contents, none] at sublist last
    rw [none]
    rcases List.sublist_singleton.mp sublist with empty | same
    · rw [empty] at last
      cases last
    · exact same

theorem getLast?_finish {box : Mailbox Message} {message : Message}
    (last : box.contents.getLast? = some message) :
    box.taken = some message ∨ box.finish.contents.getLast? = some message := by
  rw [contents_finish, List.getLast?_append] at last
  cases rest : box.finish.contents.getLast? with
  | some found =>
    rw [rest, Option.some_or] at last
    exact Or.inr last
  | none =>
    rw [rest, Option.none_or] at last
    cases taken : box.taken with
    | none => simp [taken] at last
    | some found =>
      rw [taken] at last
      exact Or.inl last

end Mailbox

end CudaMpqs
