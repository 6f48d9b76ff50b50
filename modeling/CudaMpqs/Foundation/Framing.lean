import Mathlib.Data.List.Infix

/-! # Framed streams

A parser that looks at the front of a buffer, and pieces of a stream that it tells
apart however the stream is cut. -/

namespace CudaMpqs.Framing

inductive Found (Byte Message : Type)
  | needMore
  | unframed
  | skipped (rest : List Byte)
  | delivered (message : Message) (rest : List Byte)
deriving DecidableEq

structure Piece (Byte Message : Type) where
  bytes : List Byte
  message : Option Message

variable {Byte Message : Type}

def Piece.found (piece : Piece Byte Message) (rest : List Byte) : Found Byte Message :=
  match piece.message with
  | none => .skipped rest
  | some message => .delivered message rest

def wire (pieces : List (Piece Byte Message)) : List Byte :=
  pieces.flatMap Piece.bytes

structure Delimited (parse : List Byte → Found Byte Message)
    (piece : Piece Byte Message) : Prop where
  waits : ∀ front, front <+: piece.bytes → front ≠ piece.bytes → parse front = .needMore
  takes : ∀ rest, parse (piece.bytes ++ rest) = piece.found rest

def Incomplete (parse : List Byte → Found Byte Message) (tail : List Byte) : Prop :=
  ∀ front, front <+: tail → parse front = .needMore

theorem Delimited.incomplete {parse : List Byte → Found Byte Message}
    {piece : Piece Byte Message} (delimited : Delimited parse piece) {tail : List Byte}
    (isPrefix : tail <+: piece.bytes) (proper : tail ≠ piece.bytes) :
    Incomplete parse tail := by
  intro front inside
  apply delimited.waits front (inside.trans isPrefix)
  rintro rfl
  exact proper (isPrefix.eq_of_length_le inside.length_le)

/-- The buffer is short of its first piece, or begins with it. -/
theorem parse_cases {parse : List Byte → Found Byte Message} {pieces : List (Piece Byte Message)}
    (delimited : ∀ piece ∈ pieces, Delimited parse piece) {tail : List Byte}
    (incomplete : Incomplete parse tail) {buffer unread : List Byte}
    (stream : buffer ++ unread = wire pieces ++ tail) :
    (parse buffer = .needMore ∧ (unread = [] → pieces = [])) ∨
      ∃ piece rest more, pieces = piece :: rest ∧ parse buffer = piece.found more ∧
        more ++ unread = wire rest ++ tail := by
  cases pieces with
  | nil =>
    refine .inl ⟨incomplete buffer ⟨unread, ?_⟩, fun _ => rfl⟩
    rw [stream]
    rfl
  | cons piece rest =>
    have first := delimited piece List.mem_cons_self
    have split : wire (piece :: rest) ++ tail = piece.bytes ++ (wire rest ++ tail) := by
      rw [wire, List.flatMap_cons, List.append_assoc]
      rfl
    rw [split] at stream
    rcases List.append_eq_append_iff.mp stream with
      ⟨missing, bytes, unreadIs⟩ | ⟨more, bufferIs, after⟩
    · by_cases whole : missing = []
      · rw [whole, List.append_nil] at bytes
        rw [whole, List.nil_append] at unreadIs
        refine .inr ⟨piece, rest, [], rfl, ?_, unreadIs⟩
        rw [← bytes, ← List.append_nil piece.bytes]
        exact first.takes []
      · refine .inl ⟨first.waits buffer ⟨missing, bytes.symm⟩ ?_, ?_⟩
        · intro same
          rw [same, List.self_eq_append_right] at bytes
          exact whole bytes
        · rintro rfl
          exact absurd (List.append_eq_nil_iff.mp unreadIs.symm).1 whole
    · refine .inr ⟨piece, rest, more, rfl, ?_, after.symm⟩
      rw [bufferIs]
      exact first.takes more

end CudaMpqs.Framing
