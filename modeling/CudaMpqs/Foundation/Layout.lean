import CudaMpqs.Foundation.Codec

/-! # Layouts

Where the fields and the counted arrays of a file lie, read off its bytes. A reader that
follows a layout throws exactly if a count asks for more than the memory, and otherwise
comes to the end of the layout, however many bytes the file has. -/

namespace CudaMpqs.ByteStream

open Stream

/-- Bytes that are read as they are, or arrays of one length behind their count; `initial`
is what the variable of the count held. -/
inductive Piece where
  | fields (width : Nat)
  | arrays (countWidth width copies initial : Nat)

namespace Piece

def next (bytes : List UInt8) (place : Nat) : Piece → Nat
  | fields width => place + width
  | arrays countWidth width copies initial =>
    place + countWidth + copies * (numberAt bytes place countWidth initial * width)

def Fits (memory : Nat) (bytes : List UInt8) (place : Nat) : Piece → Prop
  | fields _ => True
  | arrays countWidth width _ initial =>
    numberAt bytes place countWidth initial * width ≤ memory

instance (memory : Nat) (bytes : List UInt8) (place : Nat) :
    (piece : Piece) → Decidable (piece.Fits memory bytes place)
  | fields _ => inferInstanceAs (Decidable True)
  | arrays countWidth width _ initial =>
    inferInstanceAs (Decidable (numberAt bytes place countWidth initial * width ≤ memory))

theorem le_next (bytes : List UInt8) (place : Nat) (piece : Piece) :
    place ≤ piece.next bytes place := by
  cases piece with
  | fields width => exact Nat.le_add_right place width
  | arrays countWidth width copies initial =>
    exact Nat.le_add_right_of_le (Nat.le_add_right place countWidth)

end Piece

def endOf (bytes : List UInt8) : List Piece → Nat → Nat
  | [], place => place
  | piece :: pieces, place => endOf bytes pieces (piece.next bytes place)

def CountsFit (memory : Nat) (bytes : List UInt8) : List Piece → Nat → Prop
  | [], _ => True
  | piece :: pieces, place =>
    piece.Fits memory bytes place ∧ CountsFit memory bytes pieces (piece.next bytes place)

instance instDecidableCountsFit (memory : Nat) (bytes : List UInt8) :
    (pieces : List Piece) → (place : Nat) → Decidable (CountsFit memory bytes pieces place)
  | [], _ => inferInstanceAs (Decidable True)
  | piece :: pieces, place =>
    @instDecidableAnd _ _ _
      (instDecidableCountsFit memory bytes pieces (piece.next bytes place))

variable {bytes : List UInt8} {memory : Nat}

theorem endOf_append (first second : List Piece) (place : Nat) :
    endOf bytes (first ++ second) place = endOf bytes second (endOf bytes first place) := by
  induction first generalizing place with
  | nil => rfl
  | cons piece pieces induction => exact induction (piece.next bytes place)

theorem countsFit_append (first second : List Piece) (place : Nat) :
    CountsFit memory bytes (first ++ second) place ↔ CountsFit memory bytes first place ∧
        CountsFit memory bytes second (endOf bytes first place) := by
  induction first generalizing place with
  | nil => exact (and_iff_right trivial).symm
  | cons piece pieces induction =>
    rw [List.cons_append, CountsFit, induction, CountsFit, endOf, and_assoc]

theorem le_endOf (bytes : List UInt8) (pieces : List Piece) (place : Nat) :
    place ≤ endOf bytes pieces place := by
  induction pieces generalizing place with
  | nil => exact Nat.le_refl place
  | cons piece pieces induction =>
    exact Nat.le_trans (piece.le_next bytes place) (induction _)

/-! ## Readers -/

section Follows

variable {α β : Type} {place : Nat}

/-- What comes of reading the pieces at `place`. The item always `holds`, and it `encodes`
to the bytes that were read if the file had them all. -/
def Follows (memory : Nat) (bytes : List UInt8) (pieces : List Piece) (place : Nat)
    (holds : α → Prop) (encodes : α → List UInt8 → Prop) : Option (α × Stream) → Prop
  | none => ¬ CountsFit memory bytes pieces place
  | some (item, after) =>
    CountsFit memory bytes pieces place ∧ At bytes (endOf bytes pieces place) after ∧
      holds item ∧ (after.good = true →
        ∃ front, bytes.drop place = front ++ after.rest ∧ encodes item front)

theorem Follows.done {item : α} {after : Stream} {holds : α → Prop}
    {encodes : α → List UInt8 → Prop} (here : At bytes place after) (held : holds item)
    (encoded : encodes item []) :
    Follows memory bytes [] place holds encodes (some (item, after)) :=
  ⟨trivial, here, held, fun _ => ⟨[], here.rest.symm, encoded⟩⟩

theorem Follows.bind {first second : List Piece} {holds : α → Prop}
    {encodes : α → List UInt8 → Prop} {holds' : β → Prop} {encodes' : β → List UInt8 → Prop}
    {outcome : Option (α × Stream)} {rest : α × Stream → Option (β × Stream)}
    (reads : Follows memory bytes first place holds encodes outcome)
    (continues : ∀ item after, At bytes (endOf bytes first place) after → holds item →
      Follows memory bytes second (endOf bytes first place) holds'
        (fun result back => ∀ front, encodes item front → encodes' result (front ++ back))
        (rest (item, after))) :
    Follows memory bytes (first ++ second) place holds' encodes' (outcome.bind rest) := by
  cases outcome with
  | none => exact fun fit => reads ((countsFit_append first second place).mp fit).1
  | some pair =>
    obtain ⟨item, after⟩ := pair
    obtain ⟨fit, here, held, encoded⟩ := reads
    have continued := continues item after here held
    change Follows _ _ _ _ _ _ (rest (item, after))
    cases result : rest (item, after) with
    | none =>
      rw [result] at continued
      exact fun all => continued ((countsFit_append first second place).mp all).2
    | some last =>
      obtain ⟨final, stop⟩ := last
      rw [result] at continued
      obtain ⟨fitAfter, there, heldAfter, encodedAfter⟩ := continued
      refine ⟨(countsFit_append first second place).mpr ⟨fit, fitAfter⟩,
        (endOf_append first second place).symm ▸ there, heldAfter, fun good => ?_⟩
      have inside := there.good.mp good
      have before := le_endOf bytes second (endOf bytes first place)
      obtain ⟨front, front_eq, isFront⟩ := encoded (here.good.mpr (by omega))
      obtain ⟨back, back_eq, isBack⟩ := encodedAfter good
      exact ⟨front ++ back, by rw [front_eq, here.rest, back_eq, List.append_assoc],
        isBack front isFront⟩

theorem Follows.imp {pieces : List Piece} {holds holds' : α → Prop}
    {encodes encodes' : α → List UInt8 → Prop} {outcome : Option (α × Stream)}
    (reads : Follows memory bytes pieces place holds encodes outcome)
    (held : ∀ item, holds item → holds' item)
    (encoded : ∀ item front, holds item → encodes item front → encodes' item front) :
    Follows memory bytes pieces place holds' encodes' outcome := by
  cases outcome with
  | none => exact reads
  | some pair =>
    obtain ⟨fit, here, holding, encoding⟩ := reads
    refine ⟨fit, here, held _ holding, fun good => ?_⟩
    obtain ⟨front, front_eq, isFront⟩ := encoding good
    exact ⟨front, front_eq, encoded _ front holding isFront⟩

theorem Follows.fields {width : Nat} {pieces : List Piece} (front : List UInt8 → Prop)
    {holds : β → Prop} {encodes : β → List UInt8 → Prop} {outcome : Option (β × Stream)}
    {after : Stream} (here : At bytes (place + width) after)
    (encoded : after.good = true → ∃ read, bytes.drop place = read ++ after.rest ∧ front read)
    (continues : Follows memory bytes pieces (place + width) holds
      (fun result back => ∀ read, front read → encodes result (read ++ back)) outcome) :
    Follows memory bytes (.fields width :: pieces) place holds encodes outcome := by
  have reads : Follows memory bytes [.fields width] place (fun _ => True)
      (fun (_ : Unit) read => front read) (some ((), after)) :=
    ⟨⟨trivial, trivial⟩, here, trivial, encoded⟩
  exact @Follows.bind _ _ _ _ _ _ _ _ _ _ _ _ (fun _ => outcome) reads
    fun _ _ _ _ => continues

theorem Follows.number {stream : Stream} (here : At bytes place stream) {pieces : List Piece}
    {holds : β → Prop} {encodes : β → List UInt8 → Prop} {outcome : Option (β × Stream)}
    (width initial : Nat)
    (continues : Follows memory bytes pieces (place + width) holds (fun result back =>
        encodes result (littleEndian width (numberAt bytes place width initial) ++ back))
      outcome) :
    Follows memory bytes (.fields width :: pieces) place holds encodes outcome := by
  have number := here.readNumber_numberAt width initial
  refine Follows.fields
    (fun read => read = littleEndian width (numberAt bytes place width initial))
    (here.readNumber width initial) (fun good => ?_)
    (continues.imp (fun _ held => held) fun _ _ _ encoded _ isRead => isRead ▸ encoded)
  obtain ⟨_, split⟩ := readNumber_good good
  rw [here.rest, number] at split
  exact ⟨_, split, rfl⟩

theorem Follows.item {codec : Codec α} {stream : Stream} (here : At bytes place stream)
    {pieces : List Piece} {holds : β → Prop} {encodes : β → List UInt8 → Prop}
    {outcome : Option (β × Stream)} (initial : α)
    (continues : Follows memory bytes pieces (place + codec.width) holds (fun result back =>
        encodes result (codec.encode (stream.readItem codec initial).1 ++ back)) outcome) :
    Follows memory bytes (.fields codec.width :: pieces) place holds encodes outcome := by
  refine Follows.fields (fun read => read = codec.encode (stream.readItem codec initial).1)
    (here.readItem codec initial) (fun good => ?_)
    (continues.imp (fun _ held => held) fun _ _ _ encoded _ isRead => isRead ▸ encoded)
  obtain ⟨_, split⟩ := readItem_good good
  rw [here.rest] at split
  exact ⟨_, split, rfl⟩

theorem Follows.join {first second : Nat} {pieces : List Piece} {holds : β → Prop}
    {encodes : β → List UInt8 → Prop} {outcome : Option (β × Stream)}
    (reads : Follows memory bytes (.fields first :: .fields second :: pieces) place holds
      encodes outcome) :
    Follows memory bytes (.fields (first + second) :: pieces) place holds encodes outcome := by
  have sameEnd : endOf bytes (.fields (first + second) :: pieces) place =
      endOf bytes (.fields first :: .fields second :: pieces) place := by
    change endOf bytes pieces (place + (first + second)) =
      endOf bytes pieces (place + first + second)
    rw [Nat.add_assoc]
  have sameCounts : CountsFit memory bytes (.fields (first + second) :: pieces) place ↔
      CountsFit memory bytes (.fields first :: .fields second :: pieces) place := by
    change True ∧ CountsFit memory bytes pieces (place + (first + second)) ↔
      True ∧ True ∧ CountsFit memory bytes pieces (place + first + second)
    simp only [Nat.add_assoc, true_and]
  cases outcome with
  | none => exact fun fit => reads (sameCounts.mp fit)
  | some pair => exact ⟨sameCounts.mpr reads.1, sameEnd ▸ reads.2.1, reads.2.2⟩

/-- The arrays behind a count that fits are fields of that many items. -/
theorem Follows.arrays {countWidth width copies initial : Nat} {pieces : List Piece}
    {holds : β → Prop} {encodes : β → List UInt8 → Prop} {outcome : Option (β × Stream)}
    (fits : numberAt bytes place countWidth initial * width ≤ memory)
    (reads : Follows memory bytes (.fields countWidth ::
        .fields (copies * (numberAt bytes place countWidth initial * width)) :: pieces)
      place holds encodes outcome) :
    Follows memory bytes (.arrays countWidth width copies initial :: pieces) place holds
      encodes outcome := by
  cases outcome with
  | none => exact fun all => reads ⟨trivial, trivial, all.2⟩
  | some pair => exact ⟨⟨fits, reads.1.2.2⟩, reads.2⟩

theorem Follows.refused {countWidth width copies initial : Nat} {pieces : List Piece}
    {holds : β → Prop} {encodes : β → List UInt8 → Prop}
    (large : memory < numberAt bytes place countWidth initial * width) :
    Follows memory bytes (.arrays countWidth width copies initial :: pieces) place holds
      encodes none :=
  fun all => absurd all.1 (Nat.not_le.mpr large)

end Follows

end CudaMpqs.ByteStream
