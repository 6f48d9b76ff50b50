import Mathlib.Algebra.Group.Nat.Defs
import CudaMpqs.Foundation.ByteStream

/-! # Fixed-width codecs

Items and arrays of items that a reader finds again in front of any further bytes. -/

namespace CudaMpqs.ByteStream

/-- An encoding in `width` bytes of the items that fit it, one for each string of that
many; `zero` is what a grown array is filled with. -/
structure Codec (α : Type) where
  width : Nat
  zero : α
  encode : α → List UInt8
  decode : List UInt8 → α
  Fits : α → Prop
  length_encode : ∀ item, (encode item).length = width
  decode_encode : ∀ item, Fits item → decode (encode item) = item
  encode_decode : ∀ bytes, bytes.length = width → encode (decode bytes) = bytes

namespace Codec

variable {α : Type} (codec : Codec α)

def encodeAll (items : List α) : List UInt8 := items.flatMap codec.encode

def decodeAll : Nat → List UInt8 → List α
  | 0, _ => []
  | count + 1, bytes =>
    codec.decode (bytes.take codec.width) :: decodeAll count (bytes.drop codec.width)

theorem encodeAll_cons (item : α) (items : List α) :
    codec.encodeAll (item :: items) = codec.encode item ++ codec.encodeAll items := rfl

@[simp] theorem length_encodeAll (items : List α) :
    (codec.encodeAll items).length = items.length * codec.width := by
  induction items with
  | nil => rw [List.length_nil, Nat.zero_mul]; rfl
  | cons item items induction =>
    rw [encodeAll_cons, List.length_append, codec.length_encode, induction,
      List.length_cons, Nat.succ_mul, Nat.add_comm]

@[simp] theorem length_decodeAll (count : Nat) (bytes : List UInt8) :
    (codec.decodeAll count bytes).length = count := by
  induction count generalizing bytes with
  | zero => rfl
  | succ count induction => rw [decodeAll, List.length_cons, induction]

theorem decodeAll_encodeAll {items : List α} (fits : ∀ item ∈ items, codec.Fits item) :
    codec.decodeAll items.length (codec.encodeAll items) = items := by
  induction items with
  | nil => rfl
  | cons item items induction =>
    have width := codec.length_encode item
    rw [List.length_cons, decodeAll, encodeAll_cons, List.take_left' width,
      List.drop_left' width, codec.decode_encode item (fits item List.mem_cons_self),
      induction fun other member => fits other (List.mem_cons_of_mem _ member)]

theorem encodeAll_decodeAll {count : Nat} {bytes : List UInt8}
    (length : bytes.length = count * codec.width) :
    codec.encodeAll (codec.decodeAll count bytes) = bytes := by
  induction count generalizing bytes with
  | zero => exact (List.length_eq_zero_iff.mp (by rw [length, Nat.zero_mul])).symm
  | succ count induction =>
    rw [Nat.succ_mul] at length
    have head := codec.encode_decode (bytes.take codec.width) (by
      rw [List.length_take]
      omega)
    have tail := @induction (bytes.drop codec.width) (by
      rw [List.length_drop]
      omega)
    rw [decodeAll, encodeAll_cons, head, tail, List.take_append_drop]

/-! ## Numbers -/

def number (width : Nat) : Codec Nat where
  width := width
  zero := 0
  encode := littleEndian width
  decode := value
  Fits := (· < 256 ^ width)
  length_encode := length_littleEndian width
  decode_encode := fun _ fits => value_littleEndian fits
  encode_decode := by
    rintro bytes rfl
    exact littleEndian_value bytes

def bits (width : Nat) : Codec (BitVec (8 * width)) where
  width := width
  zero := 0
  encode := fun word => littleEndian width word.toNat
  decode := fun bytes => BitVec.ofNat _ (value bytes)
  Fits := fun _ => True
  length_encode := fun word => length_littleEndian width word.toNat
  decode_encode := by
    intro word _
    have fits : word.toNat < 256 ^ width := by
      have bound := word.isLt
      rwa [Nat.pow_mul] at bound
    rw [value_littleEndian fits, BitVec.ofNat_toNat, BitVec.setWidth_eq]
  encode_decode := by
    rintro bytes rfl
    have bound := value_lt bytes
    rw [BitVec.toNat_ofNat, Nat.pow_mul, Nat.mod_eq_of_lt bound]
    exact littleEndian_value bytes

end Codec

/-! ## Reading items -/

namespace Stream

variable {α : Type}

def readItem (codec : Codec α) (stream : Stream) (initial : α) : α × Stream :=
  let (bytes, after) := stream.read (codec.encode initial)
  (codec.decode bytes, after)

def readItems (codec : Codec α) (stream : Stream) (initial : List α) : List α × Stream :=
  let (bytes, after) := stream.read (codec.encodeAll initial)
  (codec.decodeAll initial.length bytes, after)

theorem readItem_encode (codec : Codec α) {item : α} (fits : codec.Fits item)
    (initial : α) (rest : List UInt8) :
    (ofFile (codec.encode item ++ rest)).readItem codec initial = (item, ofFile rest) := by
  rw [readItem, read_append (by rw [codec.length_encode, codec.length_encode])]
  simp only [codec.decode_encode item fits]

theorem readItems_encodeAll (codec : Codec α) {items initial : List α}
    (fits : ∀ item ∈ items, codec.Fits item) (length : initial.length = items.length)
    (rest : List UInt8) :
    (ofFile (codec.encodeAll items ++ rest)).readItems codec initial = (items, ofFile rest) := by
  rw [readItems, read_append (by rw [codec.length_encodeAll, codec.length_encodeAll, length])]
  simp only [length, codec.decodeAll_encodeAll fits]

/-- A read that the file was long enough for gives the item of the bytes in front. -/
theorem readItem_good {codec : Codec α} {stream : Stream} {initial : α}
    (good : (stream.readItem codec initial).2.good = true) :
    stream.good = true ∧ stream.rest = codec.encode (stream.readItem codec initial).1 ++
      (stream.readItem codec initial).2.rest := by
  obtain ⟨before, length, split⟩ := read_good good
  rw [codec.length_encode] at length
  refine ⟨before, ?_⟩
  change _ = codec.encode (codec.decode (stream.read (codec.encode initial)).1) ++ _
  rw [codec.encode_decode _ length]
  exact split

theorem readItems_good {codec : Codec α} {stream : Stream} {initial : List α}
    (good : (stream.readItems codec initial).2.good = true) :
    stream.good = true ∧ stream.rest = codec.encodeAll (stream.readItems codec initial).1 ++
      (stream.readItems codec initial).2.rest := by
  obtain ⟨before, length, split⟩ := read_good good
  rw [codec.length_encodeAll] at length
  refine ⟨before, ?_⟩
  change _ = codec.encodeAll (codec.decodeAll initial.length
    (stream.read (codec.encodeAll initial)).1) ++ _
  rw [codec.encodeAll_decodeAll length]
  exact split

@[simp] theorem length_readItems (codec : Codec α) (stream : Stream) (initial : List α) :
    (stream.readItems codec initial).1.length = initial.length :=
  codec.length_decodeAll _ _

variable {bytes : List UInt8} {place : Nat} {stream : Stream}

theorem At.readItem (here : At bytes place stream) (codec : Codec α) (initial : α) :
    At bytes (place + codec.width) (stream.readItem codec initial).2 := by
  have after := here.read (codec.encode initial)
  rwa [codec.length_encode] at after

theorem At.readItems (here : At bytes place stream) (codec : Codec α) (initial : List α) :
    At bytes (place + initial.length * codec.width) (stream.readItems codec initial).2 := by
  have after := here.read (codec.encodeAll initial)
  rwa [codec.length_encodeAll] at after

end Stream

end CudaMpqs.ByteStream
