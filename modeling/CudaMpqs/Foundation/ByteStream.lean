import Mathlib.Algebra.Group.Nat.Defs
import Mathlib.Data.List.Basic

/-! # Byte streams

Little-endian numbers and a reader that stops at the end of the file. A read that
runs out of bytes stores those that are left and fails, and so does every read
after it. -/

namespace CudaMpqs.ByteStream

/-! ## Numbers -/

def littleEndian : Nat → Nat → List UInt8
  | 0, _ => []
  | width + 1, number => UInt8.ofNat number :: littleEndian width (number / 256)

def value : List UInt8 → Nat
  | [] => 0
  | byte :: bytes => byte.toNat + 256 * value bytes

@[simp] theorem length_littleEndian (width number : Nat) :
    (littleEndian width number).length = width := by
  induction width generalizing number with
  | zero => rfl
  | succ width induction => rw [littleEndian, List.length_cons, induction]

theorem value_littleEndian {width number : Nat} (fits : number < 256 ^ width) :
    value (littleEndian width number) = number := by
  induction width generalizing number with
  | zero =>
    have none : number = 0 := by simpa using fits
    rw [none]
    rfl
  | succ width induction =>
    rw [Nat.pow_succ] at fits
    have low : (UInt8.ofNat number).toNat = number % 256 := UInt8.toNat_ofNat'
    rw [littleEndian, value, induction (Nat.div_lt_of_lt_mul (by omega)), low]
    omega

theorem value_littleEndian_mod (width number : Nat) :
    value (littleEndian width number) = number % 256 ^ width := by
  induction width generalizing number with
  | zero => simp [littleEndian, value, Nat.mod_one]
  | succ width induction =>
    have low : (UInt8.ofNat number).toNat = number % 256 := UInt8.toNat_ofNat'
    rw [littleEndian, value, induction, low, Nat.pow_succ', Nat.mod_mul]

theorem littleEndian_value (bytes : List UInt8) :
    littleEndian bytes.length (value bytes) = bytes := by
  induction bytes with
  | nil => rfl
  | cons byte bytes induction =>
    have low : (byte.toNat + 256 * value bytes) / 256 = value bytes := by
      have bound := byte.toNat_lt
      omega
    have head : UInt8.ofNat (byte.toNat + 256 * value bytes) = byte := by
      apply UInt8.toNat_inj.mp
      have bound := byte.toNat_lt
      rw [UInt8.toNat_ofNat']
      omega
    rw [List.length_cons, value, littleEndian, low, induction, head]

theorem value_lt (bytes : List UInt8) : value bytes < 256 ^ bytes.length := by
  induction bytes with
  | nil => exact Nat.one_pos
  | cons byte bytes induction =>
    have bound := byte.toNat_lt
    rw [value, List.length_cons, Nat.pow_succ]
    omega

abbrev Word := BitVec 64

def wordBytes (words : List Word) : List UInt8 :=
  words.flatMap fun word => littleEndian 8 word.toNat

def wordsOf : Nat → List UInt8 → List Word
  | 0, _ => []
  | count + 1, bytes =>
    BitVec.ofNat 64 (value (bytes.take 8)) :: wordsOf count (bytes.drop 8)

@[simp] theorem length_wordBytes (words : List Word) :
    (wordBytes words).length = 8 * words.length := by
  induction words with
  | nil => rfl
  | cons word words induction =>
    have split : wordBytes (word :: words) =
        littleEndian 8 word.toNat ++ wordBytes words := rfl
    rw [split, List.length_append, induction, length_littleEndian, List.length_cons]
    omega

theorem wordsOf_wordBytes (words : List Word) : wordsOf words.length (wordBytes words) = words := by
  induction words with
  | nil => rfl
  | cons word words induction =>
    have split : wordBytes (word :: words) =
        littleEndian 8 word.toNat ++ wordBytes words := rfl
    have width := length_littleEndian 8 word.toNat
    have fits : word.toNat < 256 ^ 8 := word.isLt
    rw [List.length_cons, wordsOf, split, List.take_left' width, List.drop_left' width,
      induction, value_littleEndian fits, BitVec.ofNat_toNat, BitVec.setWidth_eq]

@[simp] theorem length_wordsOf (count : Nat) (bytes : List UInt8) :
    (wordsOf count bytes).length = count := by
  induction count generalizing bytes with
  | zero => rfl
  | succ count induction => rw [wordsOf, List.length_cons, induction]

theorem wordBytes_wordsOf {count : Nat} {bytes : List UInt8}
    (length : bytes.length = 8 * count) : wordBytes (wordsOf count bytes) = bytes := by
  induction count generalizing bytes with
  | zero => exact (List.length_eq_zero_iff.mp length).symm
  | succ count induction =>
    have width : (bytes.take 8).length = 8 := by
      rw [List.length_take]
      omega
    have bound : value (bytes.take 8) < 2 ^ 64 := by
      have less := value_lt (bytes.take 8)
      rw [width] at less
      exact Nat.lt_of_lt_of_eq less (by decide)
    have head : littleEndian 8 (BitVec.ofNat 64 (value (bytes.take 8))).toNat =
        bytes.take 8 := by
      rw [BitVec.toNat_ofNat, Nat.mod_eq_of_lt bound]
      nth_rewrite 1 [← width]
      exact littleEndian_value (bytes.take 8)
    have tail := @induction (bytes.drop 8) (by rw [List.length_drop]; omega)
    calc wordBytes (wordsOf (count + 1) bytes)
        = bytes.take 8 ++ bytes.drop 8 := congrArg₂ (· ++ ·) head tail
      _ = bytes := List.take_append_drop 8 bytes

/-! ## The reader -/

structure Stream where
  rest : List UInt8
  good : Bool

namespace Stream

def ofFile (bytes : List UInt8) : Stream := ⟨bytes, true⟩

@[simp] theorem good_ofFile (bytes : List UInt8) : (ofFile bytes).good = true := rfl

@[simp] theorem rest_ofFile (bytes : List UInt8) : (ofFile bytes).rest = bytes := rfl

def read (stream : Stream) (buffer : List UInt8) : List UInt8 × Stream :=
  if stream.good then
    if buffer.length ≤ stream.rest.length then
      (stream.rest.take buffer.length, ⟨stream.rest.drop buffer.length, true⟩)
    else (stream.rest ++ buffer.drop stream.rest.length, ⟨[], false⟩)
  else (buffer, stream)

def readNumber (stream : Stream) (width initial : Nat) : Nat × Stream :=
  let (bytes, after) := stream.read (littleEndian width initial)
  (value bytes, after)

def readWords (stream : Stream) (count : Nat) : List Word × Stream :=
  let (bytes, after) := stream.read (List.replicate (8 * count) 0)
  (wordsOf count bytes, after)

theorem read_append {front : List UInt8} {buffer : List UInt8}
    (length : front.length = buffer.length) (rest : List UInt8) :
    (ofFile (front ++ rest)).read buffer = (front, ofFile rest) := by
  have enough : buffer.length ≤ (front ++ rest).length := by
    rw [List.length_append]
    omega
  rw [read, ofFile, if_pos rfl, if_pos enough, List.take_left' length,
    List.drop_left' length, ofFile]

theorem readNumber_littleEndian {width number : Nat} (fits : number < 256 ^ width)
    (initial : Nat) (rest : List UInt8) :
    (ofFile (littleEndian width number ++ rest)).readNumber width initial =
      (number, ofFile rest) := by
  rw [readNumber, read_append (by simp)]
  simp only [value_littleEndian fits]

theorem readWords_wordBytes (words : List Word) (rest : List UInt8) :
    (ofFile (wordBytes words ++ rest)).readWords words.length = (words, ofFile rest) := by
  rw [readWords, read_append (by simp)]
  simp only [wordsOf_wordBytes]

/-- Bytes that a stream still has behind a read are those that were there, less the ones
read. -/
theorem read_good {stream : Stream} {buffer : List UInt8}
    (good : (stream.read buffer).2.good = true) :
    stream.good = true ∧ (stream.read buffer).1.length = buffer.length ∧
      stream.rest = (stream.read buffer).1 ++ (stream.read buffer).2.rest := by
  unfold read at good ⊢
  split at good
  next before =>
    split at good
    next enough =>
      rw [if_pos before, if_pos enough, List.length_take, List.take_append_drop]
      exact ⟨before, by omega, rfl⟩
    next short => exact absurd good Bool.false_ne_true
  next failed => exact absurd good failed

theorem readNumber_good {stream : Stream} {width initial : Nat}
    (good : (stream.readNumber width initial).2.good = true) :
    stream.good = true ∧ stream.rest = littleEndian width (stream.readNumber width initial).1 ++
        (stream.readNumber width initial).2.rest := by
  obtain ⟨before, length, split⟩ := read_good good
  have bytes := littleEndian_value (stream.read (littleEndian width initial)).1
  rw [length, length_littleEndian] at bytes
  refine ⟨before, ?_⟩
  change _ = littleEndian width (value (stream.read (littleEndian width initial)).1) ++ _
  rw [bytes]
  exact split

def readWordsInto (stream : Stream) (buffer : List Word) : List Word × Stream :=
  let (bytes, after) := stream.read (wordBytes buffer)
  (wordsOf buffer.length bytes, after)

@[simp] theorem length_readWordsInto (stream : Stream) (buffer : List Word) :
    (stream.readWordsInto buffer).1.length = buffer.length :=
  length_wordsOf _ _

structure At (bytes : List UInt8) (place : Nat) (stream : Stream) : Prop where
  rest : stream.rest = bytes.drop place
  good : stream.good = true ↔ place ≤ bytes.length

theorem At.ofFile (bytes : List UInt8) : At bytes 0 (ofFile bytes) :=
  ⟨rfl, iff_of_true rfl (Nat.zero_le _)⟩

variable {bytes : List UInt8} {place : Nat} {stream : Stream}

theorem At.read (here : At bytes place stream) (buffer : List UInt8) :
    At bytes (place + buffer.length) (stream.read buffer).2 := by
  have remaining : stream.rest.length = bytes.length - place := by
    rw [here.rest, List.length_drop]
  unfold Stream.read
  split
  next good =>
    have inside := here.good.mp good
    split
    next enough =>
      refine ⟨?_, iff_of_true rfl (by omega)⟩
      rw [here.rest, List.drop_drop]
    next short =>
      refine ⟨(List.drop_eq_nil_of_le (by omega)).symm, iff_of_false Bool.false_ne_true ?_⟩
      omega
  next failed =>
    have beyond : ¬ place ≤ bytes.length := fun inside => failed (here.good.mpr inside)
    refine ⟨?_, iff_of_false failed (by omega)⟩
    rw [here.rest, List.drop_eq_nil_of_le (by omega), List.drop_eq_nil_of_le (by omega)]

theorem At.read_eq (here : At bytes place stream) {buffer : List UInt8}
    (enough : place + buffer.length ≤ bytes.length) :
    (stream.read buffer).1 = (bytes.drop place).take buffer.length := by
  have good := here.good.mpr (by omega)
  rw [Stream.read, if_pos good, here.rest, if_pos (by rw [List.length_drop]; omega)]

def overlay (bytes : List UInt8) (place : Nat) (buffer : List UInt8) : List UInt8 :=
  (bytes.drop place).take buffer.length ++ buffer.drop (bytes.length - place)

def numberAt (bytes : List UInt8) (place width initial : Nat) : Nat :=
  value (overlay bytes place (littleEndian width initial))

@[simp] theorem length_overlay (bytes : List UInt8) (place : Nat) (buffer : List UInt8) :
    (overlay bytes place buffer).length = buffer.length := by
  rw [overlay, List.length_append, List.length_take, List.length_drop, List.length_drop]
  omega

theorem numberAt_lt (bytes : List UInt8) (place width initial : Nat) :
    numberAt bytes place width initial < 256 ^ width := by
  have bound := value_lt (overlay bytes place (littleEndian width initial))
  rwa [length_overlay, length_littleEndian] at bound

theorem At.read_overlay (here : At bytes place stream) (buffer : List UInt8) :
    (stream.read buffer).1 = overlay bytes place buffer := by
  have remaining : stream.rest.length = bytes.length - place := by
    rw [here.rest, List.length_drop]
  unfold Stream.read overlay
  split
  next good =>
    split
    next enough =>
      have full : buffer.drop (bytes.length - place) = [] :=
        List.drop_eq_nil_of_le (by omega)
      rw [here.rest, full, List.append_nil]
    next short =>
      rw [remaining, here.rest, List.take_of_length_le (by rw [List.length_drop]; omega)]
  next failed =>
    have beyond : ¬ place ≤ bytes.length := fun inside => failed (here.good.mpr inside)
    rw [List.drop_eq_nil_of_le (by omega), List.take_nil, List.nil_append,
      Nat.sub_eq_zero_of_le (by omega), List.drop_zero]

theorem At.readNumber_numberAt (here : At bytes place stream) (width initial : Nat) :
    (stream.readNumber width initial).1 = numberAt bytes place width initial :=
  congrArg value (here.read_overlay _)

theorem At.readNumber (here : At bytes place stream) (width initial : Nat) :
    At bytes (place + width) (stream.readNumber width initial).2 := by
  have after := here.read (littleEndian width initial)
  rwa [length_littleEndian] at after

theorem At.readNumber_eq (here : At bytes place stream) {width : Nat} (initial : Nat)
    (enough : place + width ≤ bytes.length) :
    (stream.readNumber width initial).1 = value ((bytes.drop place).take width) := by
  have read := @At.read_eq _ _ _ here (littleEndian width initial)
    (by rwa [length_littleEndian])
  rw [length_littleEndian] at read
  exact congrArg value read

theorem At.readWordsInto (here : At bytes place stream) (buffer : List Word) :
    At bytes (place + 8 * buffer.length) (stream.readWordsInto buffer).2 := by
  have after := here.read (wordBytes buffer)
  rwa [length_wordBytes] at after

theorem At.readWordsInto_eq (here : At bytes place stream) {buffer : List Word}
    (enough : place + 8 * buffer.length ≤ bytes.length) :
    wordBytes (stream.readWordsInto buffer).1 = (bytes.drop place).take (8 * buffer.length) := by
  have read := @At.read_eq _ _ _ here (wordBytes buffer) (by rwa [length_wordBytes])
  rw [length_wordBytes] at read
  change wordBytes (wordsOf buffer.length (stream.read (wordBytes buffer)).1) = _
  rw [read]
  apply wordBytes_wordsOf
  rw [List.length_take, List.length_drop]
  omega

/-- A read that runs out of bytes leaves the array as it was exactly if it held those
bytes already. -/
theorem At.readWordsInto_eq_self_iff (here : At bytes place stream) {buffer : List Word}
    (short : bytes.length < place + 8 * buffer.length) :
    (stream.readWordsInto buffer).1 = buffer ↔ bytes.drop place <+: wordBytes buffer := by
  have injective : ∀ {read : List UInt8}, read.length = 8 * buffer.length →
      (wordsOf buffer.length read = buffer ↔ read = wordBytes buffer) := by
    intro read length
    constructor
    · intro same
      rw [← wordBytes_wordsOf length, same]
    · rintro rfl
      exact wordsOf_wordBytes buffer
  have remaining : stream.rest.length = bytes.length - place := by
    rw [here.rest, List.length_drop]
  change wordsOf buffer.length (stream.read (wordBytes buffer)).1 = buffer ↔ _
  unfold Stream.read
  split
  next good =>
    have inside := here.good.mp good
    rw [if_neg (by rw [length_wordBytes]; omega), injective (by
      rw [List.length_append, List.length_drop, length_wordBytes]
      omega), ← here.rest]
    constructor
    · intro same
      exact ⟨_, same⟩
    · rintro ⟨rest, whole⟩
      rw [← whole, List.drop_left]
  next failed =>
    have beyond : ¬ place ≤ bytes.length := fun inside => failed (here.good.mpr inside)
    rw [List.drop_eq_nil_of_le (by omega)]
    exact iff_of_true (wordsOf_wordBytes buffer) List.nil_prefix

end Stream

end CudaMpqs.ByteStream
