import CudaMpqs.Lingen.CheckpointFiles

/-! # What the checkpoint loaders leave to their caller

`load_sequence`, `load_polynomial` and `load_solutions` with the variables of their
caller: what they hold when the loader returns true, and when it returns false. The
expected dimensions are the values of `int`s that are not negative. -/

namespace CudaMpqs.Lingen.BWIOSystem

open ByteStream Stream

/-! ## Exact loads -/

/-- True with what was saved, or false with the caller's output as it was. -/
def Exact {Output : Type} (saved : Output → Prop) (output : Output) : Outcome Output → Prop
  | .returned true found => saved found
  | .returned false left => left = output
  | .threw => False

def legacySequence (words : List Word) (len block : Nat) : List UInt8 :=
  u32 MAGIC_SEQ ++ (u32 len ++ (u32 block ++ wordBytes words))

def SequenceSaved (file : Option (List UInt8)) (m n : Nat) (output : Coefficients) : Prop :=
  file = some (saveSequence output.words output.len m n).2 ∨
    m = n ∧ file = some (legacySequence output.words output.len m)

def PolynomialSaved (file : Option (List UInt8)) (dim : Nat) (output : Coefficients) : Prop :=
  file = some (savePolynomial output.words output.len dim dim).2

def SolutionsSaved (files : Files) (rows m n : Nat) (solutions : List (List Word)) : Prop :=
  files .solMeta = some (saveSolutionsMeta solutions.length rows m n).2 ∧
    ∀ i (inside : i < solutions.length),
      files (.sol i) = some (saveSingleSolution (.sol i) solutions[i] rows).2

/-! ## Headers -/

@[simp] theorem length_u32 (number : Nat) : (u32 number).length = 4 :=
  length_littleEndian 4 number

@[simp] theorem length_resize (words : List Word) (count : Nat) :
    (resize words count).length = count := by
  rw [resize, List.length_append, List.length_take, List.length_replicate]
  omega

theorem u32_readNumber {bytes : List UInt8} {place : Nat} {stream : Stream}
    (here : At bytes place stream) (initial : Nat) (enough : place + 4 ≤ bytes.length) :
    u32 (stream.readNumber 4 initial).1 = (bytes.drop place).take 4 := by
  have width : ((bytes.drop place).take 4).length = 4 := by
    rw [List.length_take, List.length_drop]
    omega
  rw [here.readNumber_eq initial enough, u32]
  nth_rewrite 1 [← width]
  exact littleEndian_value _

theorem take_add_four (bytes : List UInt8) (place : Nat) :
    bytes.take (place + 4) = bytes.take place ++ (bytes.drop place).take 4 :=
  List.take_add

structure ReadHeader (bytes : List UInt8) (header : Header) (magic : Nat)
    (fields : List UInt8) : Prop where
  payload : At bytes header.size header.payload
  front : 4 ≤ bytes.length → bytes.take 4 = u32 magic
  whole : header.size ≤ bytes.length → bytes.take header.size = u32 magic ++ fields

theorem sequenceHeader_cases {before : Uninitialised} {bytes : List UInt8} {header : Header}
    (found : sequenceHeader before bytes = some header) :
    header.size = 16 ∧ ReadHeader bytes header MAGIC_SEQ2
        (u32 header.len ++ (u32 header.rows ++ u32 header.cols)) ∨
      header.size = 12 ∧ header.rows = header.cols ∧ ReadHeader bytes header MAGIC_SEQ
        (u32 header.len ++ u32 header.rows) := by
  have start := At.ofFile bytes
  have first := start.readNumber 4 before.magic
  have second := first.readNumber 4 before.len
  have third := second.readNumber 4 before.m
  have fourth := third.readNumber 4 before.n
  have magic := u32_readNumber start before.magic
  have len := u32_readNumber first before.len
  have rows := u32_readNumber second before.m
  have cols := u32_readNumber third before.n
  unfold sequenceHeader at found
  simp only at found
  split at found
  next seq2 =>
    left
    cases found
    rw [seq2] at magic
    refine ⟨rfl, fourth, fun enough => (magic enough).symm, fun enough => ?_⟩
    change bytes.take (0 + 4 + 4 + 4 + 4) = _
    change 16 ≤ bytes.length at enough
    rw [take_add_four, take_add_four, take_add_four, take_add_four, ← cols (by omega),
      ← rows (by omega), ← len (by omega), ← magic (by omega)]
    simp
  next =>
    split at found
    next seq =>
      right
      cases found
      rw [seq] at magic
      refine ⟨rfl, rfl, third, fun enough => (magic enough).symm, fun enough => ?_⟩
      change bytes.take (0 + 4 + 4 + 4) = _
      change 12 ≤ bytes.length at enough
      rw [take_add_four, take_add_four, take_add_four, ← rows (by omega), ← len (by omega),
        ← magic (by omega)]
      simp
    next => cases found

theorem polynomialHeader_read {bytes : List UInt8} {header : Header}
    (found : polynomialHeader bytes = some header) :
    header.size = 16 ∧ ReadHeader bytes header MAGIC_POLY
      (u32 header.len ++ (u32 header.rows ++ u32 header.cols)) := by
  have start := At.ofFile bytes
  have first := start.readNumber 4 0
  have second := first.readNumber 4 0
  have third := second.readNumber 4 0
  have fourth := third.readNumber 4 0
  have magic := u32_readNumber start 0
  have len := u32_readNumber first 0
  have rows := u32_readNumber second 0
  have cols := u32_readNumber third 0
  unfold polynomialHeader at found
  simp only at found
  split at found
  next => cases found
  next poly =>
    cases found
    rw [not_not.mp poly] at magic
    refine ⟨rfl, fourth, fun enough => (magic enough).symm, fun enough => ?_⟩
    change bytes.take (0 + 4 + 4 + 4 + 4) = _
    change 16 ≤ bytes.length at enough
    rw [take_add_four, take_add_four, take_add_four, take_add_four, ← cols (by omega),
      ← rows (by omega), ← len (by omega), ← magic (by omega)]
    simp

/-! ## The bytes of a saved file -/

theorem eq_saved_iff {bytes fields : List UInt8} {words : List Word} {size : Nat}
    (width : fields.length = size) (front : size ≤ bytes.length → bytes.take size = fields)
    (payload : size + 8 * words.length ≤ bytes.length →
      wordBytes words = (bytes.drop size).take (8 * words.length)) :
    bytes = fields ++ wordBytes words ↔ bytes.length = size + 8 * words.length := by
  constructor
  · intro whole
    rw [whole, List.length_append, width, length_wordBytes]
  · intro length
    have rest : (bytes.drop size).take (8 * words.length) = bytes.drop size :=
      List.take_of_length_le (by rw [List.length_drop]; omega)
    rw [← front (by omega), payload (Nat.le_of_eq length.symm), rest, List.take_append_drop]

theorem saveSequence_bytes (words : List Word) (len rows cols : Nat) :
    (saveSequence words len rows cols).2 =
      (u32 MAGIC_SEQ2 ++ (u32 len ++ (u32 rows ++ u32 cols))) ++ wordBytes words := by
  simp [saveSequence]

theorem savePolynomial_bytes (words : List Word) (len rows cols : Nat) :
    (savePolynomial words len rows cols).2 =
      (u32 MAGIC_POLY ++ (u32 len ++ (u32 rows ++ u32 cols))) ++ wordBytes words := by
  simp [savePolynomial]

theorem legacySequence_bytes (words : List Word) (len block : Nat) :
    legacySequence words len block =
      (u32 MAGIC_SEQ ++ (u32 len ++ u32 block)) ++ wordBytes words := by
  simp [legacySequence]

theorem take_four_u32 (magic : Nat) (rest : List UInt8) : (u32 magic ++ rest).take 4 = u32 magic :=
  List.take_left' (length_u32 magic)

theorem u32_magic_ne : u32 MAGIC_SEQ2 ≠ u32 MAGIC_SEQ := by decide

section Loads

variable {heap : Heap} {output : Coefficients} {bytes : List UInt8} {header : Header}

theorem length_readPayload (header : Header) (output : Coefficients) (totalWords : Nat) :
    (readPayload header output totalWords).1.words.length = totalWords := by
  change (header.payload.readWordsInto (resize output.words totalWords)).1.length = _
  rw [length_readWordsInto, length_resize]

theorem ReadHeader.eq_saved_iff {magic : Nat} {fields : List UInt8}
    (read : ReadHeader bytes header magic fields)
    (width : (u32 magic ++ fields).length = header.size) (output : Coefficients)
    (totalWords : Nat) :
    bytes = (u32 magic ++ fields) ++ wordBytes (readPayload header output totalWords).1.words ↔
      bytes.length = header.size + 8 * totalWords := by
  have length := length_readPayload header output totalWords
  rw [BWIOSystem.eq_saved_iff width read.whole, length]
  rw [length]
  intro enough
  have words := @At.readWordsInto_eq _ _ _ read.payload (resize output.words totalWords)
    (by rwa [length_resize])
  rwa [length_resize] at words

/-! ## The sequence -/

/-- A file whose header is accepted is as long as its header says, and the vector can
be made so long. -/
def SequenceWhole (heap : Heap) (before : Uninitialised) (file : Option (List UInt8))
    (output : Coefficients) (mExpected nExpected : Nat) : Prop :=
  ∀ bytes header, file = some bytes → sequenceHeader before bytes = some header →
    header.rows = mExpected → header.cols = nExpected →
      Grants heap 0 output.words.length (sequenceWords header) ∧
        bytes.length = header.size + 8 * sequenceWords header

theorem sequenceSaved_iff {before : Uninitialised}
    (found : sequenceHeader before bytes = some header) :
    SequenceSaved (some bytes) header.rows header.cols
        (readPayload header output (sequenceWords header)).1 ↔
      bytes.length = header.size + 8 * sequenceWords header := by
  rw [SequenceSaved, Option.some_inj, Option.some_inj, saveSequence_bytes, legacySequence_bytes]
  rcases sequenceHeader_cases found with ⟨size, read⟩ | ⟨size, square, read⟩
  · rw [← read.eq_saved_iff (by rw [size]; rfl) output]
    constructor
    · rintro (new | ⟨_, legacy⟩)
      · exact new
      · have front := read.front (by rw [legacy]; simp)
        rw [legacy, List.append_assoc, take_four_u32] at front
        exact absurd front.symm u32_magic_ne
    · exact Or.inl
  · rw [← read.eq_saved_iff (by rw [size]; rfl) output]
    constructor
    · rintro (new | ⟨_, legacy⟩)
      · have front := read.front (by rw [new]; simp)
        rw [new, List.append_assoc, take_four_u32] at front
        exact absurd front u32_magic_ne
      · exact legacy
    · exact fun legacy => Or.inr ⟨square, legacy⟩

theorem forall_header_iff {parse : List UInt8 → Option Header}
    (found : parse bytes = some header) (holds : List UInt8 → Header → Prop) :
    (∀ other header', some bytes = some other → parse other = some header' →
      holds other header') ↔ holds bytes header := by
  constructor
  · exact fun every => every bytes header rfl found
  · intro here other header' same parsed
    cases same
    rw [found] at parsed
    cases parsed
    exact here

theorem loadSequence_exact_iff (before : Uninitialised) (file : Option (List UInt8))
    (mExpected nExpected : Nat) :
    Exact (SequenceSaved file mExpected nExpected) output
        (loadSequence heap before file output mExpected nExpected) ↔
      SequenceWhole heap before file output mExpected nExpected := by
  unfold SequenceWhole
  cases file with
  | none =>
    refine iff_of_true rfl fun bytes header missing => ?_
    cases missing
  | some bytes =>
    cases found : sequenceHeader before bytes with
    | none =>
      simp only [loadSequence, found]
      refine iff_of_true rfl fun other header same => ?_
      rw [← Option.some_inj.mp same, found]
      intro missing
      cases missing
    | some header =>
      rw [forall_header_iff found fun bytes header =>
        header.rows = mExpected → header.cols = nExpected →
          Grants heap 0 output.words.length (sequenceWords header) ∧
            bytes.length = header.size + 8 * sequenceWords header]
      simp only [loadSequence, found]
      by_cases refused : header.rows ≠ mExpected ∨ header.cols ≠ nExpected
      · rw [if_pos refused]
        exact iff_of_true rfl fun rows cols => absurd refused (by simp [rows, cols])
      · rw [if_neg refused]
        rw [not_or, not_not, not_not] at refused
        rcases refused with ⟨rfl, rfl⟩
        by_cases granted : Grants heap 0 output.words.length (sequenceWords header)
        · rw [if_pos granted]
          exact (sequenceSaved_iff found).trans
            ⟨fun length _ _ => ⟨granted, length⟩, fun whole => (whole rfl rfl).2⟩
        · rw [if_neg granted]
          exact iff_of_false id fun whole => granted (whole rfl rfl).1

/-! ## The generator -/

/-- The caller holds already what a load of too short a file would leave. -/
structure HeldAlready (bytes : List UInt8) (header : Header) (output : Coefficients)
    (totalWords : Nat) : Prop where
  short : bytes.length < 16 + 8 * totalWords
  len : output.len = header.len
  length : output.words.length = totalWords
  front : bytes.drop 16 <+: wordBytes output.words

/-- A file whose header is accepted is as long as its header says, or what a shorter one
has is there already; and the vector can be made so long. -/
def PolynomialWhole (heap : Heap) (file : Option (List UInt8)) (output : Coefficients)
    (dimExpected : Nat) : Prop :=
  ∀ bytes header, file = some bytes → polynomialHeader bytes = some header →
    header.rows = dimExpected → header.cols = dimExpected →
      Grants heap 0 output.words.length (polynomialWords header dimExpected) ∧
        (bytes.length = 16 + 8 * polynomialWords header dimExpected ∨
          HeldAlready bytes header output (polynomialWords header dimExpected))

private theorem resize_self (words : List Word) : resize words words.length = words := by
  simp [resize]

private theorem readPayload_eq_self_iff (found : polynomialHeader bytes = some header)
    {totalWords : Nat} (short : bytes.length < 16 + 8 * totalWords) :
    (readPayload header output totalWords).1 = output ↔
      HeldAlready bytes header output totalWords := by
  rcases polynomialHeader_read found with ⟨size, read⟩
  have payload := read.payload
  rw [size] at payload
  constructor
  · intro same
    have length : output.words.length = totalWords := by
      rw [← length_readPayload header output totalWords, same]
    have len : output.len = header.len := by
      rw [← same]
      rfl
    have words : (header.payload.readWordsInto (resize output.words totalWords)).1 =
        output.words :=
      congrArg Coefficients.words same
    rw [← length, resize_self] at words
    rw [← length] at short
    exact ⟨by rwa [← length], len, length, (payload.readWordsInto_eq_self_iff short).mp words⟩
  · rintro ⟨_, len, rfl, front⟩
    have words := (payload.readWordsInto_eq_self_iff short).mpr front
    rw [readPayload, resize_self]
    simp only [words, ← len]

theorem loadPolynomial_exact_iff (file : Option (List UInt8)) (dimExpected : Nat) :
    Exact (PolynomialSaved file dimExpected) output (loadPolynomial heap file output dimExpected) ↔
      PolynomialWhole heap file output dimExpected := by
  unfold PolynomialWhole
  cases file with
  | none =>
    refine iff_of_true rfl fun bytes header missing => ?_
    cases missing
  | some bytes =>
    cases found : polynomialHeader bytes with
    | none =>
      simp only [loadPolynomial, found]
      refine iff_of_true rfl fun other header same => ?_
      rw [← Option.some_inj.mp same, found]
      intro missing
      cases missing
    | some header =>
      rw [forall_header_iff found fun bytes header =>
        header.rows = dimExpected → header.cols = dimExpected →
          Grants heap 0 output.words.length (polynomialWords header dimExpected) ∧
            (bytes.length = 16 + 8 * polynomialWords header dimExpected ∨
              HeldAlready bytes header output (polynomialWords header dimExpected))]
      simp only [loadPolynomial, found]
      by_cases refused : header.rows ≠ dimExpected ∨ header.cols ≠ dimExpected
      · rw [if_pos refused]
        exact iff_of_true rfl fun rows cols => absurd refused (by simp [rows, cols])
      · rw [if_neg refused]
        rw [not_or, not_not, not_not] at refused
        rcases refused with ⟨rows, cols⟩
        generalize total : polynomialWords header dimExpected = totalWords
        by_cases granted : Grants heap 0 output.words.length totalWords
        · rw [if_pos granted]
          have reduce : (header.rows = dimExpected → header.cols = dimExpected →
              Grants heap 0 output.words.length totalWords ∧
                (bytes.length = 16 + 8 * totalWords ∨
                  HeldAlready bytes header output totalWords)) ↔
              bytes.length = 16 + 8 * totalWords ∨
                HeldAlready bytes header output totalWords :=
            ⟨fun whole => (whole rows cols).2, fun length _ _ => ⟨granted, length⟩⟩
          rw [reduce]
          rcases polynomialHeader_read found with ⟨size, read⟩
          have after := read.payload.readWordsInto (resize output.words totalWords)
          rw [length_resize, size] at after
          cases good : (readPayload header output totalWords).2.good with
          | true =>
            have enough := after.good.mp good
            have saved := read.eq_saved_iff (by rw [size]; rfl) output totalWords
            rw [size, rows, cols, ← savePolynomial_bytes] at saved
            exact (Option.some_inj.trans saved).trans
              ⟨Or.inl, fun whole => whole.resolve_right fun held =>
                absurd held.short (Nat.not_lt.mpr enough)⟩
          | false =>
            have short : bytes.length < 16 + 8 * totalWords := by
              by_contra enough
              have passed := after.good.mpr (Nat.not_lt.mp enough)
              exact absurd (good.symm.trans passed) Bool.false_ne_true
            exact (readPayload_eq_self_iff found short).trans
              ⟨Or.inr, fun whole => whole.resolve_left (Nat.ne_of_lt short)⟩
        · rw [if_neg granted]
          exact iff_of_false id fun whole => granted (whole rows cols).1

end Loads

/-! ## The solutions -/

section Solutions

variable {heap : Heap} {files : Files} {solutions : List (List Word)} {rows : Nat}

/-- File `i` is missing, or its header is refused, or it is too short. -/
def Refused (heap : Heap) (files : Files) (rows i : Nat) : Prop :=
  ∀ bytes, files (.sol i) = some bytes → solutionPayload rows bytes = none ∨
      Grants heap (i + 1) 0 (wordsPerRow rows) ∧ bytes.length < 12 + 8 * wordsPerRow rows

def WholeSolution (files : Files) (rows i : Nat) : Prop :=
  ∃ bytes, files (.sol i) = some bytes ∧ solutionPayload rows bytes ≠ none ∧
    bytes.length = 12 + 8 * wordsPerRow rows ∧ (bytes.drop 8).take 4 = u32 1

theorem solutionPayload_read {bytes : List UInt8} {f : Stream}
    (found : solutionPayload rows bytes = some f) :
    At bytes 12 f ∧ 12 ≤ bytes.length ∧
      bytes.take 12 = u32 MAGIC_SOL ++ (u32 rows ++ (bytes.drop 8).take 4) := by
  have start := At.ofFile bytes
  have first := start.readNumber 4 0
  have second := first.readNumber 4 0
  have third := second.readNumber 4 0
  have magic := u32_readNumber start 0
  have height := u32_readNumber first 0
  unfold solutionPayload at found
  simp only at found
  split at found
  next => cases found
  next accepted =>
    rw [not_or, not_or, not_not, not_not, not_not] at accepted
    rcases accepted with ⟨good, isMagic, isRows⟩
    have enough := third.good.mp good
    cases found
    refine ⟨third, enough, ?_⟩
    rw [isMagic] at magic
    rw [isRows] at height
    change bytes.take (0 + 4 + 4 + 4) = _
    rw [take_add_four, take_add_four, take_add_four, ← height (by omega), ← magic (by omega)]
    simp

def TakesOver (files : Files) (rows i : Nat) (words : List Word) : Prop :=
  ∃ bytes, files (.sol i) = some bytes ∧ solutionPayload rows bytes ≠ none ∧
    bytes.take 12 = u32 MAGIC_SOL ++ (u32 rows ++ (bytes.drop 8).take 4) ∧
    words.length = wordsPerRow rows ∧
    wordBytes words = (bytes.drop 12).take (8 * wordsPerRow rows) ∧
    12 + 8 * wordsPerRow rows ≤ bytes.length

private theorem readWords_eq_readWordsInto (f : Stream) (count : Nat) :
    f.readWords count = f.readWordsInto (List.replicate count 0) := by
  have zeros : ∀ count, wordBytes (List.replicate count (0 : Word)) =
      List.replicate (8 * count) 0 := by
    intro count
    induction count with
    | zero => rfl
    | succ count induction =>
      have split : wordBytes (List.replicate (count + 1) (0 : Word)) =
          List.replicate 8 0 ++ wordBytes (List.replicate count (0 : Word)) := rfl
      rw [split, induction, List.replicate_append_replicate]
      congr 1
      omega
  rw [readWords, readWordsInto, zeros, List.length_replicate]

theorem turn_cases (heap : Heap) (files : Files) (rows i : Nat) :
    Refused heap files rows i ∧ (∀ solutions left loaded,
        solutionLoop heap files solutions rows (left + 1) i loaded = .returned false solutions) ∨
      ¬ Refused heap files rows i ∧ ¬ Grants heap (i + 1) 0 (wordsPerRow rows) ∧
        (∀ solutions left loaded,
          solutionLoop heap files solutions rows (left + 1) i loaded = .threw) ∨
      ¬ Refused heap files rows i ∧ Grants heap (i + 1) 0 (wordsPerRow rows) ∧
        ∃ words, TakesOver files rows i words ∧ ∀ solutions left loaded,
          solutionLoop heap files solutions rows (left + 1) i loaded =
            solutionLoop heap files solutions rows left (i + 1) (loaded ++ [words]) := by
  cases file : files (.sol i) with
  | none =>
    left
    refine ⟨fun bytes there => absurd (file.symm.trans there) (Option.some_ne_none bytes).symm,
      fun solutions left loaded => ?_⟩
    rw [solutionLoop, file]
  | some bytes =>
    have refused_iff : Refused heap files rows i ↔ solutionPayload rows bytes = none ∨
        Grants heap (i + 1) 0 (wordsPerRow rows) ∧
          bytes.length < 12 + 8 * wordsPerRow rows := by
      constructor
      · exact fun refused => refused bytes file
      · intro here other there
        cases file.symm.trans there
        exact here
    cases payload : solutionPayload rows bytes with
    | none =>
      left
      refine ⟨refused_iff.mpr (Or.inl payload), fun solutions left loaded => ?_⟩
      simp only [solutionLoop, file, payload]
    | some f =>
      have accepted : solutionPayload rows bytes ≠ none := by
        rw [payload]
        exact Option.some_ne_none f
      rcases solutionPayload_read payload with ⟨here, _, front⟩
      by_cases granted : Grants heap (i + 1) 0 (wordsPerRow rows)
      · have after := here.readWordsInto (List.replicate (wordsPerRow rows) 0)
        have words := @At.readWordsInto_eq _ _ _ here (List.replicate (wordsPerRow rows) 0)
        rw [List.length_replicate, ← readWords_eq_readWordsInto] at after words
        by_cases enough : 12 + 8 * wordsPerRow rows ≤ bytes.length
        · right
          right
          refine ⟨fun refused => ?_, granted, (f.readWords (wordsPerRow rows)).1, ?_, ?_⟩
          · rcases refused_iff.mp refused with none_ | ⟨_, short⟩
            · exact accepted none_
            · exact absurd short (Nat.not_lt.mpr enough)
          · refine ⟨bytes, file, accepted, front, ?_, words enough, enough⟩
            rw [readWords_eq_readWordsInto, length_readWordsInto, List.length_replicate]
          · intro solutions left loaded
            simp only [solutionLoop, file, payload, if_pos granted,
              if_pos (after.good.mpr enough)]
        · left
          refine ⟨refused_iff.mpr (Or.inr ⟨granted, Nat.not_le.mp enough⟩),
            fun solutions left loaded => ?_⟩
          simp only [solutionLoop, file, payload, if_pos granted,
            if_neg fun good => enough (after.good.mp good)]
      · right
        left
        refine ⟨fun refused => ?_, granted, fun solutions left loaded => ?_⟩
        · rcases refused_iff.mp refused with none_ | ⟨grants, _⟩
          · exact accepted none_
          · exact granted grants
        · simp only [solutionLoop, file, payload, if_neg granted]

/-- What the whole loop does: it meets a refused file, or memory it does not get, or it
takes every file over. -/
theorem solutionLoop_cases (heap : Heap) (files : Files) (solutions : List (List Word))
    (rows left i : Nat) (loaded : List (List Word)) :
    solutionLoop heap files solutions rows left i loaded = .returned false solutions ∧
        (∃ k < left, Refused heap files rows (i + k) ∧
          ∀ j < k, Grants heap (i + j + 1) 0 (wordsPerRow rows)) ∨
      solutionLoop heap files solutions rows left i loaded = .threw ∧
        (∃ k < left, ¬ Grants heap (i + k + 1) 0 (wordsPerRow rows) ∧
          ∀ j ≤ k, ¬ Refused heap files rows (i + j)) ∨
      ∃ new, solutionLoop heap files solutions rows left i loaded =
          .returned true (loaded ++ new) ∧ new.length = left ∧
        ∀ k (inside : k < new.length), ¬ Refused heap files rows (i + k) ∧
          Grants heap (i + k + 1) 0 (wordsPerRow rows) ∧ TakesOver files rows (i + k) new[k] := by
  induction left generalizing i loaded with
  | zero =>
    right
    right
    exact ⟨[], by rw [solutionLoop, List.append_nil], rfl, fun k inside =>
      absurd inside (Nat.not_lt_zero k)⟩
  | succ left induction =>
    rcases turn_cases heap files rows i with
      ⟨refused, stop⟩ | ⟨open_, denied, stop⟩ | ⟨open_, granted, words, taken, next⟩
    · left
      exact ⟨stop solutions left loaded, 0, Nat.succ_pos left, refused,
        fun j less => absurd less (Nat.not_lt_zero j)⟩
    · right
      left
      refine ⟨stop solutions left loaded, 0, Nat.succ_pos left, denied, fun j less => ?_⟩
      rw [Nat.le_zero.mp less]
      exact open_
    · rw [next solutions left loaded]
      have shift : ∀ k, i + 1 + k = i + (k + 1) := fun k => by omega
      rcases induction (i + 1) (loaded ++ [words]) with
        ⟨ends, k, inside, refused, grants⟩ | ⟨ends, k, inside, denied, opens⟩ |
          ⟨new, ends, length, takes⟩
      · left
        refine ⟨ends, k + 1, by omega, by rwa [← shift], fun j less => ?_⟩
        cases j with
        | zero => exact granted
        | succ j =>
          rw [← shift]
          exact grants j (by omega)
      · right
        left
        refine ⟨ends, k + 1, by omega, by rwa [← shift], fun j less => ?_⟩
        cases j with
        | zero => exact open_
        | succ j =>
          rw [← shift]
          exact opens j (by omega)
      · right
        right
        refine ⟨words :: new, ?_, by rw [List.length_cons, length], fun k inside => ?_⟩
        · rw [ends, List.append_assoc, List.singleton_append]
        · cases k with
          | zero => exact ⟨open_, granted, taken⟩
          | succ k =>
            rw [← shift, List.getElem_cons_succ]
            exact takes k (Nat.lt_of_succ_lt_succ inside)

theorem solutionSaved_iff {i : Nat} {words : List Word} (taken : TakesOver files rows i words) :
    files (.sol i) = some (saveSingleSolution (.sol i) words rows).2 ↔
      WholeSolution files rows i := by
  rcases taken with ⟨bytes, file, accepted, front, length, payload, enough⟩
  have columns : ((bytes.drop 8).take 4).length = 4 := by
    rw [List.length_take, List.length_drop]
    omega
  have saved : ∀ column : List UInt8, column.length = 4 →
      (bytes = (u32 MAGIC_SOL ++ (u32 rows ++ column)) ++ wordBytes words ↔
        column = (bytes.drop 8).take 4 ∧ bytes.length = 12 + 8 * words.length) := by
    intro column width
    have size : (u32 MAGIC_SOL ++ (u32 rows ++ column)).length = 12 := by
      rw [List.length_append, List.length_append, length_u32, length_u32, width]
    constructor
    · intro whole
      constructor
      · rw [whole, List.append_assoc, List.append_assoc, ← List.append_assoc,
          List.drop_left' (by rw [List.length_append, length_u32, length_u32]),
          List.take_left' width]
      · rw [whole, List.length_append, size, length_wordBytes]
    · rintro ⟨rfl, ends⟩
      rw [length] at ends
      refine (eq_saved_iff size (fun _ => front) fun _ => ?_).mpr (by rw [length]; exact ends)
      rw [length]
      exact payload
  have bytes_iff := saved (u32 1) (length_u32 1)
  have form : (saveSingleSolution (.sol i) words rows).2 =
      (u32 MAGIC_SOL ++ (u32 rows ++ u32 1)) ++ wordBytes words := by
    simp [saveSingleSolution]
  rw [file, Option.some_inj, form, bytes_iff, length]
  constructor
  · rintro ⟨column, ends⟩
    exact ⟨bytes, file, accepted, ends, column.symm⟩
  · rintro ⟨other, there, _, ends, column⟩
    cases file.symm.trans there
    exact ⟨column.symm, ends⟩

/-- Where the metadata is accepted, the loop comes to a refused file before memory runs
out, or all files end where their headers say and all requests are granted. -/
def SolutionsWhole (heap : Heap) (files : Files) (rows mExpected nExpected : Nat) : Prop :=
  ∀ bytes count, files .solMeta = some bytes →
    solutionCount files rows mExpected nExpected = some count → Grants heap 0 0 (3 * count) ∧
        ((∃ i < count, Refused heap files rows i ∧
            ∀ j < i, Grants heap (j + 1) 0 (wordsPerRow rows)) ∨
          bytes.length = 20 ∧ ∀ i < count, Grants heap (i + 1) 0 (wordsPerRow rows) ∧
            WholeSolution files rows i)

theorem solutionMeta_iff {bytes : List UInt8} {m n count : Nat} (file : files .solMeta = some bytes)
    (found : solutionCount files rows m n = some count) :
    bytes = (saveSolutionsMeta count rows m n).2 ↔ bytes.length = 20 := by
  have start := At.ofFile bytes
  have first := start.readNumber 4 0
  have second := first.readNumber 4 0
  have third := second.readNumber 4 0
  have fourth := third.readNumber 4 0
  have fifth := fourth.readNumber 4 0
  have magic := u32_readNumber start 0
  have number := u32_readNumber first 0
  have height := u32_readNumber second 0
  have left := u32_readNumber third 0
  have right := u32_readNumber fourth 0
  unfold solutionCount at found
  rw [file] at found
  simp only at found
  split at found
  next => cases found
  next accepted =>
    split at found
    next => cases found
    next same =>
      rw [not_or, not_not, not_not] at accepted
      rw [not_or, not_or, not_not, not_not, not_not] at same
      rcases same with ⟨sameRows, sameM, sameN⟩
      have enough := fifth.good.mp accepted.1
      cases found
      rw [accepted.2] at magic
      rw [sameRows] at height
      rw [sameM] at left
      rw [sameN] at right
      constructor
      · intro whole
        rw [whole]
        rfl
      · intro length
        have all : bytes.take (0 + 4 + 4 + 4 + 4 + 4) = bytes :=
          List.take_of_length_le (by omega)
        refine all.symm.trans ?_
        rw [take_add_four, take_add_four, take_add_four, take_add_four, take_add_four,
          ← magic (by omega), ← number (by omega), ← height (by omega), ← left (by omega),
          ← right (by omega)]
        simp [saveSolutionsMeta]

theorem loadSolutions_exact_iff (heap : Heap) (files : Files) (solutions : List (List Word))
    (rows m n : Nat) :
    Exact (SolutionsSaved files rows m n) solutions (loadSolutions heap files solutions rows m n) ↔
      SolutionsWhole heap files rows m n := by
  unfold SolutionsWhole
  cases counted : solutionCount files rows m n with
  | none =>
    rw [loadSolutions, counted]
    refine iff_of_true rfl fun bytes count _ missing => ?_
    cases missing
  | some count =>
    cases file : files .solMeta with
    | none =>
      rw [solutionCount, file] at counted
      cases counted
    | some bytes =>
      have only : ∀ holds : List UInt8 → Nat → Prop,
          (∀ other number, some bytes = some other → some count = some number →
            holds other number) ↔ holds bytes count := by
        intro holds
        constructor
        · exact fun every => every bytes count rfl rfl
        · intro here other number same sameCount
          cases same
          cases sameCount
          exact here
      rw [only fun bytes count => Grants heap 0 0 (3 * count) ∧ (_ ∨ _ ∧ _)]
      simp only [loadSolutions, counted]
      by_cases reserved : Grants heap 0 0 (3 * count)
      · simp only [reserved, if_true, true_and]
        have loop := solutionLoop_cases heap files solutions rows count 0 []
        simp only [Nat.zero_add, List.nil_append] at loop
        rcases loop with ⟨ends, refused⟩ | ⟨ends, k, inside, denied, opens⟩ |
          ⟨new, ends, length, takes⟩
        · rw [ends]
          exact iff_of_true rfl (Or.inl refused)
        · rw [ends]
          refine iff_of_false id ?_
          rintro (⟨i, _, refused, grants⟩ | ⟨_, whole⟩)
          · by_cases before : i ≤ k
            · exact opens i before refused
            · exact denied (grants k (Nat.not_le.mp before))
          · exact denied (whole k inside).1
        · rw [ends]
          change SolutionsSaved files rows m n new ↔ _
          subst length
          have metadata := solutionMeta_iff file counted
          rw [SolutionsSaved, file, Option.some_inj, metadata]
          constructor
          · rintro ⟨ending, saved⟩
            refine Or.inr ⟨ending, fun i inside => ⟨(takes i inside).2.1, ?_⟩⟩
            exact (solutionSaved_iff (takes i inside).2.2).mp (saved i inside)
          · rintro (⟨i, inside, refused, _⟩ | ⟨ending, whole⟩)
            · exact absurd refused (takes i inside).1
            · refine ⟨ending, fun i inside => ?_⟩
              exact (solutionSaved_iff (takes i inside).2.2).mpr (whole i inside).2
      · rw [if_neg reserved]
        exact iff_of_false id fun whole => reserved whole.1

end Solutions

/-- The three loaders are exact just on these files. -/
theorem loads_exact_iff (heap : Heap) (before : Uninitialised) (files : Files)
    (sequence polynomial : Coefficients) (solutions : List (List Word))
    (rows mExpected nExpected dimExpected : Nat) :
    (Exact (SequenceSaved (files .s) mExpected nExpected) sequence
        (loadSequence heap before (files .s) sequence mExpected nExpected) ↔
      SequenceWhole heap before (files .s) sequence mExpected nExpected) ∧
    (Exact (PolynomialSaved (files .pi) dimExpected) polynomial
        (loadPolynomial heap (files .pi) polynomial dimExpected) ↔
      PolynomialWhole heap (files .pi) polynomial dimExpected) ∧
    (Exact (SolutionsSaved files rows mExpected nExpected) solutions
        (loadSolutions heap files solutions rows mExpected nExpected) ↔
      SolutionsWhole heap files rows mExpected nExpected) :=
  ⟨loadSequence_exact_iff before (files .s) mExpected nExpected,
    loadPolynomial_exact_iff (files .pi) dimExpected,
    loadSolutions_exact_iff heap files solutions rows mExpected nExpected⟩

def cutSequence : List UInt8 := (saveSequence [0x100000000000005] 1 1 1).2.take 20

def cutPolynomial : List UInt8 := (savePolynomial [0x100000000000005] 1 1 1).2.take 20

/-- The cut sequence is accepted with another term; the cut generator is refused, but the
caller's vector and length are no longer empty. -/
theorem not_loads_exact :
    loadSequence (fun _ _ => true) ⟨0, 0, 0, 0⟩ (some cutSequence) ⟨[], 0⟩ 1 1 =
        .returned true ⟨[5], 1⟩ ∧
      ¬ SequenceSaved (some cutSequence) 1 1 ⟨[5], 1⟩ ∧
      loadPolynomial (fun _ _ => true) (some cutPolynomial) ⟨[], 0⟩ 1 =
        .returned false ⟨[5], 1⟩ := by
  refine ⟨rfl, ?_, rfl⟩
  rintro (new | ⟨_, legacy⟩)
  · exact absurd (congrArg List.length (Option.some_inj.mp new)) (by decide)
  · exact absurd (congrArg (List.take 4) (Option.some_inj.mp legacy)) (by decide)

end CudaMpqs.Lingen.BWIOSystem
