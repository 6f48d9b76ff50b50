import CudaMpqs.Foundation.ByteStream

/-! # The checkpoint files of a solve

The savers and loaders of `BWIOSystem`. A loader sees a file as the bytes that some
earlier run, or something else, left of it. -/

namespace CudaMpqs.Lingen

open ByteStream

inductive Suffix
  | ckptTag | x | y | s | pi | w | sol (i : Nat) | solMeta
deriving DecidableEq

abbrev Files := Suffix → Option (List UInt8)

def noFiles : Files := fun _ => none

abbrev Write := Suffix × List UInt8

def write (files : Files) (entry : Write) : Files :=
  fun suffix => if suffix = entry.1 then some entry.2 else files suffix

def writeAll (files : Files) (writes : List Write) : Files := writes.foldl write files

theorem write_same (files : Files) (suffix : Suffix) (bytes : List UInt8) :
    write files (suffix, bytes) suffix = some bytes := if_pos rfl

theorem write_other (files : Files) {suffix other : Suffix} (bytes : List UInt8)
    (differ : suffix ≠ other) : write files (other, bytes) suffix = files suffix :=
  if_neg differ

def MAGIC_VEC : Nat := 0x54434556
def MAGIC_SEQ : Nat := 0x55514553
def MAGIC_SEQ2 : Nat := 0x32514553
def MAGIC_POLY : Nat := 0x594C4F50
def MAGIC_SOL : Nat := 0x4E4C4F53
def MAGIC_SOLM : Nat := 0x4D4C4F53
def MAGIC_TAG : Nat := 0x47415443

def u32 (number : Nat) : List UInt8 := littleEndian 4 number

def wordsPerRow (cols : Nat) : Nat := (cols + 63) / 64

/-! ## Saving -/

def saveVector (suffix : Suffix) (vec : List Word) (rows nBlock : Nat) : Write :=
  (suffix, u32 MAGIC_VEC ++ u32 rows ++ u32 nBlock ++ wordBytes vec)

def saveSequence (words : List Word) (len rows cols : Nat) : Write :=
  (.s, u32 MAGIC_SEQ2 ++ (u32 len ++ (u32 rows ++ (u32 cols ++ (wordBytes words ++ [])))))

def savePolynomial (words : List Word) (len rows cols : Nat) : Write :=
  (.pi, u32 MAGIC_POLY ++ (u32 len ++ (u32 rows ++ (u32 cols ++ (wordBytes words ++ [])))))

def saveSingleSolution (suffix : Suffix) (solution : List Word) (rows : Nat) : Write :=
  (suffix, u32 MAGIC_SOL ++ (u32 rows ++ (u32 1 ++ (wordBytes solution ++ []))))

def saveSolutions (solutions : List (List Word)) (rows : Nat) : List Write :=
  match solutions with
  | [] => []
  | first :: _ =>
    saveSingleSolution .w first rows :: (List.range solutions.length).map fun i =>
        saveSingleSolution (.sol i) (solutions.getD i []) rows

def saveSolutionsMeta (count rows mBlock nBlock : Nat) : Write :=
  (.solMeta, u32 MAGIC_SOLM ++ (u32 count ++ (u32 rows ++ (u32 mBlock ++ (u32 nBlock ++ [])))))

def saveCheckpointTag (tag : Nat) : Write :=
  (.ckptTag, u32 MAGIC_TAG ++ littleEndian 8 tag)

/-! ## Loading -/

structure Uninitialised where
  magic : Nat
  len : Nat
  m : Nat
  n : Nat

def loadCheckpointTag (files : Files) : Option Nat :=
  match files .ckptTag with
  | none => none
  | some bytes =>
    let (magic, f) := (Stream.ofFile bytes).readNumber 4 0
    let (tag, f) := f.readNumber 8 0
    if ¬ f.good ∨ magic ≠ MAGIC_TAG then none else some tag

namespace BWIOSystem

open Stream

inductive Outcome (Output : Type)
  | returned (found : Bool) (output : Output)
  | threw

/-- The vector and the length of a caller; the length as the 32 bits of its `int`. -/
structure Coefficients where
  words : List Word
  len : Nat

abbrev Heap := Nat → Nat → Bool

def Grants (heap : Heap) (request held count : Nat) : Prop :=
  count ≤ held ∨ count < 2 ^ 60 ∧ heap request (8 * count) = true

instance (heap : Heap) (request held count : Nat) : Decidable (Grants heap request held count) :=
  inferInstanceAs (Decidable (_ ∨ _ ∧ _))

def resize (words : List Word) (count : Nat) : List Word :=
  words.take count ++ List.replicate (count - words.length) 0

structure Header where
  len : Nat
  rows : Nat
  cols : Nat
  size : Nat
  payload : Stream

def sequenceHeader (before : Uninitialised) (bytes : List UInt8) : Option Header :=
  let (magic, f) := (ofFile bytes).readNumber 4 before.magic
  if magic = MAGIC_SEQ2 then
    let (len, f) := f.readNumber 4 before.len
    let (rows, f) := f.readNumber 4 before.m
    let (cols, f) := f.readNumber 4 before.n
    some ⟨len, rows, cols, 16, f⟩
  else if magic = MAGIC_SEQ then
    let (len, f) := f.readNumber 4 before.len
    let (block, f) := f.readNumber 4 before.m
    some ⟨len, block, block, 12, f⟩
  else none

def polynomialHeader (bytes : List UInt8) : Option Header :=
  let (magic, f) := (ofFile bytes).readNumber 4 0
  if magic ≠ MAGIC_POLY then none
  else
    let (len, f) := f.readNumber 4 0
    let (rows, f) := f.readNumber 4 0
    let (cols, f) := f.readNumber 4 0
    some ⟨len, rows, cols, 16, f⟩

def sizeOfInt (len : Nat) : Nat := if len < 2 ^ 31 then len else 2 ^ 64 - 2 ^ 32 + len

def sequenceWords (header : Header) : Nat :=
  sizeOfInt header.len * (header.rows * wordsPerRow header.cols) % 2 ^ 64

def polynomialWords (header : Header) (dimExpected : Nat) : Nat :=
  header.len * (dimExpected * wordsPerRow dimExpected) % 2 ^ 64

/-- The resize and the read of the payload over what the caller's vector holds. -/
def readPayload (header : Header) (output : Coefficients) (totalWords : Nat) :
    Coefficients × Stream :=
  let (words, f) := header.payload.readWordsInto (resize output.words totalWords)
  (⟨words, header.len⟩, f)

def loadSequence (heap : Heap) (before : Uninitialised) (file : Option (List UInt8))
    (output : Coefficients) (mExpected nExpected : Nat) : Outcome Coefficients :=
  match file with
  | none => .returned false output
  | some bytes =>
    match sequenceHeader before bytes with
    | none => .returned false output
    | some header =>
      if header.rows ≠ mExpected ∨ header.cols ≠ nExpected then .returned false output
      else if Grants heap 0 output.words.length (sequenceWords header) then
        .returned true (readPayload header output (sequenceWords header)).1
      else .threw

def loadPolynomial (heap : Heap) (file : Option (List UInt8)) (output : Coefficients)
    (dimExpected : Nat) : Outcome Coefficients :=
  match file with
  | none => .returned false output
  | some bytes =>
    match polynomialHeader bytes with
    | none => .returned false output
    | some header =>
      if header.rows ≠ dimExpected ∨ header.cols ≠ dimExpected then .returned false output
      else
        let totalWords := polynomialWords header dimExpected
        if Grants heap 0 output.words.length totalWords then
          let (output, f) := readPayload header output totalWords
          .returned f.good output
        else .threw

/-- The number of solutions, where the metadata is not refused. -/
def solutionCount (files : Files) (rowsExpected mExpected nExpected : Nat) : Option Nat :=
  match files .solMeta with
  | none => none
  | some bytes =>
    let (magic, f) := (ofFile bytes).readNumber 4 0
    let (count, f) := f.readNumber 4 0
    let (rows, f) := f.readNumber 4 0
    let (m, f) := f.readNumber 4 0
    let (n, f) := f.readNumber 4 0
    if ¬ f.good ∨ magic ≠ MAGIC_SOLM then none
    else if rows ≠ rowsExpected ∨ m ≠ mExpected ∨ n ≠ nExpected then none
    else some count

/-- The payload of a solution file whose header is not refused. -/
def solutionPayload (rowsExpected : Nat) (bytes : List UInt8) : Option Stream :=
  let (magic, f) := (ofFile bytes).readNumber 4 0
  let (rows, f) := f.readNumber 4 0
  let (_, f) := f.readNumber 4 0
  if ¬ f.good ∨ magic ≠ MAGIC_SOL ∨ rows ≠ rowsExpected then none else some f

def solutionLoop (heap : Heap) (files : Files) (solutions : List (List Word))
    (rowsExpected : Nat) : Nat → Nat → List (List Word) → Outcome (List (List Word))
  | 0, _, loaded => .returned true loaded
  | left + 1, i, loaded =>
    match files (.sol i) with
    | none => .returned false solutions
    | some bytes =>
      match solutionPayload rowsExpected bytes with
      | none => .returned false solutions
      | some f =>
        if Grants heap (i + 1) 0 (wordsPerRow rowsExpected) then
          let (words, f) := f.readWords (wordsPerRow rowsExpected)
          if f.good then
            solutionLoop heap files solutions rowsExpected left (i + 1) (loaded ++ [words])
          else .returned false solutions
        else .threw

def loadSolutions (heap : Heap) (files : Files) (solutions : List (List Word))
    (rowsExpected mExpected nExpected : Nat) : Outcome (List (List Word)) :=
  match solutionCount files rowsExpected mExpected nExpected with
  | none => .returned false solutions
  | some count =>
    if Grants heap 0 0 (3 * count) then
      solutionLoop heap files solutions rowsExpected count 0 []
    else .threw

end BWIOSystem

/-! ## What is saved is loaded -/

theorem readNumber_u32 {number : Nat} (fits : number < 2 ^ 32) (initial : Nat) (rest : List UInt8) :
    (Stream.ofFile (u32 number ++ rest)).readNumber 4 initial = (number, Stream.ofFile rest) :=
  Stream.readNumber_littleEndian fits initial rest

namespace BWIOSystem

open Stream

variable {heap : Heap}

theorem Grants.small {request count : Nat} (granted : Grants heap request 0 count) :
    count < 2 ^ 60 := by
  rcases granted with already | ⟨small, _⟩
  · omega
  · exact small

theorem readPayload_saved (len rows cols size : Nat) (words : List Word) :
    readPayload ⟨len, rows, cols, size, ofFile (wordBytes words ++ [])⟩ ⟨[], 0⟩ words.length =
      (⟨words, len⟩, ofFile []) := by
  have length : (resize [] words.length).length = words.length := by
    rw [resize, List.take_nil, List.nil_append, List.length_replicate, List.length_nil,
      Nat.sub_zero]
  rw [readPayload, readWordsInto, read_append (by
    rw [length_wordBytes, length_wordBytes, length])]
  simp only [length, wordsOf_wordBytes]

theorem loadSequence_save (before : Uninitialised) {words : List Word} {len m n : Nat}
    (length : words.length = len * (m * wordsPerRow n)) (lenFits : len < 2 ^ 31)
    (mFits : m < 2 ^ 32) (nFits : n < 2 ^ 32) (granted : Grants heap 0 0 words.length) :
    loadSequence heap before (some (saveSequence words len m n).2) ⟨[], 0⟩ m n =
      .returned true ⟨words, len⟩ := by
  have small := granted.small
  have header : sequenceHeader before (saveSequence words len m n).2 =
      some ⟨len, m, n, 16, ofFile (wordBytes words ++ [])⟩ := by
    rw [sequenceHeader, saveSequence]
    simp only [readNumber_u32 (show MAGIC_SEQ2 < 2 ^ 32 by decide),
      readNumber_u32 (Nat.lt_trans lenFits (show 2 ^ 31 < 2 ^ 32 by decide)),
      readNumber_u32 mFits, readNumber_u32 nFits, if_true]
  have total : sequenceWords ⟨len, m, n, 16, ofFile (wordBytes words ++ [])⟩ = words.length := by
    rw [sequenceWords, sizeOfInt, if_pos lenFits, ← length, Nat.mod_eq_of_lt]
    omega
  rw [loadSequence]
  simp only [header, total, ne_eq, not_true_eq_false, or_self, if_false]
  rw [List.length_nil, if_pos granted, readPayload_saved]

theorem loadPolynomial_save {words : List Word} {len dim : Nat}
    (length : words.length = len * (dim * wordsPerRow dim)) (lenFits : len < 2 ^ 32)
    (dimFits : dim < 2 ^ 32) (granted : Grants heap 0 0 words.length) :
    loadPolynomial heap (some (savePolynomial words len dim dim).2) ⟨[], 0⟩ dim =
      .returned true ⟨words, len⟩ := by
  have small := granted.small
  have header : polynomialHeader (savePolynomial words len dim dim).2 =
      some ⟨len, dim, dim, 16, ofFile (wordBytes words ++ [])⟩ := by
    rw [polynomialHeader, savePolynomial]
    simp only [readNumber_u32 (show MAGIC_POLY < 2 ^ 32 by decide), readNumber_u32 lenFits,
      readNumber_u32 dimFits, ne_eq, not_true_eq_false, if_false]
  have total : polynomialWords ⟨len, dim, dim, 16, ofFile (wordBytes words ++ [])⟩ dim =
      words.length := by
    rw [polynomialWords, ← length, Nat.mod_eq_of_lt]
    omega
  rw [loadPolynomial]
  simp only [header, total, ne_eq, not_true_eq_false, or_self, if_false]
  rw [List.length_nil, if_pos granted, readPayload_saved]
  rfl

/-! ## The solution files -/

def YieldsSolution (files : Files) (rows i : Nat) (words : List Word) : Prop :=
  ∃ bytes f, files (.sol i) = some bytes ∧ solutionPayload rows bytes = some f ∧
    (f.readWords (wordsPerRow rows)).2.good = true ∧ (f.readWords (wordsPerRow rows)).1 = words

theorem yieldsSolution_save {files : Files} {solution : List Word} {rows i : Nat}
    (saved : files (.sol i) = some (saveSingleSolution (.sol i) solution rows).2)
    (length : solution.length = wordsPerRow rows) (rowsFit : rows < 2 ^ 32) :
    YieldsSolution files rows i solution := by
  refine ⟨_, ofFile (wordBytes solution ++ []), saved, ?_, ?_, ?_⟩
  · rw [solutionPayload, saveSingleSolution]
    simp only [readNumber_u32 (show MAGIC_SOL < 2 ^ 32 by decide), readNumber_u32 rowsFit,
      readNumber_u32 (show 1 < 2 ^ 32 by decide), good_ofFile, ne_eq, not_true_eq_false,
      or_self, if_false]
  · rw [← length, readWords_wordBytes]
    rfl
  · rw [← length, readWords_wordBytes]

theorem YieldsSolution.congr {left right : Files} {rows i : Nat} {words : List Word}
    (yields : YieldsSolution left rows i words) (same : right (.sol i) = left (.sol i)) :
    YieldsSolution right rows i words := by
  rcases yields with ⟨bytes, f, file, rest⟩
  exact ⟨bytes, f, same.trans file, rest⟩

variable {files : Files} {solutions : List (List Word)} {rows : Nat}

private theorem solutionLoop_succ_returns {left i : Nat} {loaded result : List (List Word)} :
    solutionLoop heap files solutions rows (left + 1) i loaded = .returned true result ↔
      ∃ words, Grants heap (i + 1) 0 (wordsPerRow rows) ∧ YieldsSolution files rows i words ∧
        solutionLoop heap files solutions rows left (i + 1) (loaded ++ [words]) =
          .returned true result := by
  constructor
  · intro returns
    rw [solutionLoop] at returns
    split at returns
    next => cases returns
    next bytes file =>
      split at returns
      next => cases returns
      next f payload =>
        split at returns
        next granted =>
          simp only at returns
          split at returns
          next good => exact ⟨_, granted, ⟨bytes, f, file, payload, good, rfl⟩, returns⟩
          next => cases returns
        next => cases returns
  · rintro ⟨words, granted, ⟨bytes, f, file, payload, good, rfl⟩, returns⟩
    rw [solutionLoop]
    simp only [file, payload, if_pos granted, good, if_true]
    exact returns

theorem solutionLoop_returns {left i : Nat} {loaded result : List (List Word)} :
    solutionLoop heap files solutions rows left i loaded = .returned true result ↔
      ∃ new, result = loaded ++ new ∧ new.length = left ∧
        ∀ k (inside : k < new.length), Grants heap (i + k + 1) 0 (wordsPerRow rows) ∧
          YieldsSolution files rows (i + k) new[k] := by
  induction left generalizing i loaded with
  | zero =>
    rw [solutionLoop]
    constructor
    · intro same
      cases same
      exact ⟨[], (List.append_nil _).symm, rfl, fun k inside =>
        absurd inside (Nat.not_lt_zero k)⟩
    · rintro ⟨new, rfl, length, _⟩
      rw [List.length_eq_zero_iff.mp length, List.append_nil]
  | succ left induction =>
    rw [solutionLoop_succ_returns]
    constructor
    · rintro ⟨words, granted, yields, returns⟩
      obtain ⟨new, rfl, length, later⟩ := induction.mp returns
      refine ⟨words :: new, ?_, by rw [List.length_cons, length], fun k inside => ?_⟩
      · rw [List.append_assoc, List.singleton_append]
      · cases k with
        | zero => exact ⟨granted, yields⟩
        | succ k =>
          have next := later k (Nat.lt_of_succ_lt_succ inside)
          rwa [Nat.add_assoc i 1 k, Nat.add_comm 1 k] at next
    · rintro ⟨new, rfl, length, yields⟩
      cases new with
      | nil => cases length
      | cons words new =>
        have first := yields 0 (Nat.succ_pos new.length)
        refine ⟨words, first.1, first.2, induction.mpr ⟨new, ?_, Nat.succ.inj length,
          fun k inside => ?_⟩⟩
        · rw [List.append_assoc, List.singleton_append]
        · rw [Nat.add_assoc i 1 k, Nat.add_comm 1 k]
          exact yields (k + 1) (Nat.succ_lt_succ inside)

/-- The solutions that a caller gets, read off the files. -/
theorem loadSolutions_returns {m n : Nat} {result : List (List Word)} :
    loadSolutions heap files solutions rows m n = .returned true result ↔
      solutionCount files rows m n = some result.length ∧ Grants heap 0 0 (3 * result.length) ∧
        ∀ k (inside : k < result.length), Grants heap (k + 1) 0 (wordsPerRow rows) ∧
          YieldsSolution files rows k result[k] := by
  unfold loadSolutions
  cases counted : solutionCount files rows m n with
  | none => exact ⟨nofun, fun found => nomatch found.1⟩
  | some count =>
    simp only
    by_cases reserved : Grants heap 0 0 (3 * count)
    · rw [if_pos reserved, solutionLoop_returns]
      constructor
      · rintro ⟨new, rfl, rfl, yields⟩
        simp only [Nat.zero_add] at yields
        exact ⟨rfl, reserved, yields⟩
      · rintro ⟨same, _, yields⟩
        cases same
        exact ⟨result, rfl, rfl, by simpa only [Nat.zero_add] using yields⟩
    · rw [if_neg reserved]
      refine ⟨nofun, fun ⟨same, granted, _⟩ => absurd granted ?_⟩
      cases same
      exact reserved

theorem solutionCount_save {count m n : Nat}
    (saved : files .solMeta = some (saveSolutionsMeta count rows m n).2)
    (countFits : count < 2 ^ 32) (rowsFit : rows < 2 ^ 32) (mFits : m < 2 ^ 32)
    (nFits : n < 2 ^ 32) : solutionCount files rows m n = some count := by
  rw [solutionCount, saved, saveSolutionsMeta]
  simp only [readNumber_u32 (show MAGIC_SOLM < 2 ^ 32 by decide), readNumber_u32 countFits,
    readNumber_u32 rowsFit, readNumber_u32 mFits, readNumber_u32 nFits, good_ofFile, ne_eq,
    not_true_eq_false, or_self, if_false]

end BWIOSystem

end CudaMpqs.Lingen
