import Mathlib.Data.List.TakeWhile
import CudaMpqs.Common.UInt512Product

/-! # Decimal strings of `uint512`

`to_string` prints chunks of nine digits, and the constructor reads digit by digit. -/

namespace CudaMpqs.UInt512

open Limbs

/-! ## Reading -/

def carryWhile : BitVec 64 → List (BitVec 32) → List (BitVec 32)
  | _, [] => []
  | carry, limb :: high =>
    if carry &&& 1 = 0 then limb :: high
    else
      let res := limb.setWidth 64 + carry
      res.setWidth 32 :: carryWhile (res >>> 32) high

def addLimbs (v : BitVec 32) : List (BitVec 32) → List (BitVec 32)
  | [] => []
  | low :: high =>
    let res := low.setWidth 64 + v.setWidth 64
    res.setWidth 32 :: carryWhile (res >>> 32) high

private theorem length_carryWhile (carry : BitVec 64) (limbs : List (BitVec 32)) :
    (carryWhile carry limbs).length = limbs.length := by
  induction limbs generalizing carry with
  | nil => rfl
  | cons limb high induction =>
    rw [carryWhile]
    split
    · rfl
    · rw [List.length_cons, List.length_cons, induction]

def addUInt32 (self : UInt512) (v : BitVec 32) : UInt512 :=
  ⟨addLimbs v self.limbs, by
    rw [← self.size]
    cases self.limbs with
    | nil => rfl
    | cons low high => rw [addLimbs, List.length_cons, List.length_cons, length_carryWhile]⟩

def maxValue : UInt512 := ⟨List.replicate 16 0xFFFFFFFF#32, rfl⟩

def readChar (state : UInt512 × UInt512) (c : Char) : UInt512 × UInt512 :=
  let (self, res) := state
  if '0' ≤ c ∧ c ≤ '9' then
    let res := res.multUInt32 10
    let digit := c.toNat - '0'.toNat
    if 0 < digit ∧ digit < 10 then (self, res.addUInt32 (BitVec.ofNat 32 digit))
    else if digit ≠ 0 then (maxValue, res)
    else (self, res)
  else (self, res)

def text (str : List Char) : List Char := str.takeWhile (· ≠ Char.ofNat 0)

/-- `uint512(const char*)`. At the end `*this = res`, whatever `*this` was. -/
def ofStr (self : UInt512) (str : List Char) : UInt512 :=
  ((text str).foldl readChar (self, ofUInt32 0)).2

/-! ## Printing -/

/-- The chunks of nine digits, lowest first; `none` where a chunk is stored past the buffer. -/
def chunkLoop : Nat → UInt512 → Option (List (BitVec 32))
  | room, temp =>
    if temp.isZero then some []
    else
      match room with
      | 0 => none
      | room + 1 =>
        let (quotient, chunk) := temp.divUInt32Inplace 1000000000
        (chunkLoop room quotient).map (chunk :: ·)

def printChunk (chunk : BitVec 32) : List Char := Nat.toDigits 10 chunk.toNat

def printPadded (chunk : BitVec 32) : List Char :=
  List.replicate (9 - (printChunk chunk).length) '0' ++ printChunk chunk

def printChunks (chunks : List (BitVec 32)) : List Char :=
  match chunks.reverse with
  | [] => []
  | top :: rest => printChunk top ++ rest.flatMap printPadded

def toDecimal (self : UInt512) : Option (List Char) :=
  if self.isZero then some ['0'] else (chunkLoop 20 self).map printChunks

/-! ## What is read -/

theorem value_carryWhile {carry : BitVec 64} (small : carry.toNat ≤ 1) (limbs : List (BitVec 32)) :
    ∃ out, value (carryWhile carry limbs) + 2 ^ (32 * limbs.length) * out =
      value limbs + carry.toNat := by
  induction limbs generalizing carry with
  | nil => exact ⟨carry.toNat, by simp [carryWhile]⟩
  | cons limb high induction =>
    have bound := limb.isLt
    have low : (carry &&& 1).toNat = carry.toNat := by
      rw [BitVec.toNat_and, show (1 : BitVec 64).toNat = 2 ^ 1 - 1 from rfl,
        Nat.and_two_pow_sub_one_eq_mod, Nat.mod_eq_of_lt (by omega)]
    rw [carryWhile]
    split
    next zero =>
        rw [zero] at low
        exact ⟨0, by rw [← low]; rfl⟩
    next more =>
        have res : (limb.setWidth 64 + carry).toNat = limb.toNat + carry.toNat := by
          rw [BitVec.toNat_add, BitVec.toNat_setWidth]
          omega
        have next : ((limb.setWidth 64 + carry) >>> 32).toNat =
            (limb.toNat + carry.toNat) / 2 ^ 32 := by
          rw [BitVec.toNat_ushiftRight, res, Nat.shiftRight_eq_div_pow]
        rcases induction (show ((limb.setWidth 64 + carry) >>> 32).toNat ≤ 1 by omega)
          with ⟨out, total⟩
        refine ⟨out, ?_⟩
        have power : 2 ^ (32 * (limb :: high).length) = 2 ^ 32 * 2 ^ (32 * high.length) := by
          rw [List.length_cons, Nat.mul_succ, Nat.add_comm, Nat.pow_add]
        dsimp only
        rw [value_cons, value_cons, power, BitVec.toNat_setWidth, res, Nat.mul_assoc]
        rw [next] at total
        generalize 2 ^ (32 * high.length) * out = carryOut at total ⊢
        omega

theorem toNat_addUInt32 (self : UInt512) (v : BitVec 32) :
    (self.addUInt32 v).toNat = (self.toNat + v.toNat) % cardinality := by
  have conserved : ∃ out, value (addLimbs v self.limbs) + cardinality * out =
      value self.limbs + v.toNat := by
    have size := self.size
    rw [← two_pow_eq_cardinality (congrArg (32 * ·) size)]
    generalize self.limbs = limbs at size ⊢
    cases limbs with
    | nil => exact absurd size (by decide)
    | cons low high =>
      have lowBound := low.isLt
      have bound := v.isLt
      have res : (low.setWidth 64 + v.setWidth 64).toNat = low.toNat + v.toNat := by
        rw [BitVec.toNat_add, BitVec.toNat_setWidth, BitVec.toNat_setWidth]
        omega
      have next : ((low.setWidth 64 + v.setWidth 64) >>> 32).toNat =
          (low.toNat + v.toNat) / 2 ^ 32 := by
        rw [BitVec.toNat_ushiftRight, res, Nat.shiftRight_eq_div_pow]
      rcases value_carryWhile (show ((low.setWidth 64 + v.setWidth 64) >>> 32).toNat ≤ 1 by omega)
        high with ⟨out, total⟩
      refine ⟨out, ?_⟩
      have power : 2 ^ (32 * (low :: high).length) = 2 ^ 32 * 2 ^ (32 * high.length) := by
        rw [List.length_cons, Nat.mul_succ, Nat.add_comm, Nat.pow_add]
      rw [addLimbs, value_cons, value_cons, power, BitVec.toNat_setWidth, res, Nat.mul_assoc]
      rw [next] at total
      generalize 2 ^ (32 * high.length) * out = carryOut at total ⊢
      omega
  rcases conserved with ⟨out, total⟩
  have bound := (self.addUInt32 v).toNat_lt
  rw [toNat, toNat, ← total, Nat.add_mul_mod_self_left]
  exact (Nat.mod_eq_of_lt bound).symm

private theorem isDigit_iff (c : Char) : '0' ≤ c ∧ c ≤ '9' ↔ c.isDigit = true := by
  rw [Char.isDigit, Bool.and_eq_true, decide_eq_true_iff, decide_eq_true_iff]
  rfl

/-- A digit is appended modulo `2 ^ 512`, any other character is skipped. -/
theorem toNat_readChar (state : UInt512 × UInt512) (c : Char) : (readChar state c).2.toNat =
    if c.isDigit then (10 * state.2.toNat + (c.toNat - '0'.toNat)) % cardinality
    else state.2.toNat := by
  rw [readChar]
  by_cases digit : '0' ≤ c ∧ c ≤ '9'
  · have upper : c.toNat - '0'.toNat < 10 := by
      have le : c.toNat ≤ '9'.toNat := digit.2
      have nine : '9'.toNat = '0'.toNat + 9 := by decide
      omega
    have tens := toNat_multUInt32 state.2 10
    rw [show (10 : BitVec 32).toNat = 10 from rfl] at tens
    rw [if_pos ((isDigit_iff c).mp digit)]
    simp only [digit, and_self, if_true]
    by_cases zero : c.toNat - '0'.toNat = 0
    · simp only [zero, Nat.lt_irrefl, false_and, if_false, ne_eq, not_true_eq_false, Nat.add_zero]
      rw [tens, Nat.mul_comm]
    · have word : (BitVec.ofNat 32 (c.toNat - '0'.toNat)).toNat = c.toNat - '0'.toNat := by
        rw [BitVec.toNat_ofNat]
        exact Nat.mod_eq_of_lt (by omega)
      rw [if_pos ⟨Nat.pos_of_ne_zero zero, upper⟩, toNat_addUInt32, word, tens, Nat.mod_add_mod,
        Nat.mul_comm]
  · rw [if_neg (mt (isDigit_iff c).mpr digit)]
    simp only [digit, if_false]

def spelled (str : List Char) : Nat := Nat.ofDigitChars 10 ((text str).filter Char.isDigit) 0

private theorem toNat_foldl_readChar (state : UInt512 × UInt512) (str : List Char) :
    (str.foldl readChar state).2.toNat =
      Nat.ofDigitChars 10 (str.filter Char.isDigit) state.2.toNat % cardinality := by
  induction str generalizing state with
  | nil =>
    rw [List.filter_nil, Nat.ofDigitChars_nil]
    exact (Nat.mod_eq_of_lt state.2.toNat_lt).symm
  | cons c str induction =>
    rw [List.foldl_cons, induction, toNat_readChar, List.filter_cons]
    split
    · rw [Nat.ofDigitChars_cons, Nat.ofDigitChars_eq_ofDigitChars_zero, Nat.add_mod,
        Nat.mul_mod, Nat.mod_mod, ← Nat.mul_mod, ← Nat.add_mod,
        ← Nat.ofDigitChars_eq_ofDigitChars_zero]
    · rfl

theorem toNat_ofStr (self : UInt512) (str : List Char) :
    (ofStr self str).toNat = spelled str % cardinality := by
  rw [ofStr, toNat_foldl_readChar, toNat_ofUInt32]
  rfl

/-! ## What is printed -/

def chunksValue (chunks : List (BitVec 32)) : Nat :=
  chunks.foldr (fun chunk rest => chunk.toNat + 10 ^ 9 * rest) 0

/-- The buffer has room for every number that has no more digits than it. -/
theorem chunkLoop_spec {room : Nat} {temp : UInt512} (fits : temp.toNat < (10 ^ 9) ^ room) :
    ∃ chunks, chunkLoop room temp = some chunks ∧ chunksValue chunks = temp.toNat ∧
      (∀ chunk ∈ chunks, chunk.toNat < 10 ^ 9) := by
  induction room generalizing temp with
  | zero =>
    rw [Nat.pow_zero, Nat.lt_one_iff] at fits
    refine ⟨[], ?_, fits.symm, fun _ member => absurd member List.not_mem_nil⟩
    rw [chunkLoop, if_pos ((isZero_iff temp).mpr fits)]
  | succ room induction =>
    rw [chunkLoop]
    by_cases zero : temp.toNat = 0
    · refine ⟨[], ?_, zero.symm, fun _ member => absurd member List.not_mem_nil⟩
      rw [if_pos ((isZero_iff temp).mpr zero)]
    · have base : (1000000000 : BitVec 32).toNat = 10 ^ 9 := rfl
      have nonzero : (1000000000 : BitVec 32) ≠ 0 := by decide
      have quotient := temp.toNat_divUInt32Inplace nonzero
      have chunk : (temp.divUInt32Inplace 1000000000).2.toNat = temp.toNat % 10 ^ 9 := by
        have remainder := (temp.divLoop_spec nonzero).2
        have small := Nat.mod_lt temp.toNat (by decide : 0 < 10 ^ 9)
        rw [base] at remainder
        rw [divUInt32Inplace, if_neg nonzero, BitVec.toNat_setWidth, remainder]
        exact Nat.mod_eq_of_lt (by omega)
      rw [base] at quotient
      have less : (temp.divUInt32Inplace 1000000000).1.toNat < (10 ^ 9) ^ room := by
        rw [quotient]
        exact Nat.div_lt_of_lt_mul (by rwa [Nat.pow_succ'] at fits)
      rcases induction less with ⟨chunks, run, total, bounded⟩
      refine ⟨(temp.divUInt32Inplace 1000000000).2 :: chunks, ?_, ?_, ?_⟩
      · rw [if_neg (mt (isZero_iff temp).mp zero)]
        dsimp only
        rw [run, Option.map_some]
      · rw [chunksValue, List.foldr_cons, ← chunksValue, total, chunk, quotient]
        exact Nat.mod_add_div _ _
      · intro other member
        rcases List.mem_cons.mp member with rfl | later
        · rw [chunk]
          exact Nat.mod_lt _ (by decide)
        · exact bounded other later

variable {chunk : BitVec 32}

private theorem length_printPadded (small : chunk.toNat < 10 ^ 9) :
    (printPadded chunk).length = 9 := by
  have short : (printChunk chunk).length ≤ 9 :=
    (Nat.length_toDigits_le_iff (by decide) (by decide)).mpr small
  rw [printPadded, List.length_append, List.length_replicate]
  omega

private theorem ofDigitChars_printPadded (small : chunk.toNat < 10 ^ 9) (init : Nat) :
    Nat.ofDigitChars 10 (printPadded chunk) init = chunk.toNat + 10 ^ 9 * init := by
  have length := length_printPadded small
  have value : Nat.ofDigitChars 10 (printPadded chunk) 0 = chunk.toNat := by
    rw [printPadded, Nat.ofDigitChars_append, Nat.ofDigitChars_replicate_zero, Nat.mul_zero]
    exact Nat.ofDigitChars_ten_toDigits
  rw [Nat.ofDigitChars_eq_ofDigitChars_zero, length, value, Nat.add_comm]

variable {chunks : List (BitVec 32)}

private theorem ofDigitChars_flatMap (bounded : ∀ chunk ∈ chunks, chunk.toNat < 10 ^ 9)
    (init : Nat) :
    Nat.ofDigitChars 10 (chunks.flatMap printPadded) init =
      chunks.foldl (fun rest chunk => chunk.toNat + 10 ^ 9 * rest) init := by
  induction chunks generalizing init with
  | nil => exact Nat.ofDigitChars_nil
  | cons chunk chunks induction =>
    rw [List.flatMap_cons, Nat.ofDigitChars_append,
      ofDigitChars_printPadded (bounded chunk List.mem_cons_self), List.foldl_cons]
    exact induction (fun other member => bounded other (List.mem_cons_of_mem _ member)) _

theorem ofDigitChars_printChunks (bounded : ∀ chunk ∈ chunks, chunk.toNat < 10 ^ 9) :
    Nat.ofDigitChars 10 (printChunks chunks) 0 = chunksValue chunks := by
  rw [chunksValue, ← List.foldl_reverse, printChunks]
  have bounded' : ∀ chunk ∈ chunks.reverse, chunk.toNat < 10 ^ 9 :=
    fun chunk member => bounded chunk (List.mem_reverse.mp member)
  generalize chunks.reverse = order at bounded' ⊢
  cases order with
  | nil => exact Nat.ofDigitChars_nil
  | cons top rest =>
    have value : Nat.ofDigitChars 10 (printChunk top) 0 = top.toNat :=
      Nat.ofDigitChars_ten_toDigits
    dsimp only
    rw [Nat.ofDigitChars_append, value,
      ofDigitChars_flatMap fun chunk member => bounded' chunk (List.mem_cons_of_mem _ member),
      List.foldl_cons, Nat.mul_zero, Nat.add_zero]

theorem isDigit_printChunk {c : Char} (member : c ∈ printChunk chunk) : c.isDigit = true :=
  Nat.isDigit_of_mem_toDigits (by decide) (by decide) member

private theorem isDigit_printPadded {c : Char} (member : c ∈ printPadded chunk) :
    c.isDigit = true := by
  rcases List.mem_append.mp member with zero | digit
  · rw [(List.mem_replicate.mp zero).2]
    decide
  · exact isDigit_printChunk digit

theorem isDigit_printChunks {c : Char} (member : c ∈ printChunks chunks) : c.isDigit = true := by
  rw [printChunks] at member
  split at member
  · exact absurd member List.not_mem_nil
  · rcases List.mem_append.mp member with top | rest
    · exact isDigit_printChunk top
    · rcases List.mem_flatMap.mp rest with ⟨chunk, -, digit⟩
      exact isDigit_printPadded digit

private theorem spelled_of_digits {str : List Char} (digits : ∀ c ∈ str, c.isDigit = true) :
    spelled str = Nat.ofDigitChars 10 str 0 := by
  have whole : text str = str := by
    apply List.takeWhile_eq_self_iff.mpr
    intro c member
    have digit := digits c member
    apply decide_eq_true
    rintro rfl
    exact absurd digit (by decide)
  rw [spelled, whole, List.filter_eq_self.mpr digits]

theorem toDecimal_ofStr (self other : UInt512) :
    ∃ str, self.toDecimal = some str ∧ ofStr other str = self := by
  rw [toDecimal]
  by_cases zero : self.toNat = 0
  · refine ⟨['0'], if_pos ((isZero_iff self).mpr zero), toNat_injective ?_⟩
    rw [toNat_ofStr, zero]
    decide +kernel
  · have fits : self.toNat < (10 ^ 9) ^ 20 := by
      refine self.toNat_lt.trans ?_
      rw [← two_pow_eq_cardinality rfl]
      decide +kernel
    rcases chunkLoop_spec fits with ⟨chunks, run, total, bounded⟩
    refine ⟨printChunks chunks, ?_, toNat_injective ?_⟩
    · rw [if_neg (mt (isZero_iff self).mp zero), run, Option.map_some]
    · rw [toNat_ofStr, spelled_of_digits fun c member => isDigit_printChunks member,
        ofDigitChars_printChunks bounded, total, Nat.mod_eq_of_lt self.toNat_lt]

/-! ## Malformed strings -/

def Malformed (str : List Char) : Prop :=
  (∃ c ∈ text str, c.isDigit = false) ∨ cardinality ≤ spelled str

theorem toNat_maxValue : maxValue.toNat = cardinality - 1 := by
  decide +kernel

/-- Printed numbers are read back. A malformed string gives `max_value` only where the digits in
it spell a number that wraps to it. -/
theorem decimal_strings (self other : UInt512) (str : List Char) :
    (∃ printed, self.toDecimal = some printed ∧ ofStr other printed = self) ∧
    (Malformed str →
      (ofStr other str = maxValue ↔ spelled str % cardinality = cardinality - 1)) := by
  constructor
  · exact toDecimal_ofStr self other
  · intro _
    rw [← toNat_inj, toNat_ofStr, toNat_maxValue]

/-- `"12a"` is read as 12. -/
theorem decimal_strings_twelve : Malformed ['1', '2', 'a'] ∧
    ofStr (ofUInt32 0) ['1', '2', 'a'] ≠ maxValue := by
  refine ⟨.inl ⟨'a', by decide, by decide⟩, ?_⟩
  rw [ne_eq, ← toNat_inj, toNat_ofStr, toNat_maxValue]
  decide +kernel

end CudaMpqs.UInt512
