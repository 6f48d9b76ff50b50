import Mathlib.NumberTheory.LucasLehmer
import CudaMpqs.Common.UInt512Small
import CudaMpqs.Foundation.SignedSum
import CudaMpqs.Sieve.GrayWalk
import CudaMpqs.Sieve.KernelArithmetic

/-! # Sieve roots of the hypercube polynomials

`kernel.cu` keeps, for every factor-base prime, the two roots of
`(aX + b)^2 - N`. They are built from a polynomial id, moved along Gray codes in
the gather kernel, and moved relative to a window in the scatter kernel. -/

namespace CudaMpqs

open GrayCode ResidueWalk SignedInt SignedSum

/-! ## Per-prime data -/

/-- `reducedStart` is `none` where its `int` formula overflows. -/
structure PrimeDataSIQS where
  p : BitVec 32
  modInverseA : BitVec 32
  invAN : BitVec 32
  inactive : BitVec 32
  reducedStart : Option (BitVec 32)

def mulMod32 (x y p : BitVec 32) : BitVec 32 :=
  (x.setWidth 64 * y.setWidth 64 % p.setWidth 64).setWidth 32

def powerLoop (p : BitVec 32) : Nat → BitVec 32 → BitVec 32 → BitVec 32 → BitVec 32
  | 0, _, _, result => result
  | steps + 1, exponent, base, result =>
    powerLoop p steps (exponent.sshiftRight 1) (mulMod32 base base p)
      (if exponent &&& 1 = 1 then mulMod32 result base p else result)

/-- One prime of `initPrimeDataBatchKernel`: its record, and its column of
`dev_primeBValues`. -/
def initPrimeDataBatch (a : UInt512) (bigBValues : List UInt512)
    (p rootN sieveIntervalStart : BitVec 32) : PrimeDataSIQS × List (BitVec 32) :=
  let result := powerLoop p 32 (p - 2) (a.modUInt32 p) 1
  (⟨p, result, mulMod32 result rootN p, 0, reduceStart sieveIntervalStart p⟩,
    bigBValues.map fun B => mulMod32 (B.modUInt32 p) result p)

/-! ## Roots from a polynomial id -/

def minusBAInv (p : BitVec 32) : List (BitVec 32) → BitVec 32 → BitVec 32 → BitVec 32
  | [], _, sum => sum
  | value :: bvalues, id, sum =>
    let term := if id &&& 1 = 0 then value else p - value
    minusBAInv p bvalues (id >>> 1) (modAdd sum term p)

def rootsFromPolyId (id : BitVec 32) (primeData : PrimeDataSIQS)
    (bvalues : List (BitVec 32)) : BitVec 32 × BitVec 32 :=
  let p := primeData.p
  let minusB := minusBAInv p bvalues id 0
  (modAdd minusB primeData.invAN p, modAdd minusB (p - primeData.invAN) p)

def bFromPolyId : BitVec 32 → List UInt512 → UInt512 → UInt512
  | _, [], result => result
  | id, B :: bigBValues, result =>
    bFromPolyId (id >>> 1) bigBValues
      (if id &&& 1 = 1 then result.add B else result.sub B)

/-! ## Gray steps of the gather kernel -/

def ffs (word : BitVec 32) : BitVec 32 :=
  if word = 0 then 0 else word.ctz + 1

def advanceRoots (id1 id2 p : BitVec 32) (bvalues : List (BitVec 32))
    (roots : BitVec 32 × BitVec 32) : BitVec 32 × BitVec 32 :=
  if id1 = id2 then roots
  else
    let bitToFlip := ffs (id1 ^^^ id2) - 1
    let sign := 1 - 2 * ((id2 >>> bitToFlip) &&& 1)
    let delta := sign * bvalues.getD bitToFlip.toNat 0
    (modSum (modSum roots.1 delta p) delta p, modSum (modSum roots.2 delta p) delta p)

def advanceB (id1 id2 : BitVec 32) (bigBValues : List UInt512) (b : UInt512) : UInt512 :=
  let bitToFlip := ffs (id1 ^^^ id2) - 1
  let sign := -1 + 2 * ((id2 >>> bitToFlip) &&& 1)
  let B := bigBValues.getD bitToFlip.toNat (UInt512.ofNat 0)
  if sign = -1 then (b.sub B).sub B else (b.add B).add B

structure GatherState where
  roots : BitVec 32 × BitVec 32
  offsets : Int × Int
  b : UInt512

def gatherOffsets (sieveIntervalStart p : BitVec 32) (roots : BitVec 32 × BitVec 32)
    (b : UInt512) : Option GatherState := do
  let offset1 ← rootOffset sieveIntervalStart.toInt p roots.1
  let offset2 ← rootOffset sieveIntervalStart.toInt p roots.2
  return ⟨roots, (offset1, offset2), b⟩

/-- One prime and the coefficient `b` of a gather block when its loop reaches
`poly`. Only the offsets are kept from one polynomial to the next, as the
sieving of its blocks leaves them: `carried`. -/
def gatherWalk (primeData : PrimeDataSIQS) (bvalues : List (BitVec 32))
    (bigBValues : List UInt512) (polyIdPrefix sieveIntervalStart : BitVec 32)
    (carried : Nat → Int × Int) : Nat → Option GatherState
  | 0 => gatherOffsets sieveIntervalStart primeData.p
      (rootsFromPolyId polyIdPrefix primeData bvalues)
      (bFromPolyId polyIdPrefix bigBValues (UInt512.ofNat 0))
  | poly + 1 => do
    let state ← gatherWalk primeData bvalues bigBValues polyIdPrefix sieveIntervalStart
      carried poly
    let prevPolyId := polyIdPrefix ||| gray (BitVec.ofNat 32 poly)
    let polyId := polyIdPrefix ||| gray (BitVec.ofNat 32 (poly + 1))
    let root1 ← offsetRoot (carried poly).1 primeData.p.toNat
    let root2 ← offsetRoot (carried poly).2 primeData.p.toNat
    gatherOffsets sieveIntervalStart primeData.p
      (advanceRoots prevPolyId polyId primeData.p bvalues (root1, root2))
      (advanceB prevPolyId polyId bigBValues state.b)

/-! ## Gray steps of the scatter kernel -/

def storeDoubledBValues (bvalues : List (BitVec 32)) (log2PolyBlockSize : Nat)
    (p : BitVec 32) : List (BitVec 32) :=
  (List.range log2PolyBlockSize).map fun k =>
    let d := bvalues.getD k 0 <<< 1
    if p ≤ d then d - p else d

def advanceRelRootsScatter (flip : GrayFlip) (p : BitVec 32)
    (dTable : List (BitVec 32)) (rels : BitVec 32 × BitVec 32) :
    BitVec 32 × BitVec 32 :=
  let d := dTable.getD flip.bit.toNat 0
  let delta := if flip.nowSet then p - d else d
  (modAdd rels.1 delta p, modAdd rels.2 delta p)

structure ScatterState where
  polyId : BitVec 32
  rels : BitVec 32 × BitVec 32

def reducedSieveStart (primeData : PrimeDataSIQS) (cycle : Nat)
    (currentStart : BitVec 32) : Option (BitVec 32) :=
  if cycle = 0 then primeData.reducedStart else reduceStart currentStart primeData.p

def scatterStart (primeData : PrimeDataSIQS) (bvalues : List (BitVec 32))
    (fullPolyIdPrefix polyWalkStart : BitVec 32) (cycle : Nat)
    (currentStart : BitVec 32) : Option ScatterState := do
  let polyId := gray polyWalkStart
  let roots := rootsFromPolyId (fullPolyIdPrefix ||| polyId) primeData bvalues
  let reduced ← reducedSieveStart primeData cycle currentStart
  return ⟨polyId, (modSub roots.1 reduced primeData.p, modSub roots.2 reduced primeData.p)⟩

def polyBlockHalf (polyBlockSize : BitVec 32) : BitVec 32 :=
  if polyBlockSize >>> 1 < (1#32) then 1 else polyBlockSize >>> 1

def scatterWalk (primeData : PrimeDataSIQS) (bvalues : List (BitVec 32))
    (log2PolyBlockSize : Nat) (polyWalkStart : BitVec 32) (start : ScatterState) :
    Nat → ScatterState
  | 0 => start
  | steps + 1 =>
    let state := scatterWalk primeData bvalues log2PolyBlockSize polyWalkStart start steps
    let polyBlockSize := BitVec.ofNat 32 (2 ^ log2PolyBlockSize)
    let polyStep := polyWalkStart + 1 + BitVec.ofNat 32 steps
    let step := advanceGrayCyclic polyStep (polyBlockSize - 1)
      (polyBlockHalf polyBlockSize) state.polyId
    ⟨step.2, advanceRelRootsScatter step.1 primeData.p
      (storeDoubledBValues bvalues log2PolyBlockSize primeData.p) state.rels⟩

/-! ## The inverse of `a` -/

section Residues

variable {p : BitVec 32}

theorem Residue.mulMod32 {x y : BitVec 32} {left right : ZMod p.toNat}
    (leftResidue : Residue p x left) (rightResidue : Residue p y right) :
    Residue p (mulMod32 x y p) (left * right) := by
  rw [← leftResidue.cast, ← rightResidue.cast]
  exact residue_mul (Nat.zero_lt_of_lt leftResidue.lt) x y

theorem and_one_eq_one_iff (word : BitVec 32) : word &&& 1 = 1 ↔ word.getLsbD 0 = true := by
  have value : (word &&& 1).toNat = word.toNat % 2 := by
    rw [BitVec.toNat_and]
    exact Nat.and_one_is_mod _
  rw [← BitVec.toNat_inj, value, BitVec.getLsbD, Nat.testBit_zero, decide_eq_true_iff]
  rfl

theorem and_one_eq_zero_iff (word : BitVec 32) : word &&& 1 = 0 ↔ word.getLsbD 0 = false := by
  have value : (word &&& 1).toNat = word.toNat % 2 := by
    rw [BitVec.toNat_and]
    exact Nat.and_one_is_mod _
  rw [← BitVec.toNat_inj, value, BitVec.getLsbD, Nat.testBit_zero, decide_eq_false_iff_not]
  exact Nat.mod_two_ne_one.symm

private theorem toNat_sshiftRight_one {word : BitVec 32} (small : word.toNat < 2 ^ 31) :
    (word.sshiftRight 1).toNat = word.toNat / 2 := by
  have positive : word.msb = false := by
    rw [BitVec.msb_eq_false_iff_two_mul_lt]
    omega
  rw [BitVec.sshiftRight_eq_of_msb_false positive, BitVec.toNat_ushiftRight,
    Nat.shiftRight_eq_div_pow, Nat.pow_one]

theorem powerLoop_residue (steps : Nat) {exponent base result : BitVec 32}
    {baseValue resultValue : ZMod p.toNat} (positive : exponent.toNat < 2 ^ 31)
    (bound : exponent.toNat < 2 ^ steps) (baseResidue : Residue p base baseValue)
    (resultResidue : Residue p result resultValue) :
    Residue p (powerLoop p steps exponent base result)
      (resultValue * baseValue ^ exponent.toNat) := by
  induction steps generalizing exponent base result baseValue resultValue with
  | zero =>
    have none : exponent.toNat = 0 := by omega
    simpa [powerLoop, none] using resultResidue
  | succ steps induction =>
    have half := toNat_sshiftRight_one positive
    have halfPositive : (exponent.sshiftRight 1).toNat < 2 ^ 31 := by omega
    have halfBound : (exponent.sshiftRight 1).toNat < 2 ^ steps := by
      rw [half]
      omega
    have parity := and_one_eq_one_iff exponent
    rw [BitVec.getLsbD, Nat.testBit_zero, decide_eq_true_iff] at parity
    rw [powerLoop]
    by_cases odd : exponent.toNat % 2 = 1
    · rw [if_pos (parity.mpr odd)]
      have tail := induction halfPositive halfBound
        (baseResidue.mulMod32 baseResidue) (resultResidue.mulMod32 baseResidue)
      have exponents : exponent.toNat = 1 + (exponent.toNat / 2 + exponent.toNat / 2) := by
        omega
      rw [half, mul_pow, mul_assoc, ← pow_add] at tail
      rwa [exponents, pow_add, pow_one]
    · rw [if_neg (fun set => odd (parity.mp set))]
      have tail := induction halfPositive halfBound
        (baseResidue.mulMod32 baseResidue) resultResidue
      have exponents : exponent.toNat = exponent.toNat / 2 + exponent.toNat / 2 := by
        omega
      rw [half, mul_pow, ← pow_add] at tail
      rwa [exponents]

private theorem initPrimeDataBatch_power (prime : p.toNat.Prime) (small : p.toNat < 2 ^ 31)
    (a : UInt512) :
    Residue p (powerLoop p 32 (p - 2) (a.modUInt32 p) 1)
      ((a.toNat : ZMod p.toNat) ^ (p.toNat - 2)) := by
  have two_le := prime.two_le
  have nonzero : p ≠ 0 := by
    rintro rfl
    exact absurd two_le (by decide)
  have exponent : (p - 2).toNat = p.toNat - 2 := BitVec.toNat_sub_of_le two_le
  have base := residue_mod prime.pos (a.toNat_modUInt32 nonzero)
  have one : Residue p 1 1 := ⟨two_le, Nat.cast_one⟩
  have power := powerLoop_residue 32 (exponent.trans_lt (by omega))
    (exponent.trans_lt (by omega)) base one
  rwa [exponent, one_mul] at power

theorem initPrimeDataBatch_inverse (prime : p.toNat.Prime) (small : p.toNat < 2 ^ 31)
    {a : UInt512} (coprime : ¬ p.toNat ∣ a.toNat) :
    ∃ inverse : ZMod p.toNat, inverse * (a.toNat : ZMod p.toNat) = 1 ∧
      Residue p (powerLoop p 32 (p - 2) (a.modUInt32 p) 1) inverse := by
  have two_le := prime.two_le
  refine ⟨_, ?_, initPrimeDataBatch_power prime small a⟩
  have field : Fact p.toNat.Prime := ⟨prime⟩
  have unit : (a.toNat : ZMod p.toNat) ≠ 0 :=
    fun zero => coprime ((ZMod.natCast_eq_zero_iff _ _).mp zero)
  have exponents : p.toNat - 2 + 1 = p.toNat - 1 := by omega
  rw [← pow_succ, exponents]
  exact ZMod.pow_card_sub_one_eq_one unit

/-! ## The roots of an id -/

theorem minusBAInv_residue (small : p.toNat ≤ 2 ^ 31) {bvalues : List (BitVec 32)}
    {terms : List (ZMod p.toNat)} (column : List.Forall₂ (Residue p) bvalues terms)
    (id : BitVec 32) {sum : BitVec 32} {value : ZMod p.toNat}
    (residue : Residue p sum value) :
    Residue p (minusBAInv p bvalues id sum) (value - signedSum terms id.getLsbD) := by
  induction column generalizing id sum value with
  | nil => simpa [minusBAInv, signedSum] using residue
  | @cons B term bvalues terms head tail induction =>
    have shifted : (fun index => id.getLsbD (index + 1)) = (id >>> 1).getLsbD := by
      funext index
      rw [BitVec.getLsbD_ushiftRight, Nat.add_comm]
    rw [minusBAInv, signedSum, shifted, ← sub_sub]
    apply induction
    cases bit : id.getLsbD 0 with
    | false =>
      rw [if_pos ((and_one_eq_zero_iff id).mpr bit)]
      simpa using residue.modAdd small head.summand
    | true =>
      rw [if_neg (by rw [and_one_eq_zero_iff, bit]; exact Bool.noConfusion)]
      simpa [sub_eq_add_neg] using residue.modAdd small head.neg

end Residues

/-- The record and the column of a prime: `shift` is the residue of
`sqrt(N) / a`, `terms` are those of `B_k / a`. -/
structure Prepared (p : BitVec 32) (primeData : PrimeDataSIQS)
    (bvalues : List (BitVec 32)) (shift : ZMod p.toNat) (terms : List (ZMod p.toNat)) :
    Prop where
  modulus : primeData.p = p
  small : p.toNat < 2 ^ 31
  invAN : Residue p primeData.invAN shift
  column : List.Forall₂ (Residue p) bvalues terms

section Walks

variable {p : BitVec 32} {primeData : PrimeDataSIQS} {bvalues : List (BitVec 32)}
  {shift : ZMod p.toNat} {terms : List (ZMod p.toNat)}

theorem Prepared.rootsFromPolyId (prepared : Prepared p primeData bvalues shift terms)
    (id : BitVec 32) :
    Residue p (rootsFromPolyId id primeData bvalues).1 (shift - signedSum terms id.getLsbD) ∧
      Residue p (rootsFromPolyId id primeData bvalues).2 (-shift - signedSum terms id.getLsbD) := by
  have positive : 0 < p.toNat := Nat.zero_lt_of_lt prepared.invAN.lt
  have minusB := minusBAInv_residue prepared.small.le prepared.column id
    (residue_zero positive)
  have plus := minusB.modAdd prepared.small.le prepared.invAN.summand
  have minus := minusB.modAdd prepared.small.le prepared.invAN.neg
  rw [zero_sub, neg_add_eq_sub] at plus
  rw [zero_sub, add_comm, ← sub_eq_add_neg] at minus
  simp only [CudaMpqs.rootsFromPolyId, prepared.modulus]
  exact ⟨plus, minus⟩

/-! ## One flipped bit -/

structure Flips (id1 id2 : BitVec 32) (bit : Nat) : Prop where
  inside : bit < 32
  change : id2.toNat = id1.toNat ^^^ 2 ^ bit

variable {id1 id2 : BitVec 32} {bit : Nat}

theorem Flips.getLsbD (flips : Flips id1 id2 bit) : id2.getLsbD bit = !id1.getLsbD bit := by
  rw [BitVec.getLsbD, flips.change, Nat.testBit_xor, Nat.testBit_two_pow_self, Bool.xor_true]
  rfl

theorem Flips.getLsbD_of_ne {bit index : Nat} (flips : Flips id1 id2 bit)
    (different : index ≠ bit) : id2.getLsbD index = id1.getLsbD index := by
  rw [BitVec.getLsbD, flips.change, Nat.testBit_xor,
    Nat.testBit_two_pow_of_ne different.symm, Bool.xor_false]
  rfl

theorem Flips.xor (flips : Flips id1 id2 bit) : (id1 ^^^ id2).toNat = 2 ^ bit := by
  rw [BitVec.toNat_xor, flips.change, Nat.xor_xor_cancel_left]

theorem Flips.bitToFlip (flips : Flips id1 id2 bit) : (ffs (id1 ^^^ id2) - 1).toNat = bit := by
  have nonzero : id1 ^^^ id2 ≠ 0 := by
    intro zero
    have power := flips.xor
    rw [zero] at power
    exact absurd power.symm (Nat.two_pow_pos bit).ne'
  have lowest := lowestBit_ctz32 nonzero
  rw [flips.xor] at lowest
  have own : LowestBit (2 ^ bit) bit := by
    constructor
    · exact Nat.testBit_two_pow_self
    · intro lower below
      exact Nat.testBit_two_pow_of_ne below.ne'
  rw [ffs, if_neg nonzero, BitVec.add_sub_cancel]
  exact lowest.unique own

theorem Flips.ne (flips : Flips id1 id2 bit) : id1 ≠ id2 := by
  rintro rfl
  have power := flips.xor
  rw [BitVec.xor_self] at power
  exact absurd power.symm (Nat.two_pow_pos bit).ne'

theorem shiftRight_and_one_eq (word position : BitVec 32) :
    (word >>> position) &&& 1 = if word.getLsbD position.toNat then 1 else 0 := by
  have low : (word >>> position).getLsbD 0 = word.getLsbD position.toNat := by
    rw [BitVec.ushiftRight_eq', BitVec.getLsbD_ushiftRight, Nat.add_zero]
  cases bit : word.getLsbD position.toNat with
  | false => exact (and_one_eq_zero_iff _).mpr (low.trans bit)
  | true => exact (and_one_eq_one_iff _).mpr (low.trans bit)

theorem signedSum_flips {G : Type} [AddCommGroup G] {sums : List G} (flips : Flips id1 id2 bit)
    (inside : bit < sums.length) :
    signedSum sums id2.getLsbD = signedSum sums id1.getLsbD +
      (if id2.getLsbD bit then sums[bit] else -sums[bit]) +
      (if id2.getLsbD bit then sums[bit] else -sums[bit]) :=
  signedSum_flip inside flips.getLsbD fun _ different => flips.getLsbD_of_ne different

theorem Prepared.getD_bvalues (prepared : Prepared p primeData bvalues shift terms)
    (inside : bit < terms.length) : Residue p (bvalues.getD bit 0) terms[bit] := by
  have lengths := prepared.column.length_eq
  have residue := prepared.column.get (lengths ▸ inside) inside
  rwa [List.getD_eq_getElem _ _ (lengths ▸ inside)]

private theorem toInt_signed {value : BitVec 32} (small : value.toNat < 2 ^ 31) (set : Bool) :
    ((1 - 2 * (if set then 1 else 0)) * value).toInt =
      if set then -(value.toNat : Int) else value.toNat := by
  have unsigned := toInt_of_small small
  cases set with
  | false =>
    have one : (1 - 2 * (if false = true then 1 else 0) : BitVec 32) = 1#32 := rfl
    rw [one, BitVec.one_mul, unsigned]
    rfl
  | true =>
    have minusOne : (1 - 2 * (if true = true then 1 else 0) : BitVec 32) = -1#32 := rfl
    rw [minusOne, BitVec.neg_mul, BitVec.one_mul, BitVec.toInt_neg, unsigned,
      if_pos rfl, Int.bmod_eq_of_le] <;> omega

/-! ## The gather walk -/

theorem Prepared.advanceRoots_delta (prepared : Prepared p primeData bvalues shift terms)
    (flips : Flips id1 id2 bit) (inside : bit < terms.length) (roots : BitVec 32 × BitVec 32) :
    ∃ delta : BitVec 32, delta.toInt.natAbs < p.toNat ∧ (delta.toInt : ZMod p.toNat) =
        (if id2.getLsbD bit then -terms[bit] else terms[bit]) ∧
      advanceRoots id1 id2 p bvalues roots = (modSum (modSum roots.1 delta p) delta p,
          modSum (modSum roots.2 delta p) delta p) := by
  have value := prepared.getD_bvalues inside
  have below := value.lt
  have signed := toInt_signed (value.lt.trans prepared.small) (id2.getLsbD bit)
  refine ⟨(1 - 2 * (if id2.getLsbD bit then 1 else 0)) * bvalues.getD bit 0, ?_, ?_, ?_⟩
  · rw [signed]
    split <;> omega
  · rw [signed, ← value.cast]
    cases id2.getLsbD bit <;> simp
  · simp only [CudaMpqs.advanceRoots]
    rw [if_neg flips.ne, shiftRight_and_one_eq, flips.bitToFlip]

theorem Prepared.advanceRoots (prepared : Prepared p primeData bvalues shift terms)
    (flips : Flips id1 id2 bit) (inside : bit < terms.length) {roots : BitVec 32 × BitVec 32}
    {first second : ZMod p.toNat}
    (firstResidue : Residue p roots.1 (first - signedSum terms id1.getLsbD))
    (secondResidue : Residue p roots.2 (second - signedSum terms id1.getLsbD)) :
    Residue p (advanceRoots id1 id2 p bvalues roots).1 (first - signedSum terms id2.getLsbD) ∧
      Residue p (advanceRoots id1 id2 p bvalues roots).2
        (second - signedSum terms id2.getLsbD) := by
  rcases prepared.advanceRoots_delta flips inside roots with
    ⟨delta, bound, cast, moved⟩
  have firstMoved := (firstResidue.modSum bound).modSum bound
  have secondMoved := (secondResidue.modSum bound).modSum bound
  rw [cast] at firstMoved secondMoved
  rw [moved, signedSum_flips flips inside]
  constructor
  · convert firstMoved using 1
    split <;> ring
  · convert secondMoved using 1
    split <;> ring

/-- A Gray step moves the roots of an id to those of the next one. -/
theorem Prepared.advanceRoots_rootsFromPolyId (prepared : Prepared p primeData bvalues shift terms)
    (flips : Flips id1 id2 bit) (inside : bit < terms.length) :
    CudaMpqs.advanceRoots id1 id2 p bvalues (CudaMpqs.rootsFromPolyId id1 primeData bvalues) =
      CudaMpqs.rootsFromPolyId id2 primeData bvalues := by
  have before := prepared.rootsFromPolyId id1
  have after := prepared.rootsFromPolyId id2
  have moved := prepared.advanceRoots flips inside before.1 before.2
  exact Prod.ext (moved.1.unique after.1) (moved.2.unique after.2)

end Walks

/-! ## The coefficient `b` -/

def polynomialB (bigBValues : List UInt512) (id : BitVec 32) : Int :=
  signedSum (bigBValues.map fun B => (B.toNat : Int)) id.getLsbD

theorem add_modEq {b B : UInt512} {value : Int}
    (congruent : (b.toNat : Int) ≡ value [ZMOD UInt512.cardinality]) :
    ((b.add B).toNat : Int) ≡ value + B.toNat [ZMOD UInt512.cardinality] := by
  rw [UInt512.toNat_add, Int.natCast_mod, Nat.cast_add]
  exact (Int.mod_modEq _ _).trans (congruent.add_right _)

theorem sub_modEq {b B : UInt512} {value : Int}
    (congruent : (b.toNat : Int) ≡ value [ZMOD UInt512.cardinality]) :
    ((b.sub B).toNat : Int) ≡ value - B.toNat [ZMOD UInt512.cardinality] := by
  rw [UInt512.toNat_sub, Int.natCast_mod, Nat.cast_add, Nat.cast_sub B.toNat_lt.le]
  refine (Int.mod_modEq _ _).trans ?_
  have shifted : (b.toNat : Int) + (UInt512.cardinality - B.toNat) =
      b.toNat - B.toNat + UInt512.cardinality := by ring
  rw [shifted]
  exact Int.add_modEq_right.trans (congruent.sub_right _)

theorem bFromPolyId_modEq (bigBValues : List UInt512) (id : BitVec 32)
    {result : UInt512} {value : Int}
    (congruent : (result.toNat : Int) ≡ value [ZMOD UInt512.cardinality]) :
    ((bFromPolyId id bigBValues result).toNat : Int) ≡
      value + polynomialB bigBValues id [ZMOD UInt512.cardinality] := by
  induction bigBValues generalizing id result value with
  | nil => simpa [bFromPolyId, polynomialB, signedSum] using congruent
  | cons B bigBValues induction =>
    have shifted : (fun index => id.getLsbD (index + 1)) = (id >>> 1).getLsbD := by
      funext index
      rw [BitVec.getLsbD_ushiftRight, Nat.add_comm]
    rw [bFromPolyId, polynomialB, List.map_cons, signedSum, shifted, ← add_assoc]
    apply induction
    cases bit : id.getLsbD 0 with
    | false =>
      rw [if_neg (by rw [and_one_eq_one_iff, bit]; exact Bool.noConfusion)]
      exact sub_modEq congruent
    | true =>
      rw [if_pos ((and_one_eq_one_iff id).mpr bit)]
      exact add_modEq congruent

theorem advanceB_modEq {id1 id2 : BitVec 32} {bit : Nat} (flips : Flips id1 id2 bit)
    {bigBValues : List UInt512} (inside : bit < bigBValues.length) {b : UInt512}
    (congruent : (b.toNat : Int) ≡ polynomialB bigBValues id1 [ZMOD UInt512.cardinality]) :
    ((advanceB id1 id2 bigBValues b).toNat : Int) ≡
      polynomialB bigBValues id2 [ZMOD UInt512.cardinality] := by
  have insideMap : bit < (bigBValues.map fun B => (B.toNat : Int)).length := by
    simpa using inside
  have sum := signedSum_flips flips insideMap
  rw [List.getElem_map] at sum
  rw [polynomialB, sum]
  simp only [advanceB]
  rw [shiftRight_and_one_eq, flips.bitToFlip, List.getD_eq_getElem _ _ inside]
  cases set : id2.getLsbD bit with
  | false => exact sub_modEq (sub_modEq congruent)
  | true => exact add_modEq (add_modEq congruent)

/-! ## Walks over a block of ids -/

theorem flips_or {polyIdPrefix code1 code2 : BitVec 32} {bit : Nat} (inside : bit < 32)
    (clear : polyIdPrefix.getLsbD bit = false)
    (change : code2.toNat = code1.toNat ^^^ 2 ^ bit) :
    Flips (polyIdPrefix ||| code1) (polyIdPrefix ||| code2) bit := by
  refine ⟨inside, ?_⟩
  apply Nat.eq_of_testBit_eq
  intro index
  rw [BitVec.toNat_or, BitVec.toNat_or, change, Nat.testBit_or, Nat.testBit_xor,
    Nat.testBit_xor, Nat.testBit_or]
  by_cases same : index = bit
  · subst same
    have low : polyIdPrefix.toNat.testBit index = false := clear
    rw [low, Bool.false_or, Bool.false_or]
  · rw [Nat.testBit_two_pow_of_ne (Ne.symm same), Bool.xor_false, Bool.xor_false]

theorem getLsbD_of_multiple {word : BitVec 32} {width bit : Nat}
    (multiple : word.toNat % 2 ^ width = 0) (below : bit < width) :
    word.getLsbD bit = false := by
  have low := Nat.testBit_mod_two_pow word.toNat width bit
  rw [multiple, Nat.zero_testBit, decide_eq_true below, Bool.true_and] at low
  exact low.symm

theorem exists_flips_succ {polyIdPrefix : BitVec 32} {width poly : Nat}
    (fits : width ≤ 32) (multiple : polyIdPrefix.toNat % 2 ^ width = 0)
    (inside : poly + 1 < 2 ^ width) :
    ∃ bit < width, Flips (polyIdPrefix ||| gray (BitVec.ofNat 32 poly))
      (polyIdPrefix ||| gray (BitVec.ofNat 32 (poly + 1))) bit := by
  have bound : 2 ^ width ≤ 2 ^ 32 := Nat.pow_le_pow_right (by decide) fits
  rcases exists_lowestBit (Nat.succ_pos poly) with ⟨bit, lowest⟩
  have below : bit < width :=
    (Nat.pow_lt_pow_iff_right (by decide)).mp (lowest.two_pow_le.trans_lt inside)
  refine ⟨bit, below, flips_or (by omega) (getLsbD_of_multiple multiple below) ?_⟩
  rw [toNat_gray, toNat_gray, BitVec.toNat_ofNat, BitVec.toNat_ofNat,
    Nat.mod_eq_of_lt (by omega), Nat.mod_eq_of_lt (by omega)]
  exact lowest.grayCode_eq

section Walks

variable {p : BitVec 32} {primeData : PrimeDataSIQS} {bvalues : List (BitVec 32)}
  {shift : ZMod p.toNat} {terms : List (ZMod p.toNat)}
variable {width : Nat}

def Carries (p : BitVec 32) (walk : Nat → Option GatherState) (carried : Nat → Int × Int)
    (count : Nat) : Prop :=
  ∀ poly, poly + 1 < count → ∀ state, walk poly = some state →
    (p.toNat : Int) ∣ (carried poly).1 - state.offsets.1 ∧
      (p.toNat : Int) ∣ (carried poly).2 - state.offsets.2

structure GatherFits (p : BitVec 32) (primeData : PrimeDataSIQS) (bvalues : List (BitVec 32))
    (polyIdPrefix sieveIntervalStart : BitVec 32) (carried : Nat → Int × Int) (count : Nat) :
    Prop where
  stored : ∀ poly < count,
    let roots := rootsFromPolyId (polyIdPrefix ||| gray (BitVec.ofNat 32 poly)) primeData bvalues
    OffsetFits sieveIntervalStart.toInt p roots.1 ∧ OffsetFits sieveIntervalStart.toInt p roots.2
  readBack : ∀ poly, poly + 1 < count → InInt ((carried poly).1.tmod p.toNat + p.toNat) ∧
      InInt ((carried poly).2.tmod p.toNat + p.toNat)

section

variable (prepared : Prepared p primeData bvalues shift terms)

include prepared

theorem Prepared.rootsFromPolyId_lt (id : BitVec 32) :
    (CudaMpqs.rootsFromPolyId id primeData bvalues).1.toNat < p.toNat ∧
      (CudaMpqs.rootsFromPolyId id primeData bvalues).2.toNat < p.toNat :=
  ⟨(prepared.rootsFromPolyId id).1.lt, (prepared.rootsFromPolyId id).2.lt⟩

theorem Prepared.isSome_gatherOffsets_iff {sieveIntervalStart : BitVec 32}
    {roots : BitVec 32 × BitVec 32} {b : UInt512} :
    (gatherOffsets sieveIntervalStart primeData.p roots b).isSome ↔
      OffsetFits sieveIntervalStart.toInt p roots.1 ∧
        OffsetFits sieveIntervalStart.toInt p roots.2 := by
  rw [gatherOffsets, prepared.modulus, ← isSome_rootOffset_iff, ← isSome_rootOffset_iff]
  cases rootOffset sieveIntervalStart.toInt p roots.1 <;>
    cases rootOffset sieveIntervalStart.toInt p roots.2 <;> simp

theorem Prepared.gatherOffsets_next {sieveIntervalStart : BitVec 32}
    {roots : BitVec 32 × BitVec 32} {b : UInt512} {state : GatherState}
    (below : roots.1.toNat < p.toNat ∧ roots.2.toNat < p.toNat)
    (defined : gatherOffsets sieveIntervalStart primeData.p roots b = some state) :
    state.roots = roots ∧ state.b = b ∧
      Next p.toNat roots.1.toNat sieveIntervalStart.toInt state.offsets.1 ∧
      Next p.toNat roots.2.toNat sieveIntervalStart.toInt state.offsets.2 := by
  rw [gatherOffsets, prepared.modulus] at defined
  rcases Option.bind_eq_some_iff.mp defined with ⟨offset1, first, rest⟩
  rcases Option.bind_eq_some_iff.mp rest with ⟨offset2, second, isState⟩
  cases isState
  exact ⟨rfl, rfl, rootOffset_next below.1 first, rootOffset_next below.2 second⟩

section

variable {bigBValues : List UInt512} {polyIdPrefix sieveIntervalStart : BitVec 32}
  {carried : Nat → Int × Int}

theorem Prepared.offsetRoot_carried {root : BitVec 32} {offset later : Int}
    (below : root.toNat < p.toNat) (moved : (p.toNat : Int) ∣ later - offset)
    (congruent : (p.toNat : Int) ∣ offset - root.toNat) :
    offsetRoot later primeData.p.toNat =
      if InInt (later.tmod p.toNat + p.toNat) then some root else none := by
  rw [prepared.modulus]
  refine offsetRoot_eq ?_ (by exact_mod_cast below)
  rw [← sub_add_sub_cancel later offset root.toNat]
  exact dvd_add moved congruent

/-- What the walk keeps at every polynomial that it reaches. -/
theorem Prepared.gatherWalk_spec (lengths : terms.length = bigBValues.length) (fits : width ≤ 32)
    (dimension : width ≤ terms.length) (multiple : polyIdPrefix.toNat % 2 ^ width = 0)
    (carries : Carries p (gatherWalk primeData bvalues bigBValues polyIdPrefix sieveIntervalStart
      carried) carried (2 ^ width)) {poly : Nat} (inside : poly < 2 ^ width) {state : GatherState}
    (run : gatherWalk primeData bvalues bigBValues polyIdPrefix sieveIntervalStart carried poly =
      some state) :
    let id := polyIdPrefix ||| gray (BitVec.ofNat 32 poly)
    let roots := CudaMpqs.rootsFromPolyId id primeData bvalues
    state.roots = roots ∧
      (state.b.toNat : Int) ≡ polynomialB bigBValues id [ZMOD UInt512.cardinality] ∧
      Next p.toNat roots.1.toNat sieveIntervalStart.toInt state.offsets.1 ∧
      Next p.toNat roots.2.toNat sieveIntervalStart.toInt state.offsets.2 := by
  induction poly generalizing state with
  | zero =>
    have first : polyIdPrefix ||| gray (BitVec.ofNat 32 0) = polyIdPrefix := BitVec.or_zero
    have zero : ((UInt512.ofNat 0).toNat : Int) ≡ 0 [ZMOD UInt512.cardinality] := by
      simp
    have b := bFromPolyId_modEq bigBValues polyIdPrefix zero
    rw [zero_add] at b
    simp only [first]
    rcases prepared.gatherOffsets_next (prepared.rootsFromPolyId_lt polyIdPrefix) run with
      ⟨roots, isB, next1, next2⟩
    exact ⟨roots, isB ▸ b, next1, next2⟩
  | succ poly induction =>
    rcases Option.bind_eq_some_iff.mp run with ⟨before, isBefore, rest⟩
    rcases Option.bind_eq_some_iff.mp rest with ⟨root1, isRoot1, rest⟩
    rcases Option.bind_eq_some_iff.mp rest with ⟨root2, isRoot2, rest⟩
    rcases induction (Nat.lt_of_succ_lt inside) isBefore with ⟨-, b, next1, next2⟩
    rcases carries poly inside before isBefore with ⟨moved1, moved2⟩
    rcases exists_flips_succ fits multiple inside with ⟨bit, below, flips⟩
    have dimensionBit : bit < terms.length := Nat.lt_of_lt_of_le below dimension
    have roots := prepared.rootsFromPolyId_lt (polyIdPrefix ||| gray (BitVec.ofNat 32 poly))
    rw [prepared.offsetRoot_carried roots.1 moved1 next1.congruent] at isRoot1
    rw [prepared.offsetRoot_carried roots.2 moved2 next2.congruent] at isRoot2
    obtain rfl := Option.some_inj.mp (Option.ite_none_right_eq_some.mp isRoot1).2
    obtain rfl := Option.some_inj.mp (Option.ite_none_right_eq_some.mp isRoot2).2
    have moved := prepared.advanceRoots_rootsFromPolyId flips dimensionBit
    rw [← prepared.modulus] at moved
    rw [Prod.mk.eta, moved] at rest
    rcases prepared.gatherOffsets_next (prepared.rootsFromPolyId_lt _) rest with
      ⟨isRoots, isB, after1, after2⟩
    exact ⟨isRoots, isB ▸ advanceB_modEq flips (lengths ▸ dimensionBit) b, after1, after2⟩

/-- One step is defined where the roots can be read back and the next offsets stored. -/
theorem Prepared.isSome_gatherWalk_succ_iff (lengths : terms.length = bigBValues.length)
    (fits : width ≤ 32) (dimension : width ≤ terms.length)
    (multiple : polyIdPrefix.toNat % 2 ^ width = 0)
    (carries : Carries p (gatherWalk primeData bvalues bigBValues polyIdPrefix sieveIntervalStart
      carried) carried (2 ^ width)) {poly : Nat} (inside : poly + 1 < 2 ^ width)
      {state : GatherState}
    (before : gatherWalk primeData bvalues bigBValues polyIdPrefix sieveIntervalStart carried poly =
      some state) :
    let next := CudaMpqs.rootsFromPolyId (polyIdPrefix ||| gray (BitVec.ofNat 32 (poly + 1)))
      primeData
      bvalues
    (gatherWalk primeData bvalues bigBValues polyIdPrefix sieveIntervalStart carried
        (poly + 1)).isSome ↔
      (InInt ((carried poly).1.tmod p.toNat + p.toNat) ∧
        InInt ((carried poly).2.tmod p.toNat + p.toNat)) ∧
      OffsetFits sieveIntervalStart.toInt p next.1 ∧
        OffsetFits sieveIntervalStart.toInt p next.2 := by
  rcases prepared.gatherWalk_spec lengths fits dimension multiple carries
    (Nat.lt_of_succ_lt inside) before with ⟨-, -, next1, next2⟩
  rcases carries poly inside state before with ⟨moved1, moved2⟩
  rcases exists_flips_succ fits multiple inside with ⟨bit, below, flips⟩
  have roots := prepared.rootsFromPolyId_lt (polyIdPrefix ||| gray (BitVec.ofNat 32 poly))
  have moved := prepared.advanceRoots_rootsFromPolyId flips (below.trans_le dimension)
  rw [← prepared.modulus] at moved
  rw [gatherWalk, before]
  simp only [Option.bind_eq_bind, Option.bind_some,
    prepared.offsetRoot_carried roots.1 moved1 next1.congruent,
    prepared.offsetRoot_carried roots.2 moved2 next2.congruent]
  split
  next first =>
      rw [Option.bind_some]
      split
      next second =>
          rw [Option.bind_some, Prod.mk.eta, moved, prepared.isSome_gatherOffsets_iff]
          exact (and_iff_right (And.intro first second)).symm
      next second => exact iff_of_false Bool.false_ne_true fun both => second both.1.2
  next first => exact iff_of_false Bool.false_ne_true fun both => first both.1.1

theorem Prepared.isSome_gatherWalk_iff (lengths : terms.length = bigBValues.length)
    (fits : width ≤ 32) (dimension : width ≤ terms.length)
    (multiple : polyIdPrefix.toNat % 2 ^ width = 0)
    (carries : Carries p (gatherWalk primeData bvalues bigBValues polyIdPrefix sieveIntervalStart
      carried) carried (2 ^ width)) :
    (∀ poly < 2 ^ width, (gatherWalk primeData bvalues bigBValues polyIdPrefix sieveIntervalStart
      carried poly).isSome) ↔
      GatherFits p primeData bvalues polyIdPrefix sieveIntervalStart carried (2 ^ width) := by
  have first : polyIdPrefix ||| gray (BitVec.ofNat 32 0) = polyIdPrefix := BitVec.or_zero
  have start : (gatherWalk primeData bvalues bigBValues polyIdPrefix sieveIntervalStart carried
      0).isSome ↔ _ := prepared.isSome_gatherOffsets_iff
  have step := fun poly inside state => @Prepared.isSome_gatherWalk_succ_iff _ _ _ _ _ _ prepared
    _ _ _ _ lengths fits dimension multiple carries poly inside state
  constructor
  · intro defined
    constructor
    · intro poly inside
      rcases poly with _ | poly
      · rw [first]
        exact start.mp (defined 0 inside)
      · rcases Option.isSome_iff_exists.mp (defined poly (Nat.lt_of_succ_lt inside)) with
          ⟨state, before⟩
        exact ((step poly inside state before).mp (defined (poly + 1) inside)).2
    · intro poly inside
      rcases Option.isSome_iff_exists.mp (defined poly (Nat.lt_of_succ_lt inside)) with
        ⟨state, before⟩
      exact ((step poly inside state before).mp (defined (poly + 1) inside)).1
  · intro whole poly inside
    induction poly with
    | zero =>
      have roots := whole.stored 0 inside
      rw [first] at roots
      exact start.mpr roots
    | succ poly induction =>
      rcases Option.isSome_iff_exists.mp (induction (Nat.lt_of_succ_lt inside)) with
        ⟨state, before⟩
      exact (step poly inside state before).mpr
        ⟨whole.readBack poly inside, whole.stored (poly + 1) inside⟩

end

theorem Prepared.doubled {bit width : Nat} (below : bit < width) (inside : bit < terms.length) :
    Residue p ((storeDoubledBValues bvalues width p).getD bit 0) (terms[bit] + terms[bit]) := by
  have value := prepared.getD_bvalues inside
  have small := prepared.small
  have bound := value.lt
  have entry : (storeDoubledBValues bvalues width p).getD bit 0 =
      if p ≤ bvalues.getD bit 0 <<< 1 then
        bvalues.getD bit 0 <<< 1 - p else bvalues.getD bit 0 <<< 1 := by
    rw [storeDoubledBValues, List.getD_eq_getElem _ _ (by simpa using below),
      List.getElem_map, List.getElem_range]
  have twice : (bvalues.getD bit 0 <<< 1).toNat = 2 * (bvalues.getD bit 0).toNat := by
    rw [BitVec.toNat_shiftLeft, Nat.shiftLeft_eq]
    omega
  have cast : ((2 * (bvalues.getD bit 0).toNat : Nat) : ZMod p.toNat) =
      terms[bit] + terms[bit] := by
    rw [Nat.cast_mul, value.cast]
    exact two_mul _
  rw [entry]
  split
  next above =>
      rw [BitVec.le_def, twice] at above
      have difference : (bvalues.getD bit 0 <<< 1 - p).toNat =
          2 * (bvalues.getD bit 0).toNat - p.toNat := by
        rw [BitVec.toNat_sub_of_le (by rw [BitVec.le_def, twice]; exact above), twice]
      refine ⟨by omega, ?_⟩
      rw [difference, Nat.cast_sub above, ZMod.natCast_self, sub_zero, cast]
  next below =>
      rw [BitVec.le_def, twice] at below
      exact ⟨by omega, by rw [twice, cast]⟩

theorem Prepared.modAdd_doubled {id1 id2 : BitVec 32} {bit width : Nat} (flips : Flips id1 id2 bit)
    (below : bit < width) (inside : bit < terms.length) {rel : BitVec 32} {start : ZMod p.toNat}
    (residue : Residue p rel (start - signedSum terms id1.getLsbD)) :
    Residue p (modAdd rel (if id2.getLsbD bit then
        p - (storeDoubledBValues bvalues width p).getD bit 0
        else (storeDoubledBValues bvalues width p).getD bit 0) p)
      (start - signedSum terms id2.getLsbD) := by
  have table := prepared.doubled below inside
  have sum := signedSum_flips flips inside
  cases set : id2.getLsbD bit with
  | false =>
    rw [set, if_neg Bool.false_ne_true] at sum
    have moved := residue.modAdd prepared.small.le table.summand
    have value : start - signedSum terms id1.getLsbD + (terms[bit] + terms[bit]) =
        start - signedSum terms id2.getLsbD := by
      rw [sum]
      ring
    rwa [if_neg Bool.false_ne_true, ← value]
  | true =>
    rw [set, if_pos rfl] at sum
    have moved := residue.modAdd prepared.small.le table.neg
    have value : start - signedSum terms id1.getLsbD + -(terms[bit] + terms[bit]) =
        start - signedSum terms id2.getLsbD := by
      rw [sum]
      ring
    rwa [if_pos rfl, ← value]

theorem Prepared.advanceRelRootsScatter {id1 id2 : BitVec 32} {bit width : Nat}
    (flips : Flips id1 id2 bit) (below : bit < width) (inside : bit < terms.length)
    {flip : GrayFlip} (bitEq : flip.bit.toNat = bit) (setEq : flip.nowSet = id2.getLsbD bit)
    {rels : BitVec 32 × BitVec 32} {first second : ZMod p.toNat}
    (firstResidue : Residue p rels.1 (first - signedSum terms id1.getLsbD))
    (secondResidue : Residue p rels.2 (second - signedSum terms id1.getLsbD)) :
    let moved := advanceRelRootsScatter flip p
      (storeDoubledBValues bvalues width p) rels
    Residue p moved.1 (first - signedSum terms id2.getLsbD) ∧
      Residue p moved.2 (second - signedSum terms id2.getLsbD) := by
  simp only [CudaMpqs.advanceRelRootsScatter, bitEq, setEq]
  exact ⟨prepared.modAdd_doubled flips below inside firstResidue,
    prepared.modAdd_doubled flips below inside secondResidue⟩

end

theorem blockMask_eq (fits : width < 31) :
    BitVec.ofNat 32 (2 ^ (width + 1)) - 1 = BitVec.ofNat 32 (2 ^ (width + 1) - 1) := by
  have blockFits : 2 ^ (width + 1) < 2 ^ 32 := Nat.pow_lt_pow_right (by decide) (by omega)
  have positive := Nat.two_pow_pos (width + 1)
  apply BitVec.eq_of_toNat_eq
  have one_le : (1 : BitVec 32) ≤ BitVec.ofNat 32 (2 ^ (width + 1)) := by
    rw [BitVec.le_def, BitVec.toNat_ofNat, Nat.mod_eq_of_lt blockFits]
    exact positive
  rw [BitVec.toNat_sub_of_le one_le, BitVec.toNat_ofNat, BitVec.toNat_ofNat,
    Nat.mod_eq_of_lt blockFits, Nat.mod_eq_of_lt (by omega)]
  rfl

theorem polyBlockHalf_eq (fits : width < 31) :
    polyBlockHalf (BitVec.ofNat 32 (2 ^ (width + 1))) = BitVec.ofNat 32 (2 ^ width) := by
  have blockFits : 2 ^ (width + 1) < 2 ^ 32 := Nat.pow_lt_pow_right (by decide) (by omega)
  have halfFits : 2 ^ width < 2 ^ 32 := Nat.pow_lt_pow_right (by decide) (by omega)
  have positive := Nat.two_pow_pos width
  have shifted : BitVec.ofNat 32 (2 ^ (width + 1)) >>> 1 = BitVec.ofNat 32 (2 ^ width) := by
    apply BitVec.eq_of_toNat_eq
    rw [BitVec.toNat_ushiftRight, BitVec.toNat_ofNat, BitVec.toNat_ofNat,
      Nat.mod_eq_of_lt blockFits, Nat.mod_eq_of_lt halfFits, Nat.shiftRight_eq_div_pow,
      Nat.pow_one, Nat.pow_succ, Nat.mul_div_cancel _ (by decide)]
  have large : ¬ BitVec.ofNat 32 (2 ^ width) < 1#32 := by
    rw [BitVec.lt_def, BitVec.toNat_ofNat, Nat.mod_eq_of_lt halfFits]
    exact Nat.not_lt.mpr positive
  rw [polyBlockHalf, shifted, if_neg large]

/-- The walk index is a `uint32_t`, whose wrap the block size divides. -/
theorem walkIndex_mod (fits : width < 31) (polyWalkStart : BitVec 32) (steps : Nat) :
    (polyWalkStart + 1 + BitVec.ofNat 32 steps).toNat % 2 ^ (width + 1) =
      (polyWalkStart.toNat + steps + 1) % 2 ^ (width + 1) := by
  have divides : 2 ^ (width + 1) ∣ 2 ^ 32 := Nat.pow_dvd_pow 2 (by omega)
  have one : (1 : BitVec 32).toNat = 1 := rfl
  rw [BitVec.toNat_add, BitVec.toNat_add, BitVec.toNat_ofNat, one,
    Nat.mod_mod_of_dvd _ divides, Nat.add_mod, Nat.mod_mod_of_dvd _ divides,
    Nat.mod_mod_of_dvd _ divides, ← Nat.add_mod]
  congr 1
  omega

/-- The walk through a poly block, from any start, for any number of steps. -/
theorem Prepared.scatterWalk (prepared : Prepared p primeData bvalues shift terms)
    {fullPolyIdPrefix polyWalkStart : BitVec 32} (fits : width < 31)
    (dimension : width + 1 ≤ terms.length) (multiple : fullPolyIdPrefix.toNat % 2 ^ (width + 1) = 0)
    (inside : polyWalkStart.toNat < 2 ^ (width + 1)) (start : ScatterState)
    (startId : start.polyId = gray polyWalkStart) {first second : ZMod p.toNat}
    (firstResidue : Residue p start.rels.1
      (first - signedSum terms (fullPolyIdPrefix ||| start.polyId).getLsbD))
    (secondResidue : Residue p start.rels.2
      (second - signedSum terms (fullPolyIdPrefix ||| start.polyId).getLsbD))
    (steps : Nat) :
    let state := scatterWalk primeData bvalues (width + 1) polyWalkStart start steps
    state.polyId.toNat = grayCode ((polyWalkStart.toNat + steps) % 2 ^ (width + 1)) ∧
      Residue p state.rels.1
        (first - signedSum terms (fullPolyIdPrefix ||| state.polyId).getLsbD) ∧
      Residue p state.rels.2
        (second - signedSum terms (fullPolyIdPrefix ||| state.polyId).getLsbD) := by
  induction steps with
  | zero =>
    refine ⟨?_, firstResidue, secondResidue⟩
    rw [CudaMpqs.scatterWalk, startId, toNat_gray, Nat.add_zero, Nat.mod_eq_of_lt inside]
  | succ steps induction =>
    rcases induction with ⟨code, firstBefore, secondBefore⟩
    have flip := advanceGrayCyclic_spec fits (walkIndex_mod fits polyWalkStart steps) code
    simp only [CudaMpqs.scatterWalk, blockMask_eq fits, polyBlockHalf_eq fits,
      ← Nat.add_assoc, prepared.modulus]
    rcases flip with ⟨bitBound, next, change, set⟩
    have low := getLsbD_of_multiple multiple (Nat.lt_succ_of_le bitBound)
    have flips := flips_or (by omega) low change
    have moved := prepared.advanceRelRootsScatter flips (Nat.lt_succ_of_le bitBound)
      (by omega) rfl (by rw [set, BitVec.getLsbD_or, low, Bool.false_or]; rfl)
      firstBefore secondBefore
    exact ⟨next, moved⟩

end Walks

/-! ## The tracked roots solve the polynomial -/

structure SievePrime (a N : UInt512) (p rootN : BitVec 32) : Prop where
  prime : p.toNat.Prime
  small : p.toNat < 2 ^ 31
  coprime : ¬ p.toNat ∣ a.toNat
  root : rootN.toNat ^ 2 ≡ N.toNat [MOD p.toNat]

/-- The residues `x` and `y`, counted from `start`, are exactly the solutions
of `(aX + b)^2 = N` modulo `p`. -/
structure TracksRoots (a N : UInt512) (b start : Int) (p : BitVec 32)
    (roots : BitVec 32 × BitVec 32) : Prop where
  first_lt : roots.1.toNat < p.toNat
  second_lt : roots.2.toNat < p.toNat
  solutions : ∀ X : Int, (a.toNat * X + b) ^ 2 ≡ N.toNat [ZMOD p.toNat] ↔
    X ≡ start + roots.1.toNat [ZMOD p.toNat] ∨ X ≡ start + roots.2.toNat [ZMOD p.toNat]

/-- What the gather kernel holds of a polynomial: its roots, their first positions from `start`
on, and its coefficient modulo `2 ^ 512`. -/
structure GatherTracks (a N : UInt512) (b start : Int) (p : BitVec 32) (state : GatherState) :
    Prop where
  tracks : TracksRoots a N b 0 p state.roots
  offset1 : Next p.toNat state.roots.1.toNat start state.offsets.1
  offset2 : Next p.toNat state.roots.2.toNat start state.offsets.2
  b_eq : (state.b.toNat : Int) = b % UInt512.cardinality

def columnTerms (p : BitVec 32) (inverse : ZMod p.toNat) (bigBValues : List UInt512) :
    List (ZMod p.toNat) :=
  bigBValues.map fun B => inverse * ((B.toNat : Int) : ZMod p.toNat)

theorem signedSum_columnTerms (p : BitVec 32) (inverse : ZMod p.toNat)
    (bigBValues : List UInt512) (id : BitVec 32) :
    signedSum (columnTerms p inverse bigBValues) id.getLsbD =
      inverse * (polynomialB bigBValues id : ZMod p.toNat) := by
  have mapped := map_signedSum
    ((AddMonoidHom.mulLeft inverse).comp (Int.castAddHom (ZMod p.toNat)))
    (bigBValues.map fun B => (B.toNat : Int)) id.getLsbD
  rw [List.map_map] at mapped
  exact mapped.symm

variable {a N : UInt512} {p rootN : BitVec 32}

/-- Whatever stands for the inverse of `a` scales the root and the column. -/
theorem prepared_of_residue (prime : p.toNat.Prime) (small : p.toNat < 2 ^ 31)
    {inverse : ZMod p.toNat}
    (residue : Residue p (powerLoop p 32 (p - 2) (a.modUInt32 p) 1) inverse)
    (bigBValues : List UInt512) (sieveIntervalStart : BitVec 32) :
    let data := initPrimeDataBatch a bigBValues p rootN sieveIntervalStart
    Prepared p data.1 data.2 (inverse * rootN.toNat) (columnTerms p inverse bigBValues) := by
  intro data
  have nonzero : p ≠ 0 := by
    rintro rfl
    exact absurd prime.two_le (by decide)
  refine ⟨rfl, small, ?_, ?_⟩
  · have product := residue_mul prime.pos
      (powerLoop p 32 (p - 2) (a.modUInt32 p) 1) rootN
    rwa [residue.cast] at product
  · have column : data.2 = bigBValues.map fun B => mulMod32 (B.modUInt32 p)
        (powerLoop p 32 (p - 2) (a.modUInt32 p) 1) p := rfl
    rw [column, columnTerms, List.forall₂_map_left_iff, List.forall₂_map_right_iff]
    apply List.forall₂_same.mpr
    intro B _
    have reduced := residue_mod prime.pos (B.toNat_modUInt32 nonzero)
    have product := reduced.mulMod32 residue
    rwa [mul_comm, ← Int.cast_natCast] at product

theorem SievePrime.prepared (factor : SievePrime a N p rootN)
    (bigBValues : List UInt512) (sieveIntervalStart : BitVec 32) :
    let data := initPrimeDataBatch a bigBValues p rootN sieveIntervalStart
    ∃ inverse : ZMod p.toNat, inverse * (a.toNat : ZMod p.toNat) = 1 ∧
      Prepared p data.1 data.2 (inverse * rootN.toNat)
        (columnTerms p inverse bigBValues) := by
  rcases initPrimeDataBatch_inverse factor.prime factor.small factor.coprime with
    ⟨inverse, unit, residue⟩
  exact ⟨inverse, unit,
    prepared_of_residue factor.prime factor.small residue bigBValues sieveIntervalStart⟩

private theorem linear_eq_iff {R : Type} [CommRing R] {inverse a : R} (unit : inverse * a = 1)
    (X b root start : R) :
    a * X + b = root ↔ X = start + (inverse * root - start - inverse * b) := by
  have solved : start + (inverse * root - start - inverse * b) = inverse * (root - b) := by
    ring
  rw [solved]
  constructor
  · intro equation
    have rest : root - b = a * X := by rw [← equation, add_sub_cancel_right]
    rw [rest, ← mul_assoc, unit, one_mul]
  · intro solution
    rw [solution, ← mul_assoc, mul_comm a, unit, one_mul, sub_add_cancel]

theorem SievePrime.tracksRoots (factor : SievePrime a N p rootN)
    {inverse : ZMod p.toNat} (unit : inverse * (a.toNat : ZMod p.toNat) = 1)
    {b start : Int} {roots : BitVec 32 × BitVec 32}
    (firstResidue : Residue p roots.1
      (inverse * rootN.toNat - start - inverse * (b : ZMod p.toNat)))
    (secondResidue : Residue p roots.2
      (-(inverse * rootN.toNat) - start - inverse * (b : ZMod p.toNat))) :
    TracksRoots a N b start p roots := by
  refine ⟨firstResidue.lt, secondResidue.lt, ?_⟩
  intro X
  have field : Fact p.toNat.Prime := ⟨factor.prime⟩
  have square : (N.toNat : ZMod p.toNat) = (rootN.toNat : ZMod p.toNat) ^ 2 := by
    rw [← Nat.cast_pow]
    exact ((ZMod.natCast_eq_natCast_iff _ _ _).mpr factor.root).symm
  rw [← ZMod.intCast_eq_intCast_iff, ← ZMod.intCast_eq_intCast_iff, ← ZMod.intCast_eq_intCast_iff]
  push_cast
  rw [square, sq_eq_sq_iff_eq_or_eq_neg, firstResidue.cast, secondResidue.cast,
    linear_eq_iff unit, linear_eq_iff unit, mul_neg]

/-! ## Main result -/

theorem SievePrime.tracks_id (factor : SievePrime a N p rootN)
    (bigBValues : List UInt512) (sieveIntervalStart id : BitVec 32) :
    let data := initPrimeDataBatch a bigBValues p rootN sieveIntervalStart
    TracksRoots a N (polynomialB bigBValues id) 0 p (rootsFromPolyId id data.1 data.2) := by
  intro data
  rcases factor.prepared bigBValues sieveIntervalStart with ⟨inverse, unit, prepared⟩
  have roots := prepared.rootsFromPolyId id
  rw [signedSum_columnTerms] at roots
  apply factor.tracksRoots unit
  · rw [Int.cast_zero, sub_zero]
    exact roots.1
  · rw [Int.cast_zero, sub_zero]
    exact roots.2

theorem SievePrime.tracks_gather (factor : SievePrime a N p rootN)
    (bigBValues : List UInt512) (sieveIntervalStart : BitVec 32)
    {polyIdPrefix : BitVec 32} {width poly : Nat} (fits : width ≤ 32)
    (dimension : width ≤ bigBValues.length)
    (multiple : polyIdPrefix.toNat % 2 ^ width = 0) (inside : poly < 2 ^ width)
    {carried : Nat → Int × Int} {state : GatherState} :
    let data := initPrimeDataBatch a bigBValues p rootN sieveIntervalStart
    let id := polyIdPrefix ||| gray (BitVec.ofNat 32 poly)
    Carries p (gatherWalk data.1 data.2 bigBValues polyIdPrefix sieveIntervalStart carried)
      carried (2 ^ width) →
    gatherWalk data.1 data.2 bigBValues polyIdPrefix sieveIntervalStart carried poly = some state →
    GatherTracks a N (polynomialB bigBValues id) sieveIntervalStart.toInt p state := by
  intro data id carries run
  rcases factor.prepared bigBValues sieveIntervalStart with ⟨inverse, unit, prepared⟩
  have lengths : (columnTerms p inverse bigBValues).length = bigBValues.length :=
    List.length_map _
  rcases prepared.gatherWalk_spec lengths fits (lengths ▸ dimension) multiple carries inside run
    with ⟨roots, b, next1, next2⟩
  refine ⟨?_, ?_, ?_, ?_⟩
  · rw [roots]
    exact factor.tracks_id bigBValues sieveIntervalStart id
  · rwa [roots]
  · rwa [roots]
  · rw [← b.eq]
    exact (Int.emod_eq_of_lt (Int.natCast_nonneg _) (Int.ofNat_lt.mpr state.b.toNat_lt)).symm

theorem reducedSieveStart_eq {bigBValues : List UInt512}
    {sieveIntervalStart currentStart : BitVec 32} {cycle : Nat}
    (first : cycle = 0 → currentStart = sieveIntervalStart) :
    reducedSieveStart (initPrimeDataBatch a bigBValues p rootN sieveIntervalStart).1
      cycle currentStart = reduceStart currentStart p := by
  rw [reducedSieveStart]
  split
  next zero => rw [first zero, initPrimeDataBatch]
  next => rw [initPrimeDataBatch]

theorem SievePrime.tracks_scatter (factor : SievePrime a N p rootN)
    (bigBValues : List UInt512) {sieveIntervalStart currentStart : BitVec 32}
    {fullPolyIdPrefix polyWalkStart : BitVec 32} {width cycle : Nat} (fits : width < 31)
    (dimension : width + 1 ≤ bigBValues.length)
    (multiple : fullPolyIdPrefix.toNat % 2 ^ (width + 1) = 0)
    (inside : polyWalkStart.toNat < 2 ^ (width + 1))
    (first : cycle = 0 → currentStart = sieveIntervalStart)
    (startFits : StartFits currentStart p) (steps : Nat) :
    let data := initPrimeDataBatch a bigBValues p rootN sieveIntervalStart
    ∃ start, scatterStart data.1 data.2 fullPolyIdPrefix polyWalkStart cycle
        currentStart = some start ∧
      let state := scatterWalk data.1 data.2 (width + 1) polyWalkStart start steps
      state.polyId.toNat = grayCode ((polyWalkStart.toNat + steps) % 2 ^ (width + 1)) ∧
        TracksRoots a N (polynomialB bigBValues (fullPolyIdPrefix ||| state.polyId))
          currentStart.toInt p state.rels := by
  intro data
  rcases factor.prepared bigBValues sieveIntervalStart with ⟨inverse, unit, prepared⟩
  rcases reduceStart_spec factor.small factor.prime.pos startFits with
    ⟨reduced, defined, residue⟩
  have roots := prepared.rootsFromPolyId (fullPolyIdPrefix ||| gray polyWalkStart)
  have firstRel := roots.1.modSub residue
  have secondRel := roots.2.modSub residue
  rw [sub_right_comm] at firstRel secondRel
  have lengths : (columnTerms p inverse bigBValues).length = bigBValues.length :=
    List.length_map _
  generalize rootsEq : rootsFromPolyId (fullPolyIdPrefix ||| gray polyWalkStart)
    data.1 data.2 = pair at firstRel secondRel
  have start : scatterStart data.1 data.2 fullPolyIdPrefix polyWalkStart cycle
      currentStart = some ⟨gray polyWalkStart,
        (modSub pair.1 reduced p, modSub pair.2 reduced p)⟩ := by
    rw [scatterStart, reducedSieveStart_eq first, defined, rootsEq]
    rfl
  refine ⟨_, start, ?_⟩
  have walk := prepared.scatterWalk fits (lengths ▸ dimension) multiple inside
    ⟨gray polyWalkStart, (modSub pair.1 reduced p, modSub pair.2 reduced p)⟩ rfl
    firstRel secondRel steps
  simp only [signedSum_columnTerms] at walk
  exact ⟨walk.1, factor.tracksRoots unit walk.2.1 walk.2.2⟩

/-- For every prime of the factor base, the roots of an id are the two solutions. Those of
the gather walk are at each of its polynomials if and only if its `int` offsets do not
overflow, and those of the scatter walk if and only if the formula for the window start does
not. -/
theorem sieveRoots_track_iff (factor : SievePrime a N p rootN)
    (bigBValues : List UInt512) (sieveIntervalStart : BitVec 32) :
    let data := initPrimeDataBatch a bigBValues p rootN sieveIntervalStart
    (∀ id : BitVec 32, TracksRoots a N (polynomialB bigBValues id) 0 p
      (rootsFromPolyId id data.1 data.2)) ∧
    (∀ (polyIdPrefix : BitVec 32) (width : Nat) (carried : Nat → Int × Int), width ≤ 32 →
      width ≤ bigBValues.length → polyIdPrefix.toNat % 2 ^ width = 0 →
      Carries p (gatherWalk data.1 data.2 bigBValues polyIdPrefix sieveIntervalStart carried)
        carried (2 ^ width) →
      ((∀ poly < 2 ^ width, ∃ state, gatherWalk data.1 data.2 bigBValues polyIdPrefix
          sieveIntervalStart carried poly = some state ∧
        GatherTracks a N
          (polynomialB bigBValues (polyIdPrefix ||| gray (BitVec.ofNat 32 poly)))
          sieveIntervalStart.toInt p state) ↔
        GatherFits p data.1 data.2 polyIdPrefix sieveIntervalStart carried (2 ^ width))) ∧
    (∀ (fullPolyIdPrefix polyWalkStart currentStart : BitVec 32) (width cycle : Nat),
      width < 31 → width + 1 ≤ bigBValues.length →
      fullPolyIdPrefix.toNat % 2 ^ (width + 1) = 0 →
      polyWalkStart.toNat < 2 ^ (width + 1) →
      (cycle = 0 → currentStart = sieveIntervalStart) →
      ((∀ steps : Nat, ∃ start, scatterStart data.1 data.2 fullPolyIdPrefix polyWalkStart
          cycle currentStart = some start ∧
        let state := scatterWalk data.1 data.2 (width + 1) polyWalkStart start steps
        state.polyId.toNat = grayCode ((polyWalkStart.toNat + steps) % 2 ^ (width + 1)) ∧
          TracksRoots a N (polynomialB bigBValues (fullPolyIdPrefix ||| state.polyId))
            currentStart.toInt p state.rels) ↔
        StartFits currentStart p)) := by
  intro data
  refine ⟨factor.tracks_id bigBValues sieveIntervalStart, ?_, ?_⟩
  · intro polyIdPrefix width carried fits dimension multiple carries
    rcases factor.prepared bigBValues sieveIntervalStart with ⟨inverse, unit, prepared⟩
    have lengths : (columnTerms p inverse bigBValues).length = bigBValues.length :=
      List.length_map _
    rw [← prepared.isSome_gatherWalk_iff lengths fits (lengths ▸ dimension) multiple carries]
    constructor
    · intro tracked poly inside
      rcases tracked poly inside with ⟨state, run, -⟩
      exact Option.isSome_iff_exists.mpr ⟨state, run⟩
    · intro defined poly inside
      rcases Option.isSome_iff_exists.mp (defined poly inside) with ⟨state, run⟩
      exact ⟨state, run, factor.tracks_gather bigBValues sieveIntervalStart fits dimension
        multiple inside carries run⟩
  · intro fullPolyIdPrefix polyWalkStart currentStart width cycle fits dimension
      multiple inside first
    constructor
    · intro tracked
      rcases tracked 0 with ⟨start, defined, _⟩
      by_contra overflows
      rw [scatterStart, reducedSieveStart_eq first,
        reduceStart_eq_none factor.small factor.prime.pos overflows] at defined
      cases defined
    · intro startFits steps
      exact factor.tracks_scatter bigBValues fits dimension multiple inside first startFits
        steps

private theorem sievePrime_seven : SievePrime (UInt512.ofUInt32 15) (UInt512.ofUInt32 211) 7 1 where
  prime := Nat.prime_seven
  small := by decide
  coprime := by
    rw [UInt512.toNat_ofUInt32]
    decide
  root := by
    rw [UInt512.toNat_ofUInt32]
    decide

/-- A gather block of two polynomials, whose offsets are moved on by two and three primes
in between, and five steps of the scatter walk from the second code of a block of four, across
its end. -/
theorem sieveRoots_track_iff_seven :
    let data := initPrimeDataBatch (UInt512.ofUInt32 15)
      [UInt512.ofUInt32 5, UInt512.ofUInt32 6] 7 1 (-64)
    (∃ state, gatherWalk data.1 data.2 [UInt512.ofUInt32 5, UInt512.ofUInt32 6] 0 (-64)
        (fun _ => (-44, -39)) 1 = some state ∧
      GatherTracks (UInt512.ofUInt32 15) (UInt512.ofUInt32 211)
        (polynomialB [UInt512.ofUInt32 5, UInt512.ofUInt32 6] (0 ||| gray 1)) (-64) 7 state) ∧
    ∃ start, scatterStart data.1 data.2 0 1 0 (-64) = some start ∧
      TracksRoots (UInt512.ofUInt32 15) (UInt512.ofUInt32 211)
        (polynomialB [UInt512.ofUInt32 5, UInt512.ofUInt32 6]
          (0 ||| (scatterWalk data.1 data.2 2 1 start 5).polyId))
        (-64) 7 (scatterWalk data.1 data.2 2 1 start 5).rels := by
  have results := sieveRoots_track_iff sievePrime_seven
    [UInt512.ofUInt32 5, UInt512.ofUInt32 6] (-64)
  have walk := (results.2.2 0 1 (-64) 1 0 (by decide) (by decide) (by decide) (by decide)
    (fun _ => rfl)).mpr (by decide) 5
  rcases walk with ⟨start, defined, _, tracked⟩
  have first : (gatherWalk (initPrimeDataBatch (UInt512.ofUInt32 15)
      [UInt512.ofUInt32 5, UInt512.ofUInt32 6] 7 1 (-64)).1
      (initPrimeDataBatch (UInt512.ofUInt32 15)
        [UInt512.ofUInt32 5, UInt512.ofUInt32 6] 7 1 (-64)).2
      [UInt512.ofUInt32 5, UInt512.ofUInt32 6] 0 (-64) (fun _ => (-44, -39)) 0).map
        (·.offsets) = some (-58, -60) := by
    decide +kernel
  have gather := (results.2.1 0 1 (fun _ => (-44, -39)) (by decide) (by decide) (by decide)
    fun poly inside state run => by
      obtain rfl : poly = 0 := by omega
      rw [run, Option.map_some, Option.some_inj] at first
      rw [first]
      decide).mpr
    ⟨fun poly _ =>
      have roots := results.1 (0 ||| gray (BitVec.ofNat 32 poly))
      ⟨offsetFits_of_bounds roots.first_lt (by decide) (by decide) (by decide),
        offsetFits_of_bounds roots.second_lt (by decide) (by decide) (by decide)⟩,
      fun _ _ => by decide⟩
  exact ⟨gather 1 (by decide), start, defined, tracked⟩

private theorem sievePrime_mersenne : SievePrime (UInt512.ofUInt32 15)
      (UInt512.ofNat 64424509411) 2147483647 1 where
  prime := lucas_lehmer_sufficiency 31 (by decide) (by norm_num)
  small := by decide
  coprime := by
    rw [UInt512.toNat_ofUInt32]
    decide
  root := by
    rw [UInt512.toNat_ofNat_of_lt (by
      rw [← UInt512.two_pow_eq_cardinality rfl]
      exact lt_of_lt_of_le (by norm_num : 64424509411 < 2 ^ 36)
        (Nat.pow_le_pow_right (by decide) (by decide)))]
    decide

/-- A window that starts at 16384 and a prime close to `2 ^ 31`. -/
theorem windowStart_overflows :
    ¬ ∀ (a N : UInt512) (p rootN : BitVec 32) (bigBValues : List UInt512)
      (sieveIntervalStart fullPolyIdPrefix polyWalkStart currentStart : BitVec 32)
      (width cycle steps : Nat), SievePrime a N p rootN → width < 31 →
      width + 1 ≤ bigBValues.length → fullPolyIdPrefix.toNat % 2 ^ (width + 1) = 0 →
      polyWalkStart.toNat < 2 ^ (width + 1) →
      (cycle = 0 → currentStart = sieveIntervalStart) →
      let data := initPrimeDataBatch a bigBValues p rootN sieveIntervalStart
      ∃ start, scatterStart data.1 data.2 fullPolyIdPrefix polyWalkStart cycle
          currentStart = some start ∧
        let state := scatterWalk data.1 data.2 (width + 1) polyWalkStart start steps
        TracksRoots a N (polynomialB bigBValues (fullPolyIdPrefix ||| state.polyId))
          currentStart.toInt p state.rels := by
  intro tracked
  rcases tracked (UInt512.ofUInt32 15) (UInt512.ofNat 64424509411) 2147483647 1
      [UInt512.ofUInt32 5, UInt512.ofUInt32 6] (-16384) 0 0 16384 1 1 0
      sievePrime_mersenne (by decide) (by decide) (by decide) (by decide) (by decide)
    with ⟨start, defined, _⟩
  rw [scatterStart, reducedSieveStart_eq (by decide),
    reduceStart_eq_none sievePrime_mersenne.small sievePrime_mersenne.prime.pos
      (by decide)] at defined
  cases defined

end CudaMpqs
