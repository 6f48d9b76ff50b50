import Mathlib.Algebra.Order.Ring.Abs
import CudaMpqs.Common.UInt512Signed
import CudaMpqs.Foundation.TrialDivision
import CudaMpqs.Postprocessing.Candidate

/-! # The value of a candidate and its relation

`processCandidate` from `a`, `b`, `x` and `N` on, with the loops of the trial division as
they are: at `Q = 0` they do not end. -/

namespace CudaMpqs.CandidateValue

open DenseCandidate TrialDivision UInt512

/-! ## The code -/

structure FactorBaseEntries where
  entry : Nat → BitVec 32
  prime : ∀ i, 1 < (entry i).toNat → (entry i).toNat.Prime

structure Candidate where
  a : UInt512
  b : UInt512
  trueX : BitVec 32
  factorIndices : List Nat
  capacity : factorIndices.length ≤ 48

/-- `while (Q.mod_uint32(p) == 0)`, with `none` for a loop that is still running. -/
def stripLoop (p : BitVec 32) : Nat → UInt512 → BitVec 8 → Option (UInt512 × BitVec 8)
  | 0, _, _ => none
  | fuel + 1, Q, cnt =>
    if Q.modUInt32 p = 0 then stripLoop p fuel (Q.divUInt32Inplace p).1 (cnt + 1)
    else some (Q, cnt)

def trialStepLoop (fuel : Nat) (factorBase : Nat → BitVec 32) (state : UInt512 × List Factor)
    (fbIdx : Nat) : Option (UInt512 × List Factor) :=
  let p := factorBase fbIdx
  if 1 < p.toNat then
    (stripLoop p fuel state.1 0).map fun stripped =>
      (stripped.1, if stripped.2 ≠ 0 ∧ state.2.length < 64 then state.2 ++ [(fbIdx, stripped.2)]
        else state.2)
  else some state

def trialDivideLoop (fuel : Nat) (factorBase : Nat → BitVec 32) (hints : List Nat)
    (Q : UInt512) : Option (UInt512 × List Factor) :=
  hints.foldlM (trialStepLoop fuel factorBase) (Q, [])

def processCandidate (fuel : Nat) (factorBase : Nat → BitVec 32) (lp1Bound : BitVec 64)
    (charBits : UInt512 → BitVec 8 → BitVec 32) (N : UInt512) (c : Candidate) :
    Option (Classification × Relation) :=
  let (sqrtQ, signAxb) := calculateSqrtOfQX c.a c.b c.trueX
  let (Q, sign) := absSquareMinusN sqrtQ N
  let val2Exp := Q.countrZero
  (trialDivideLoop fuel factorBase c.factorIndices (Q.rshift val2Exp)).map fun divided =>
    (classify lp1Bound.toNat divided.1,
      { sqrtQ := sqrtQ
        sign := sign
        val2Exp := BitVec.ofNat 32 val2Exp
        largePrime := if divided.1 = ofUInt32 1 then 1 else remainder divided.1
        charBits := charBits sqrtQ signAxb
        factors := divided.2 })

/-! ## What a relation says -/

def valueOf (N : UInt512) (c : Candidate) : Int := axb c.a c.b c.trueX ^ 2 - N.toNat

/-- An emitted relation factors the candidate's value exactly, with its sign, a cofactor
of 1 if it is full, and one below the bound if it is partial. -/
structure Exact (factorBase : Nat → BitVec 32) (lp1Bound : BitVec 64) (value : Int)
    (result : Classification × Relation) : Prop where
  factored : result.1 ≠ .discarded → value.natAbs = 2 ^ result.2.val2Exp.toNat *
      Relation.factorProduct (fun i => (factorBase i).toNat) result.2.factors *
        result.2.largePrime.toNat
  sign : result.1 ≠ .discarded → result.2.sign = if 0 ≤ value then 1 else -1
  full : result.1 = .full → result.2.largePrime = 1
  partialRelation : result.1 = .partialRelation →
    1 < result.2.largePrime.toNat ∧ result.2.largePrime.toNat < lp1Bound.toNat

def Meets (factorBase : Nat → BitVec 32) (lp1Bound : BitVec 64)
    (charBits : UInt512 → BitVec 8 → BitVec 32) (N : UInt512) (c : Candidate) : Prop :=
  ∃ fuel result, processCandidate fuel factorBase lp1Bound charBits N c = some result ∧
    Exact factorBase lp1Bound (valueOf N c) result

/-- The magnitude that 512 bits hold: `ax + b` as a two's complement, and the low bits of
`|(ax + b) ^ 2 - N|`. -/
def magnitude (N : UInt512) (c : Candidate) : Nat :=
  (((axb c.a c.b c.trueX).bmod cardinality) ^ 2 - N.toNat).natAbs % cardinality

def cofactor (factorBase : Nat → BitVec 32) (hints : List Nat) (number : Nat) : Nat :=
  hints.foldl (fun rest fbIdx =>
    if 1 < (factorBase fbIdx).toNat then stripped (factorBase fbIdx).toNat rest else rest)
    (stripped 2 number)

/-- The value is not zero, fits into 512 bits, and no odd hinted prime divides it as often
as an 8-bit counter wraps. -/
structure Countable (factorBase : Nat → BitVec 32) (hints : List Nat) (value : Nat) : Prop where
  nonzero : value ≠ 0
  fits : value < cardinality
  counted : ∀ fbIdx ∈ hints, 1 < (factorBase fbIdx).toNat → (factorBase fbIdx).toNat ≠ 2 →
    ¬ (factorBase fbIdx).toNat ^ 256 ∣ value

/-- No division is started on zero, and the value is countable where something is left
that counts as a relation. -/
def Sound (factorBase : Nat → BitVec 32) (lp1Bound : BitVec 64) (N : UInt512) (c : Candidate) :
    Prop :=
  (magnitude N c ≠ 0 ∨ ∀ fbIdx ∈ c.factorIndices, (factorBase fbIdx).toNat ≤ 1) ∧
    (cofactor factorBase c.factorIndices (magnitude N c) = 1 ∨
        cofactor factorBase c.factorIndices (magnitude N c) < lp1Bound.toNat →
      Countable factorBase c.factorIndices (valueOf N c).natAbs)

/-! ## One prime -/

variable {p : BitVec 32}

theorem strip_spec (prime : p.toNat.Prime) (Q : UInt512) (cnt : BitVec 8) (nonzero : Q.toNat ≠ 0) :
    (strip p Q cnt).1.toNat = stripped p.toNat Q.toNat ∧
      (strip p Q cnt).2 = cnt + BitVec.ofNat 8 (Q.toNat.factorization p.toNat) := by
  have proper := prime.one_lt
  fun_induction strip p Q cnt with
  | case1 Q cnt divides induction =>
    have notZero : p ≠ 0 := by
      rintro rfl
      simp at proper
    have quotient := toNat_divUInt32Inplace Q notZero
    have isMultiple := (modUInt32_eq_zero_iff proper Q).mp divides.2.2
    rcases stripped_of_dvd prime isMultiple nonzero with ⟨same, count⟩
    have rest : (Q.divUInt32Inplace p).1.toNat ≠ 0 := by
      rw [quotient]
      exact (Nat.div_pos (Nat.le_of_dvd (Nat.pos_of_ne_zero nonzero) isMultiple) prime.pos).ne'
    rcases induction rest with ⟨left, counted⟩
    rw [quotient] at left counted
    refine ⟨left.trans same.symm, counted.trans ?_⟩
    rw [count, BitVec.ofNat_add, BitVec.add_assoc, BitVec.add_comm 1]
    rfl
  | case2 Q cnt stops =>
    have indivisible : ¬ p.toNat ∣ Q.toNat := fun divides =>
      stops ⟨proper, nonzero, (modUInt32_eq_zero_iff proper Q).mpr divides⟩
    rcases stripped_of_not_dvd indivisible with ⟨same, count⟩
    rw [same, count]
    exact ⟨rfl, (BitVec.add_zero cnt).symm⟩

variable {Q : UInt512}

theorem stripLoop_eq (proper : 1 < p.toNat) {fuel : Nat} (cnt : BitVec 8) (nonzero : Q.toNat ≠ 0)
    (enough : Q.toNat < fuel) : stripLoop p fuel Q cnt = some (strip p Q cnt) := by
  have notZero : p ≠ 0 := by
    rintro rfl
    simp at proper
  induction fuel generalizing Q cnt with
  | zero => exact absurd enough (Nat.not_lt_zero _)
  | succ fuel induction =>
    rw [stripLoop, strip]
    by_cases divides : Q.modUInt32 p = 0
    · have isMultiple := (modUInt32_eq_zero_iff proper Q).mp divides
      have quotient := toNat_divUInt32Inplace Q notZero
      have positive := Nat.pos_of_ne_zero nonzero
      have less := Nat.div_lt_self positive proper
      rw [if_pos divides, if_pos ⟨proper, nonzero, divides⟩]
      apply induction
      · rw [quotient]
        exact (Nat.div_pos (Nat.le_of_dvd positive isMultiple) (by omega)).ne'
      · rw [quotient]
        omega
    · rw [if_neg divides, if_neg fun all => divides all.2.2]

theorem stripLoop_some (proper : 1 < p.toNat) {fuel : Nat} {cnt : BitVec 8} (nonzero : Q.toNat ≠ 0)
    {result : UInt512 × BitVec 8} (ends : stripLoop p fuel Q cnt = some result) :
    result = strip p Q cnt := by
  have notZero : p ≠ 0 := by
    rintro rfl
    simp at proper
  induction fuel generalizing Q cnt with
  | zero => cases ends
  | succ fuel induction =>
    rw [stripLoop] at ends
    rw [strip]
    by_cases divides : Q.modUInt32 p = 0
    · have isMultiple := (modUInt32_eq_zero_iff proper Q).mp divides
      rw [if_pos divides] at ends
      rw [if_pos ⟨proper, nonzero, divides⟩]
      apply induction _ ends
      rw [toNat_divUInt32Inplace Q notZero]
      exact (Nat.div_pos (Nat.le_of_dvd (Nat.pos_of_ne_zero nonzero) isMultiple) (by omega)).ne'
    · rw [if_neg divides] at ends
      rw [if_neg fun all => divides all.2.2]
      exact (Option.some_inj.mp ends).symm

theorem stripLoop_zero (proper : 1 < p.toNat) (fuel : Nat) (cnt : BitVec 8) (zero : Q.toNat = 0) :
    stripLoop p fuel Q cnt = none := by
  have notZero : p ≠ 0 := by
    rintro rfl
    simp at proper
  induction fuel generalizing Q cnt with
  | zero => rfl
  | succ fuel induction =>
    have divides : Q.modUInt32 p = 0 := by
      rw [modUInt32_eq_zero_iff proper, zero]
      exact Nat.dvd_zero _
    rw [stripLoop, if_pos divides]
    apply induction
    rw [toNat_divUInt32Inplace Q notZero, zero, Nat.zero_div]

/-! ## Trailing zeros -/

theorem factorization_two_of_testBit {number place : Nat} (set : number.testBit place = true)
    (below : ∀ i < place, number.testBit i = false) : number.factorization 2 = place := by
  have nonzero : number ≠ 0 := by
    rintro rfl
    simp at set
  have low : number % 2 ^ place = 0 := by
    apply Nat.eq_of_testBit_eq
    intro i
    rw [Nat.testBit_mod_two_pow, Nat.zero_testBit]
    by_cases less : i < place
    · rw [below i less, Bool.and_false]
    · simp [less]
  have divides : 2 ^ place ∣ number := Nat.dvd_of_mod_eq_zero low
  have maximal : ¬ 2 ^ (place + 1) ∣ number := by
    intro more
    have odd := Nat.testBit_mod_two_pow number (place + 1) place
    rw [Nat.mod_eq_zero_of_dvd more, Nat.zero_testBit, set] at odd
    simp at odd
  rw [Nat.prime_two.pow_dvd_iff_le_factorization nonzero] at divides maximal
  omega

theorem testBit_countrZeroFrom : ∀ {limbs : List (BitVec 32)}, Limbs.value limbs ≠ 0 →
    (Limbs.value limbs).testBit (countrZeroFrom limbs) = true ∧
      ∀ i < countrZeroFrom limbs, (Limbs.value limbs).testBit i = false
  | [], nonzero => absurd rfl nonzero
  | low :: high, nonzero => by
    rw [countrZeroFrom]
    have split : ∀ i, (Limbs.value (low :: high)).testBit i =
        if i < 32 then low.getLsbD i else (Limbs.value high).testBit (i - 32) := by
      intro i
      rw [Limbs.value_cons, Nat.add_comm, Nat.testBit_two_pow_mul_add _ low.isLt]
      rfl
    by_cases here : low ≠ 0
    · have inside : low.ctz.toNat < 32 := by
        have less := BitVec.ctz_lt_iff_ne_zero.mpr here
        simpa [BitVec.lt_def] using less
      rw [if_pos here]
      constructor
      · rw [split, if_pos inside]
        exact BitVec.getLsbD_true_ctz_of_ne_zero here
      · intro i less
        rw [split, if_pos (by omega)]
        exact BitVec.getLsbD_false_of_lt_ctz less
    · have zero : low = 0 := not_not.mp here
      have rest : Limbs.value high ≠ 0 := by
        intro none_
        apply nonzero
        rw [Limbs.value_cons, zero, none_]
        rfl
      rcases testBit_countrZeroFrom rest with ⟨set, below⟩
      rw [if_neg here]
      constructor
      · rw [split, if_neg (by omega), Nat.add_sub_cancel_left]
        exact set
      · intro i less
        rw [split]
        split
        next => rw [zero]; exact BitVec.getLsbD_zero
        next => exact below _ (by omega)

theorem countrZero_eq (nonzero : Q.toNat ≠ 0) : Q.countrZero = Q.toNat.factorization 2 := by
  rcases testBit_countrZeroFrom nonzero with ⟨set, below⟩
  exact (factorization_two_of_testBit set below).symm

theorem toNat_rshift_countrZero (nonzero : Q.toNat ≠ 0) :
    (Q.rshift Q.countrZero).toNat = stripped 2 Q.toNat := by
  rw [toNat_rshift, countrZero_eq nonzero]
  rfl

/-! ## All hints -/

section Hints

variable {factorBase : Nat → BitVec 32}

theorem trialStep_ne_zero (factorBase : Nat → BitVec 32) {state : UInt512 × List Factor}
    (nonzero : state.1.toNat ≠ 0) (fbIdx : Nat) : (trialStep factorBase state fbIdx).1.toNat ≠ 0 ∧
      (trialStep factorBase state fbIdx).1.toNat ≤ state.1.toNat := by
  simp only [trialStep]
  split
  next =>
    have divides := strip_dvd (factorBase fbIdx) state.1 0
    refine ⟨fun zero => nonzero ?_, Nat.le_of_dvd (Nat.pos_of_ne_zero nonzero) divides⟩
    rw [zero] at divides
    exact Nat.eq_zero_of_zero_dvd divides
  next => exact ⟨nonzero, Nat.le_refl _⟩

theorem foldlM_trialStepLoop {fuel : Nat} {hints : List Nat} {state : UInt512 × List Factor}
    (nonzero : state.1.toNat ≠ 0) (enough : state.1.toNat < fuel) :
    hints.foldlM (trialStepLoop fuel factorBase) state =
      some (hints.foldl (trialStep factorBase) state) := by
  induction hints generalizing state with
  | nil => rfl
  | cons fbIdx hints induction =>
    have step : trialStepLoop fuel factorBase state fbIdx =
        some (trialStep factorBase state fbIdx) := by
      simp only [trialStepLoop, trialStep]
      split
      next proper => rw [stripLoop_eq proper 0 nonzero enough, Option.map_some]
      next => rfl
    rcases trialStep_ne_zero factorBase nonzero fbIdx with ⟨stays, less⟩
    rw [List.foldlM_cons, step, Option.bind_eq_bind, Option.bind_some,
      induction stays (less.trans_lt enough), List.foldl_cons]

theorem foldlM_trialStepLoop_some {fuel : Nat} {hints : List Nat}
    {state result : UInt512 × List Factor} (nonzero : state.1.toNat ≠ 0)
    (ends : hints.foldlM (trialStepLoop fuel factorBase) state = some result) :
    result = hints.foldl (trialStep factorBase) state := by
  induction hints generalizing state with
  | nil => exact (Option.some_inj.mp ends).symm
  | cons fbIdx hints induction =>
    rw [List.foldlM_cons, Option.bind_eq_bind, Option.bind_eq_some_iff] at ends
    rcases ends with ⟨next, turn, rest⟩
    have step : next = trialStep factorBase state fbIdx := by
      simp only [trialStepLoop] at turn
      simp only [trialStep]
      split at turn
      next proper =>
        rcases Option.map_eq_some_iff.mp turn with ⟨stripped, loop, rfl⟩
        rw [if_pos proper, stripLoop_some proper nonzero loop]
      next improper =>
        rw [if_neg improper]
        exact (Option.some_inj.mp turn).symm
    rw [step] at rest
    exact induction (trialStep_ne_zero factorBase nonzero fbIdx).1 rest

theorem foldlM_trialStepLoop_zero {fuel : Nat} {hints : List Nat}
    {state : UInt512 × List Factor} (zero : state.1.toNat = 0) :
    hints.foldlM (trialStepLoop fuel factorBase) state =
      if ∀ fbIdx ∈ hints, (factorBase fbIdx).toNat ≤ 1 then some state else none := by
  induction hints generalizing state with
  | nil => rw [if_pos nofun, List.foldlM_nil]; rfl
  | cons fbIdx hints induction =>
    rw [List.foldlM_cons, trialStepLoop]
    by_cases proper : 1 < (factorBase fbIdx).toNat
    · rw [if_pos proper, stripLoop_zero proper fuel 0 zero, if_neg]
      · rfl
      · exact fun every => absurd proper (Nat.not_lt.mpr (every fbIdx List.mem_cons_self))
    · rw [if_neg proper, Option.bind_eq_bind, Option.bind_some, induction zero]
      simp [Nat.not_lt.mp proper]

theorem factorProduct_append (entry : Nat → Nat) (left right : List Factor) :
    Relation.factorProduct entry (left ++ right) =
      Relation.factorProduct entry left * Relation.factorProduct entry right := by
  simp [Relation.factorProduct]

end Hints

section Counted

variable (base : FactorBaseEntries)

abbrev FactorBaseEntries.product (factors : List Factor) : Nat :=
  Relation.factorProduct (fun i => (base.entry i).toNat) factors

def primesOf (hints : List Nat) (done : List Nat) : List Nat :=
  hints.foldl (fun done fbIdx =>
    if 1 < (base.entry fbIdx).toNat then (base.entry fbIdx).toNat :: done else done) done

theorem mem_primesOf {hints done : List Nat} {r : Nat} : r ∈ primesOf base hints done ↔
      r ∈ done ∨ ∃ fbIdx ∈ hints, 1 < (base.entry fbIdx).toNat ∧ r = (base.entry fbIdx).toNat := by
  induction hints generalizing done with
  | nil => simp [primesOf]
  | cons fbIdx hints induction =>
    rw [primesOf, List.foldl_cons, ← primesOf, induction]
    by_cases proper : 1 < (base.entry fbIdx).toNat
    · rw [if_pos proper, List.mem_cons]
      simp only [List.mem_cons, exists_eq_or_imp, proper, true_and]
      tauto
    · rw [if_neg proper]
      simp only [List.mem_cons, exists_eq_or_imp, proper, false_and, false_or]

theorem divided_trialStep {value : Nat} {done : List Nat} {state : UInt512 × List Factor}
    {lost : Nat} (nonzero : state.1.toNat ≠ 0) (short : state.2.length < 64)
    (divided : Divided 256 value done state.1.toNat (base.product state.2) lost)
    (fbIdx : Nat) (proper : 1 < (base.entry fbIdx).toNat) :
    (trialStep base.entry state fbIdx).1.toNat = stripped (base.entry fbIdx).toNat state.1.toNat ∧
      ∃ lost', Divided 256 value ((base.entry fbIdx).toNat :: done)
        (trialStep base.entry state fbIdx).1.toNat
        (base.product (trialStep base.entry state fbIdx).2) lost' := by
  have prime := base.prime fbIdx proper
  rcases strip_spec prime state.1 0 nonzero with ⟨rest, count⟩
  have counter : (strip (base.entry fbIdx) state.1 0).2.toNat =
      state.1.toNat.factorization (base.entry fbIdx).toNat % 256 := by
    rw [count]
    simp
  have next := divided.step prime (show 0 < 256 by decide)
  rw [← rest] at next
  have told : base.product (if (strip (base.entry fbIdx) state.1 0).2 ≠ 0 ∧ state.2.length < 64
      then state.2 ++ [(fbIdx, (strip (base.entry fbIdx) state.1 0).2)] else state.2) =
      base.product state.2 * (base.entry fbIdx).toNat ^
        (state.1.toNat.factorization (base.entry fbIdx).toNat % 256) := by
    rw [← counter]
    split
    next recorded =>
      rw [FactorBaseEntries.product, factorProduct_append]
      congr 1
      simp [Relation.factorProduct]
    next dropped =>
      have none_ : (strip (base.entry fbIdx) state.1 0).2 = 0 := by
        by_contra some_
        exact dropped ⟨some_, short⟩
      rw [none_]
      exact (Nat.mul_one _).symm
  simp only [trialStep, if_pos proper]
  rw [told]
  exact ⟨rest, _, next⟩

theorem divided_foldl {value : Nat} {hints done : List Nat} {state : UInt512 × List Factor}
    {lost : Nat} (nonzero : state.1.toNat ≠ 0) (short : state.2.length + hints.length ≤ 64)
    (divided : Divided 256 value done state.1.toNat (base.product state.2) lost) :
    (hints.foldl (trialStep base.entry) state).1.toNat = hints.foldl (fun rest fbIdx =>
          if 1 < (base.entry fbIdx).toNat then stripped (base.entry fbIdx).toNat rest
          else rest) state.1.toNat ∧
      ∃ lost', Divided 256 value (primesOf base hints done)
        (hints.foldl (trialStep base.entry) state).1.toNat
        (base.product (hints.foldl (trialStep base.entry) state).2) lost' := by
  induction hints generalizing done state lost with
  | nil => exact ⟨rfl, lost, divided⟩
  | cons fbIdx hints induction =>
    rw [List.length_cons] at short
    simp only [List.foldl_cons, primesOf]
    by_cases proper : 1 < (base.entry fbIdx).toNat
    · rcases divided_trialStep base nonzero (by omega) divided fbIdx proper with
        ⟨rest, lost', next⟩
      have stays := (trialStep_ne_zero base.entry nonzero fbIdx).1
      have length : (trialStep base.entry state fbIdx).2.length ≤ state.2.length + 1 := by
        simp only [trialStep, if_pos proper]
        split <;> simp
      rw [if_pos proper, if_pos proper, ← rest]
      exact induction stays (by omega) next
    · have same : trialStep base.entry state fbIdx = state := by
        rw [trialStep]
        exact if_neg proper
      rw [if_neg proper, if_neg proper, same]
      exact induction nonzero (by omega) divided

end Counted

/-! ## The candidate -/

section Value

theorem toNat_absSquareMinusN (N : UInt512) (c : Candidate) :
    (absSquareMinusN (calculateSqrtOfQX c.a c.b c.trueX).1 N).1.toNat = magnitude N c := by
  have root := toNat_calculateSqrtOfQX c.a c.b c.trueX
  generalize (calculateSqrtOfQX c.a c.b c.trueX).1 = s at root
  have square : ((axb c.a c.b c.trueX).bmod cardinality) ^ 2 =
    ((s.toNat * s.toNat : Nat) : Int) := by
    rw [root, Nat.cast_mul, Int.natCast_natAbs, abs_mul_abs_self, sq]
  rw [magnitude, square]
  by_cases le : N.toNat ≤ s.toNat * s.toNat
  · rw [(absSquareMinusN_of_le le).2, ← Nat.cast_sub le, Int.natAbs_natCast]
  · have lt := Nat.not_le.mp le
    have bound := N.toNat_lt
    rw [(absSquareMinusN_of_lt lt).2]
    have back : ((s.toNat * s.toNat : Nat) : Int) - N.toNat =
        -((N.toNat - s.toNat * s.toNat : Nat) : Int) := by
      rw [Nat.cast_sub lt.le]
      ring
    rw [back, Int.natAbs_neg, Int.natAbs_natCast, Nat.mod_eq_of_lt (by omega)]

theorem bmod_axb_of_fits {N : UInt512} {c : Candidate} (fits : (valueOf N c).natAbs < cardinality) :
    (axb c.a c.b c.trueX).bmod cardinality = axb c.a c.b c.trueX := by
  rcases cardinality_eq_double with ⟨half, double, _⟩
  have bound := N.toNat_lt
  generalize root : axb c.a c.b c.trueX = r
  have large : 2 ^ 3 ≤ cardinality := by
    rw [← two_pow_eq_cardinality rfl]
    exact Nat.pow_le_pow_right Nat.two_pos (by decide)
  have square : r ^ 2 < 2 * (cardinality : Int) := by
    rw [valueOf, root] at fits
    omega
  have small : 2 * r.natAbs < cardinality := by
    by_contra reaches
    have magnitude : (cardinality : Int) ≤ 2 * |r| := by
      rw [← Int.natCast_natAbs]
      exact_mod_cast Nat.not_lt.mp reaches
    have squares : (cardinality : Int) * cardinality ≤ 4 * r ^ 2 := by
      rw [← sq_abs r]
      nlinarith
    have grows : 8 * (cardinality : Int) ≤ cardinality * cardinality := by
      have large' : (8 : Int) ≤ cardinality := by exact_mod_cast large
      nlinarith
    omega
  apply Int.bmod_eq_of_le
  · omega
  · omega

theorem magnitude_of_fits {N : UInt512} {c : Candidate}
    (fits : (valueOf N c).natAbs < cardinality) :
    magnitude N c = (valueOf N c).natAbs := by
  rw [magnitude, bmod_axb_of_fits fits]
  exact Nat.mod_eq_of_lt fits

theorem sign_of_fits {N : UInt512} {c : Candidate} (fits : (valueOf N c).natAbs < cardinality) :
    (absSquareMinusN (calculateSqrtOfQX c.a c.b c.trueX).1 N).2 =
      if 0 ≤ valueOf N c then 1 else -1 := by
  have root := toNat_calculateSqrtOfQX c.a c.b c.trueX
  rw [bmod_axb_of_fits fits] at root
  have square : valueOf N c = (((calculateSqrtOfQX c.a c.b c.trueX).1.toNat *
      (calculateSqrtOfQX c.a c.b c.trueX).1.toNat : Nat) : Int) - N.toNat := by
    rw [valueOf, root, Nat.cast_mul, Int.natCast_natAbs, abs_mul_abs_self, sq]
  by_cases le : N.toNat ≤ (calculateSqrtOfQX c.a c.b c.trueX).1.toNat *
      (calculateSqrtOfQX c.a c.b c.trueX).1.toNat
  · rw [(absSquareMinusN_of_le le).1, if_pos]
    rw [square]
    omega
  · rw [(absSquareMinusN_of_lt (Nat.not_le.mp le)).1, if_neg]
    rw [square]
    omega

end Value

/-! ## The classification -/

section Classification

variable {bound : BitVec 64}

theorem fits_iff (Q : UInt512) : (Q.limbs.drop 4).all (· == 0) = true ↔ Q.toNat < 2 ^ 128 := by
  have inside : 4 ≤ Q.limbs.length := by
    rw [Q.size]
    decide
  have high := Limbs.value_drop Q.limbs inside
  have zero : (Q.limbs.drop 4).all (· == 0) = true ↔ Limbs.value (Q.limbs.drop 4) = 0 := by
    rw [Limbs.value_eq_zero_iff, List.all_eq_true]
    simp
  rw [zero, high, Nat.div_eq_zero_iff, or_iff_right (Nat.two_pow_pos _).ne']
  rfl

theorem eq_one_iff (Q : UInt512) : Q = ofUInt32 1 ↔ Q.toNat = 1 := by
  rw [← toNat_inj, toNat_ofUInt32]
  rfl

private theorem toNat_remainder (notOne : Q.toNat ≠ 1) (fits : Q.toNat < 2 ^ 128) :
    (remainder Q).toNat = Q.toNat := by
  rw [remainder, if_pos ⟨fun one => notOne ((eq_one_iff Q).mp one), (fits_iff Q).mpr fits⟩,
    BitVec.toNat_ofNat, Nat.mod_eq_of_lt fits]

theorem classify_cases (Q : UInt512) (bound : BitVec 64) :
    Q.toNat = 1 ∧ classify bound.toNat Q = .full ∧
        (if Q = ofUInt32 1 then 1 else remainder Q : BitVec 128) = 1 ∨
      Q.toNat ≠ 1 ∧ Q.toNat < bound.toNat ∧ classify bound.toNat Q = .partialRelation ∧
        (if Q = ofUInt32 1 then 1 else remainder Q : BitVec 128).toNat = Q.toNat ∨
      Q.toNat ≠ 1 ∧ bound.toNat ≤ Q.toNat ∧ classify bound.toNat Q = .discarded := by
  have width := bound.isLt
  by_cases one : Q.toNat = 1
  · have isOne := (eq_one_iff Q).mpr one
    left
    rw [classify, if_pos isOne, if_pos isOne]
    exact ⟨one, rfl, rfl⟩
  · have notOne : ¬ Q = ofUInt32 1 := fun same => one ((eq_one_iff Q).mp same)
    right
    rw [classify, if_neg notOne, if_neg notOne]
    by_cases less : Q.toNat < bound.toNat
    · have fits : Q.toNat < 2 ^ 128 := by omega
      have same := toNat_remainder one fits
      left
      rw [if_pos ⟨(fits_iff Q).mpr fits, by rw [same]; exact less⟩]
      exact ⟨one, less, rfl, same⟩
    · right
      rw [if_neg]
      · exact ⟨one, Nat.not_lt.mp less, rfl⟩
      · rintro ⟨fits, below⟩
        rw [toNat_remainder one ((fits_iff Q).mp fits)] at below
        exact less below

end Classification

/-! ## Exact relations -/

section Main

variable (base : FactorBaseEntries) (lp1Bound : BitVec 64)
  (charBits : UInt512 → BitVec 8 → BitVec 32) (N : UInt512) (c : Candidate)

def relationOf (divided : UInt512 × List Factor) : Classification × Relation :=
  let root := calculateSqrtOfQX c.a c.b c.trueX
  let square := absSquareMinusN root.1 N
  (classify lp1Bound.toNat divided.1,
    { sqrtQ := root.1
      sign := square.2
      val2Exp := BitVec.ofNat 32 square.1.countrZero
      largePrime := if divided.1 = ofUInt32 1 then 1 else remainder divided.1
      charBits := charBits root.1 root.2
      factors := divided.2 })

theorem processCandidate_eq (fuel : Nat) : processCandidate fuel base.entry lp1Bound charBits N c =
      (trialDivideLoop fuel base.entry c.factorIndices
        ((absSquareMinusN (calculateSqrtOfQX c.a c.b c.trueX).1 N).1.rshift
          (absSquareMinusN (calculateSqrtOfQX c.a c.b c.trueX).1 N).1.countrZero)).map
        (relationOf lp1Bound charBits N c) :=
  rfl

theorem relation_times_lost {divided : UInt512 × List Factor} {primes : List Nat} {lost : Nat}
    (nonzero : magnitude N c ≠ 0)
    (accounts : Divided 256 (stripped 2 (magnitude N c)) primes divided.1.toNat
      (base.product divided.2) lost) :
    magnitude N c = 2 ^ (relationOf lp1Bound charBits N c divided).2.val2Exp.toNat *
      base.product divided.2 * divided.1.toNat * lost := by
  have code := toNat_absSquareMinusN N c
  have exponent : (relationOf lp1Bound charBits N c divided).2.val2Exp.toNat =
      (magnitude N c).factorization 2 := by
    have bound := (absSquareMinusN (calculateSqrtOfQX c.a c.b c.trueX).1 N).1.countrZero_le
    change (BitVec.ofNat 32 _).toNat = _
    rw [BitVec.toNat_ofNat, Nat.mod_eq_of_lt (by omega), countrZero_eq (by rwa [code]), code]
  have whole := pow_mul_stripped 2 (magnitude N c)
  rw [exponent]
  calc magnitude N c
      = 2 ^ (magnitude N c).factorization 2 * stripped 2 (magnitude N c) := whole.symm
    _ = _ := by
        rw [accounts.whole]
        ring

private theorem lost_eq_one_iff {rest product lost : Nat} {primes : List Nat}
    (nonzero : magnitude N c ≠ 0)
    (accounts : Divided 256 (stripped 2 (magnitude N c)) primes rest product lost)
    (mem_primes : ∀ r, r ∈ primes ↔ ∃ fbIdx ∈ c.factorIndices,
      1 < (base.entry fbIdx).toNat ∧ r = (base.entry fbIdx).toNat) :
    lost = 1 ↔ ∀ fbIdx ∈ c.factorIndices, 1 < (base.entry fbIdx).toNat →
      (base.entry fbIdx).toNat ≠ 2 → ¬ (base.entry fbIdx).toNat ^ 256 ∣ magnitude N c := by
  rw [accounts.lost_iff]
  constructor
  · intro small fbIdx member proper odd divides
    have count := small _ ((mem_primes _).mpr ⟨fbIdx, member, proper, rfl⟩)
    rw [factorization_stripped, if_neg odd] at count
    rw [(base.prime fbIdx proper).pow_dvd_iff_le_factorization nonzero] at divides
    omega
  · intro counted r member
    rcases (mem_primes r).mp member with ⟨fbIdx, hint, proper, rfl⟩
    rw [factorization_stripped]
    split
    next => decide
    next odd =>
      have count := counted fbIdx hint proper odd
      rw [(base.prime fbIdx proper).pow_dvd_iff_le_factorization nonzero] at count
      omega

/-- A relation is exact just when the value is countable. -/
theorem exact_relationOf_iff {divided : UInt512 × List Factor} {primes : List Nat} {lost : Nat}
    (nonzero : magnitude N c ≠ 0)
    (accounts : Divided 256 (stripped 2 (magnitude N c)) primes divided.1.toNat
      (base.product divided.2) lost)
    (mem_primes : ∀ r, r ∈ primes ↔ ∃ fbIdx ∈ c.factorIndices,
      1 < (base.entry fbIdx).toNat ∧ r = (base.entry fbIdx).toNat) :
    Exact base.entry lp1Bound (valueOf N c) (relationOf lp1Bound charBits N c divided) ↔
      (divided.1.toNat = 1 ∨ divided.1.toNat < lp1Bound.toNat →
        Countable base.entry c.factorIndices (valueOf N c).natAbs) := by
  have told := relation_times_lost base lp1Bound charBits N c nonzero accounts
  have lost_iff := lost_eq_one_iff base N c nonzero accounts mem_primes
  have bound : magnitude N c < cardinality := Nat.mod_lt _ cardinality_pos
  have kept : divided.1.toNat ≠ 0 := by
    intro zero
    rw [zero, Nat.mul_zero, Nat.zero_mul] at told
    exact nonzero told
  have emitted : (relationOf lp1Bound charBits N c divided).1 ≠ .discarded ↔
      divided.1.toNat = 1 ∨ divided.1.toNat < lp1Bound.toNat := by
    rcases classify_cases divided.1 lp1Bound with
      ⟨one, full, _⟩ | ⟨_, less, partial_, _⟩ | ⟨notOne, more, none_⟩
    · exact iff_of_true (fun other => absurd (full.symm.trans other) (by decide)) (Or.inl one)
    · exact iff_of_true (fun other => absurd (partial_.symm.trans other) (by decide))
        (Or.inr less)
    · exact iff_of_false (not_not.mpr none_) (by omega)
  have prime : divided.1.toNat = 1 ∨ divided.1.toNat < lp1Bound.toNat →
      (relationOf lp1Bound charBits N c divided).2.largePrime.toNat = divided.1.toNat := by
    intro left
    rcases classify_cases divided.1 lp1Bound with
      ⟨one, _, isOne⟩ | ⟨_, _, _, same⟩ | ⟨notOne, more, _⟩
    · rw [one]
      exact congrArg BitVec.toNat isOne
    · exact same
    · omega
  constructor
  · intro exact_ left
    have factored := exact_.factored (emitted.mpr left)
    rw [prime left] at factored
    change (valueOf N c).natAbs = 2 ^ _ * base.product divided.2 * divided.1.toNat at factored
    rw [← factored] at told
    have positive : 0 < lost := by
      apply Nat.pos_of_ne_zero
      rintro rfl
      exact nonzero told
    have fits : (valueOf N c).natAbs < cardinality :=
      (Nat.le_mul_of_pos_right _ positive).trans_lt (told ▸ bound)
    have same := magnitude_of_fits fits
    have notZero : (valueOf N c).natAbs ≠ 0 := by rwa [← same]
    have none_ : lost = 1 := by
      rw [same] at told
      exact Nat.eq_of_mul_eq_mul_left (Nat.pos_of_ne_zero notZero)
        (told.symm.trans (Nat.mul_one _).symm)
    rw [lost_iff, same] at none_
    exact ⟨notZero, fits, none_⟩
  · intro countable
    constructor
    · intro isEmitted
      have left := emitted.mp isEmitted
      have count := countable left
      have same := magnitude_of_fits count.fits
      have none_ := lost_iff.mpr (by rw [same]; exact count.counted)
      rw [prime left, ← same, told, none_, Nat.mul_one]
      rfl
    · intro isEmitted
      exact sign_of_fits (countable (emitted.mp isEmitted)).fits
    · intro full
      rcases classify_cases divided.1 lp1Bound with
        ⟨_, _, isOne⟩ | ⟨_, _, partial_, _⟩ | ⟨_, _, none_⟩
      · exact isOne
      · exact absurd (full.symm.trans partial_) (by decide)
      · exact absurd (full.symm.trans none_) (by decide)
    · intro isPartial
      rcases classify_cases divided.1 lp1Bound with
        ⟨_, full, _⟩ | ⟨notOne, less, _, same⟩ | ⟨_, _, none_⟩
      · exact absurd (isPartial.symm.trans full) (by decide)
      · rw [prime (Or.inr less)]
        exact ⟨by omega, less⟩
      · exact absurd (isPartial.symm.trans none_) (by decide)

theorem exact_relationOf_zero_iff {divided : UInt512 × List Factor} (zero : divided.1.toNat = 0) :
    Exact base.entry lp1Bound (valueOf N c) (relationOf lp1Bound charBits N c divided) ↔
      ¬ 0 < lp1Bound.toNat := by
  rcases classify_cases divided.1 lp1Bound with
    ⟨one, _, _⟩ | ⟨_, less, partial_, same⟩ | ⟨_, more, none_⟩
  · omega
  · rw [zero] at less same
    refine iff_of_false (fun exact_ => ?_) (not_not.mpr less)
    have large : 1 < (relationOf lp1Bound charBits N c divided).2.largePrime.toNat :=
      (exact_.partialRelation partial_).1
    rw [show (relationOf lp1Bound charBits N c divided).2.largePrime.toNat = 0 from same] at large
    exact absurd large (by decide)
  · refine iff_of_true ?_ (by omega)
    exact
      { factored := fun isEmitted => absurd none_ isEmitted
        sign := fun isEmitted => absurd none_ isEmitted
        full := fun full => absurd (none_.symm.trans full) (by decide)
        partialRelation := fun isPartial => absurd (none_.symm.trans isPartial) (by decide) }

theorem cofactor_zero (factorBase : Nat → BitVec 32) (hints : List Nat) :
    cofactor factorBase hints 0 = 0 := by
  rw [cofactor, stripped_zero]
  induction hints with
  | nil => rfl
  | cons fbIdx hints induction =>
    rw [List.foldl_cons, stripped_zero, ite_self]
    exact induction

private theorem not_countable_of_zero {hints : List Nat} (zero : magnitude N c = 0) :
    ¬ Countable base.entry hints (valueOf N c).natAbs := by
  intro countable
  have same := magnitude_of_fits countable.fits
  exact countable.nonzero (same.symm.trans zero)

/-- `processCandidate` ends with an exact relation or none just on sound candidates. -/
theorem processCandidate_meets_iff :
    Meets base.entry lp1Bound charBits N c ↔ Sound base.entry lp1Bound N c := by
  have code := toNat_absSquareMinusN N c
  have equation := processCandidate_eq base lp1Bound charBits N c
  generalize (absSquareMinusN (calculateSqrtOfQX c.a c.b c.trueX).1 N).1 = Q at code equation
  unfold Meets Sound
  by_cases zero : magnitude N c = 0
  · have shifted : (Q.rshift Q.countrZero).toNat = 0 := by
      rw [toNat_rshift, code, zero, Nat.zero_div]
    have loops := fun fuel => @foldlM_trialStepLoop_zero base.entry fuel c.factorIndices
      (Q.rshift Q.countrZero, []) shifted
    simp only [equation, trialDivideLoop, loops, zero, cofactor_zero]
    by_cases every : ∀ fbIdx ∈ c.factorIndices, (base.entry fbIdx).toNat ≤ 1
    · have nothing : ¬ Countable base.entry c.factorIndices (valueOf N c).natAbs :=
        not_countable_of_zero base N c zero
      have emitted := @exact_relationOf_zero_iff base lp1Bound charBits N c
        (Q.rshift Q.countrZero, []) shifted
      simp [if_pos every, nothing, emitted]
      exact fun _ => every
    · simp [if_neg every]
      exact fun all => absurd all every
  · have notZero : Q.toNat ≠ 0 := by rwa [code]
    have shifted := toNat_rshift_countrZero notZero
    rw [code] at shifted
    have odd : (Q.rshift Q.countrZero).toNat ≠ 0 := by
      rw [shifted]
      exact stripped_ne_zero zero
    have start := Divided.start 256 (stripped 2 (magnitude N c))
    have capacity := c.capacity
    rcases @divided_foldl base _ c.factorIndices [] (Q.rshift Q.countrZero, []) _ odd
      (by simp; omega) (by rw [shifted]; exact start) with ⟨rest, lost, accounts⟩
    have mem_primes : ∀ r, r ∈ primesOf base c.factorIndices [] ↔
        ∃ fbIdx ∈ c.factorIndices, 1 < (base.entry fbIdx).toNat ∧
          r = (base.entry fbIdx).toNat := by
      intro r
      rw [mem_primesOf]
      simp
    have exact_iff := exact_relationOf_iff base lp1Bound charBits N c zero accounts mem_primes
    rw [rest, shifted] at exact_iff
    have sound : Sound base.entry lp1Bound N c ↔
        Exact base.entry lp1Bound (valueOf N c) (relationOf lp1Bound charBits N c
          (c.factorIndices.foldl (trialStep base.entry) (Q.rshift Q.countrZero, []))) := by
      rw [exact_iff]
      exact and_iff_right (Or.inl zero)
    refine Iff.trans ?_ sound.symm
    constructor
    · rintro ⟨fuel, result, ends, isExact⟩
      rw [equation, Option.map_eq_some_iff] at ends
      rcases ends with ⟨divided, loop, rfl⟩
      rwa [foldlM_trialStepLoop_some odd loop] at isExact
    · intro isExact
      refine ⟨(Q.rshift Q.countrZero).toNat + 1, _, ?_, isExact⟩
      have loop := @foldlM_trialStepLoop base.entry _ c.factorIndices
        (Q.rshift Q.countrZero, []) odd (Nat.lt_succ_self _)
      rw [equation, trialDivideLoop, loop, Option.map_some]

end Main

def squareRoot : Candidate where
  a := ofUInt32 1
  b := ofUInt32 0
  trueX := 7
  factorIndices := [0]
  capacity := by decide

/-- With the hint 3, the trial division of zero does not end. -/
theorem not_meets_squareRoot : ¬ ∀ (base : FactorBaseEntries) (lp1Bound : BitVec 64)
        (charBits : UInt512 → BitVec 8 → BitVec 32) (N : UInt512) (c : Candidate),
      Meets base.entry lp1Bound charBits N c := by
  intro every
  rcases every ⟨fun _ => 3, fun _ _ => Nat.prime_three⟩ 1000000 (fun _ _ => 0) (ofUInt32 49)
    squareRoot with ⟨fuel, result, ends, _⟩
  have code := toNat_absSquareMinusN (ofUInt32 49) squareRoot
  have zero : magnitude (ofUInt32 49) squareRoot = 0 := by decide +kernel
  have shifted : ((absSquareMinusN (calculateSqrtOfQX squareRoot.a squareRoot.b
      squareRoot.trueX).1 (ofUInt32 49)).1.rshift (absSquareMinusN (calculateSqrtOfQX
        squareRoot.a squareRoot.b squareRoot.trueX).1 (ofUInt32 49)).1.countrZero).toNat = 0 := by
    rw [toNat_rshift, code, zero, Nat.zero_div]
  have loop : trialDivideLoop fuel (fun _ => 3) [0] _ = none :=
    (foldlM_trialStepLoop_zero shifted).trans (if_neg (by decide))
  have none_ : processCandidate fuel (fun _ => 3) 1000000 (fun _ _ => 0) (ofUInt32 49)
      squareRoot = none :=
    congrArg (Option.map _) loop
  rw [none_] at ends
  cases ends

end CudaMpqs.CandidateValue
