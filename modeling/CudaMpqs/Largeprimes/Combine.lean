import Mathlib.Tactic.NormNum.Prime
import CudaMpqs.Common.Relation
import CudaMpqs.Common.UInt512Modular

/-! # Combining two partial relations

`global_combine_kernel` of `largeprime.cu`, one thread at a time: two partials
with one large prime become one relation, their factor lists merged into a
64-entry buffer of 8-bit exponents. -/

namespace CudaMpqs

open SortedMerge CudaMpqs.Relation

namespace Combine

def maxMergeFactors : Nat := 64

/-- `merge_factors_csr`: shared exponents are added in 8 bits, and the merge
stops when the buffer is full. -/
def mergeFactorsCsr (left right : List Factor) (maxCap : Nat) : List Factor :=
  mergeUpTo (· + ·) maxCap left right

structure DualCounter where
  relations : BitVec 32
  factors : BitVec 32
deriving DecidableEq

/-- `atomic_reserve_dual`: both bounds are checked before the one
compare-and-swap that advances both counters. -/
def atomicReserveDual (counter : DualCounter)
    (factorsToAdd maxRels maxFactors : BitVec 32) : Option DualCounter :=
  if maxRels ≤ counter.relations ∨ maxFactors < counter.factors + factorsToAdd then none
  else some ⟨counter.relations + 1, counter.factors + factorsToAdd⟩

inductive Outcome where
  | tagCollision
  | duplicate
  | overflow
  | emitted (row : Relation) (counter : DualCounter)
deriving DecidableEq

def combineRow (N : UInt512) (input witness : Relation) : Relation where
  sqrtQ := input.sqrtQ.mulMod witness.sqrtQ N
  sign := combineSign input.sign witness.sign
  val2Exp := input.val2Exp + witness.val2Exp
  largePrime := input.largePrime
  charBits := input.charBits ^^^ witness.charBits
  factors := mergeFactorsCsr input.factors witness.factors maxMergeFactors

def globalCombine (N : UInt512) (maxRels maxFactors : BitVec 32)
    (counter : DualCounter) (input witness : Relation) : Outcome :=
  if input.largePrime.setWidth 64 ≠ witness.largePrime.setWidth 64 then
    .tagCollision
  else if input.sqrtQ = witness.sqrtQ then .duplicate
  else
    let row := combineRow N input witness
    match atomicReserveDual counter (BitVec.ofNat 32 row.factors.length) maxRels
      maxFactors with
    | none => .overflow
    | some reserved => .emitted row reserved

/-- The two lists fit the buffer, and no shared exponent leaves 8 bits. -/
def MergeFits (left right : List Factor) : Prop :=
  ((keys left).toFinset ∪ (keys right).toFinset).card ≤ maxMergeFactors ∧
    ∀ index exponent exponent', (index, exponent) ∈ left →
      (index, exponent') ∈ right → exponent.toNat + exponent'.toNat ≤ 255

variable {left right : List Factor}

theorem factorProduct_mergeFactorsCsr (factorBase : Nat → Nat) (leftAscending : Ascending left)
    (rightAscending : Ascending right) (fits : MergeFits left right) :
    factorProduct factorBase (mergeFactorsCsr left right maxMergeFactors) =
      factorProduct factorBase left * factorProduct factorBase right := by
  have short : (merge (· + ·) left right).length ≤ maxMergeFactors := by
    rw [length_merge _ leftAscending rightAscending]
    exact fits.1
  rw [mergeFactorsCsr, mergeUpTo_eq_take, List.take_of_length_le short]
  apply prod_merge
  intro index exponent exponent' inLeft inRight
  have small := fits.2 index exponent exponent' inLeft inRight
  rw [BitVec.toNat_add_of_lt (by omega), Nat.pow_add]

variable {N : UInt512}

theorem toNat_combineRow_sqrtQ (nonzero : N.toNat ≠ 0) (input witness : Relation) :
    (combineRow N input witness).sqrtQ.toNat = input.sqrtQ.toNat * witness.sqrtQ.toNat % N.toNat :=
  UInt512.toNat_mulMod _ _ nonzero

theorem combineRow_congruent (nonzero : N.toNat ≠ 0) {factorBase : Nat → Nat} {cofactor : Nat}
    {input witness : Relation} (inputStage : input.FromCandidate)
    (witnessStage : witness.FromCandidate)
    (inputCongruent : input.Congruent N.toNat factorBase cofactor)
    (witnessCongruent : witness.Congruent N.toNat factorBase cofactor)
    (fits : MergeFits input.factors witness.factors) :
    (combineRow N input witness).Congruent N.toNat factorBase (cofactor ^ 2) := by
  have inputBound := inputStage.val2Exp_le
  have witnessBound := witnessStage.val2Exp_le
  have val2Sum : (input.val2Exp + witness.val2Exp).toNat =
      input.val2Exp.toNat + witness.val2Exp.toNat :=
    BitVec.toNat_add_of_lt (by omega)
  have root : (((combineRow N input witness).sqrtQ.toNat : Nat) : Int) ≡
      input.sqrtQ.toNat * witness.sqrtQ.toNat [ZMOD N.toNat] := by
    rw [toNat_combineRow_sqrtQ nonzero]
    push_cast
    exact Int.mod_modEq _ _
  rw [Relation.Congruent] at inputCongruent witnessCongruent ⊢
  calc ((combineRow N input witness).sqrtQ.toNat : Int) ^ 2
      ≡ (input.sqrtQ.toNat * witness.sqrtQ.toNat) ^ 2 [ZMOD N.toNat] :=
        root.pow 2
    _ = (input.sqrtQ.toNat : Int) ^ 2 * (witness.sqrtQ.toNat : Int) ^ 2 :=
        mul_pow _ _ 2
    _ ≡ _ [ZMOD N.toNat] := inputCongruent.mul witnessCongruent
    _ = _ := by
        simp only [combineRow, signValue_combineSign, val2Sum,
          factorProduct_mergeFactorsCsr factorBase
            inputStage.candidateFactors.ascending
            witnessStage.candidateFactors.ascending fits]
        push_cast
        ring

/-! ## When the merge loses exponents

Modulo 1187 the number 4 has order 593, so its powers tell exponents up to 510
apart. A factor base whose entry at one index is 4 and whose other entries are 1
modulo 1187 then detects a wrong exponent at that index. -/

def exponentAt (index : Nat) (factors : List Factor) : Nat :=
  (factors.lookup index).elim 0 BitVec.toNat

def isolate (index : Nat) (position : Nat) : Nat :=
  if position = index then 5939 else 9497

theorem isolate_prime (index position : Nat) : (isolate index position).Prime := by
  rw [isolate]
  split <;> norm_num

theorem exponentAt_le (index : Nat) (factors : List Factor) : exponentAt index factors ≤ 255 := by
  rw [exponentAt]
  cases factors.lookup index with
  | none => exact Nat.zero_le _
  | some count =>
    have bound := count.isLt
    simp only [Option.elim_some]
    omega

theorem factorProduct_isolate (index : Nat) : ∀ {factors : List Factor}, Ascending factors →
      factorProduct (isolate index) factors ≡ 4 ^ exponentAt index factors [MOD 1187]
  | [], _ => rfl
  | (key, count) :: factors, ascending => by
    have rest := factorProduct_isolate index ascending.tail
    rw [factorProduct, List.map_cons, List.prod_cons, ← factorProduct]
    by_cases found : key = index
    · subst found
      have absent : exponentAt key factors = 0 := by
        rw [exponentAt, lookup_eq_none_of_lt ascending.head_lt]
        rfl
      have head : isolate key key ^ count.toNat ≡ 4 ^ count.toNat
          [MOD 1187] := by
        rw [isolate, if_pos rfl]
        exact Nat.ModEq.pow _ rfl
      rw [absent] at rest
      have product := head.mul rest
      rw [Nat.pow_zero, Nat.mul_one] at product
      rw [exponentAt, List.lookup_cons_self]
      exact product
    · have head := Nat.ModEq.pow count.toNat
        (show 9497 ≡ 1 [MOD 1187] from rfl)
      rw [Nat.one_pow] at head
      have different : (index == key) = false :=
        beq_eq_false_iff_ne.mpr (Ne.symm found)
      have product := head.mul rest
      rw [Nat.one_mul] at product
      rwa [isolate, if_neg found, exponentAt, List.lookup_cons, different]

theorem four_pow_injective : ∀ {left right : Nat}, left ≤ 510 → right ≤ 510 →
    4 ^ left ≡ 4 ^ right [MOD 1187] → left = right := by
  have separate : ∀ difference < 511, difference ≠ 0 →
      4 ^ difference % 1187 ≠ 1 := by decide +kernel
  have ordered : ∀ {left right : Nat}, left < right → right ≤ 510 →
      ¬ 4 ^ left ≡ 4 ^ right [MOD 1187] := by
    intro left right less bound congruent
    have split : 4 ^ right = 4 ^ left * 4 ^ (right - left) := by
      rw [← Nat.pow_add, Nat.add_sub_cancel' less.le]
    have coprime : Nat.gcd 1187 (4 ^ left) = 1 :=
      Nat.Coprime.pow_right _ (by decide)
    rw [split] at congruent
    have one := Nat.ModEq.cancel_left_of_coprime coprime
      ((congrArg (· % 1187) (Nat.mul_one (4 ^ left))).trans congruent)
    exact separate (right - left) (by omega) (by omega) one.symm
  intro left right leftBound rightBound congruent
  rcases Nat.lt_trichotomy left right with less | equal | greater
  · exact absurd congruent (ordered less rightBound)
  · exact equal
  · exact absurd congruent.symm (ordered greater leftBound)

private theorem exponentAt_pos {index : Nat} {factors : List Factor}
    (positive : ∀ factor ∈ factors, factor.2 ≠ 0)
    (present : (factors.lookup index).isSome) : 0 < exponentAt index factors := by
  rcases Option.isSome_iff_exists.mp present with ⟨count, found⟩
  have nonzero := positive _ (mem_of_lookup found)
  rw [exponentAt, found]
  exact Nat.pos_of_ne_zero fun zero => nonzero (BitVec.eq_of_toNat_eq zero)

/-- A merge that does not fit gets some exponent wrong. -/
theorem exists_wrong_exponent (leftStage : CandidateFactors left)
    (rightStage : CandidateFactors right) (unfit : ¬ MergeFits left right) :
    ∃ index, exponentAt index (mergeFactorsCsr left right maxMergeFactors) ≠
      exponentAt index left + exponentAt index right := by
  have leftAscending := leftStage.ascending
  have rightAscending := rightStage.ascending
  by_cases long : maxMergeFactors < (merge (· + ·) left right).length
  · rcases exists_dropped (ascending_merge leftAscending rightAscending) long with
      ⟨index, dropped, present⟩
    refine ⟨index, ?_⟩
    have lost : exponentAt index
        (mergeFactorsCsr left right maxMergeFactors) = 0 := by
      rw [exponentAt, mergeFactorsCsr, mergeUpTo_eq_take, dropped]
      rfl
    rw [mem_keys_iff_lookup, lookup_merge _ index leftAscending rightAscending]
      at present
    have positive : 0 < exponentAt index left + exponentAt index right := by
      cases inLeft : left.lookup index with
      | some count =>
        have leftExponent := exponentAt_pos leftStage.positive (by rw [inLeft]; rfl)
        omega
      | none =>
        rw [inLeft] at present
        have rightExponent := exponentAt_pos rightStage.positive present
        omega
    omega
  · rw [Nat.not_lt] at long
    have wraps : ∃ index exponent exponent', (index, exponent) ∈ left ∧
        (index, exponent') ∈ right ∧ 255 < exponent.toNat + exponent'.toNat := by
      by_contra none
      apply unfit
      refine ⟨?_, ?_⟩
      · rwa [← length_merge (· + ·) leftAscending rightAscending]
      · intro index exponent exponent' inLeft inRight
        by_contra large
        exact none ⟨index, exponent, exponent', inLeft, inRight, Nat.lt_of_not_le large⟩
    rcases wraps with ⟨index, exponent, exponent', inLeft, inRight, large⟩
    have leftLookup := lookup_of_mem leftAscending inLeft
    have rightLookup := lookup_of_mem rightAscending inRight
    refine ⟨index, ?_⟩
    rw [mergeFactorsCsr, mergeUpTo_eq_take, List.take_of_length_le long, exponentAt,
      lookup_merge (· + ·) index leftAscending rightAscending, exponentAt,
      exponentAt, leftLookup, rightLookup]
    simp only [combineOption, Option.elim_some, BitVec.toNat_add]
    omega

theorem ascending_mergeFactorsCsr (maxCap : Nat) (leftAscending : Ascending left)
    (rightAscending : Ascending right) : Ascending (mergeFactorsCsr left right maxCap) := by
  rw [mergeFactorsCsr, mergeUpTo_eq_take]
  exact (ascending_merge leftAscending rightAscending).sublist
    (List.take_sublist _ _)

/-- Whatever two relations with these factor lists and one large prime are
combined, the emitted row satisfies its congruence. -/
def CombineLaw (left right : List Factor) : Prop :=
  ∀ (N : UInt512) (factorBase : Nat → Nat) (maxRels maxFactors : BitVec 32)
    (counter reserved : DualCounter) (input witness row : Relation),
    N.toNat ≠ 0 → (∀ index, (factorBase index).Prime) →
    input.FromCandidate → witness.FromCandidate →
    input.factors = left → witness.factors = right →
    input.largePrime = witness.largePrime →
    input.Congruent N.toNat factorBase input.largePrime.toNat →
    witness.Congruent N.toNat factorBase witness.largePrime.toNat →
    globalCombine N maxRels maxFactors counter input witness = .emitted row reserved →
    row.Congruent N.toNat factorBase (row.largePrime.toNat ^ 2)

theorem emitted_row {maxRels maxFactors : BitVec 32} {counter reserved : DualCounter}
    {input witness row : Relation}
    (emitted : globalCombine N maxRels maxFactors counter input witness = .emitted row reserved) :
    row = combineRow N input witness := by
  rw [globalCombine] at emitted
  split at emitted
  · cases emitted
  split at emitted
  · cases emitted
  dsimp only at emitted
  split at emitted
  · cases emitted
  · cases emitted
    rfl

theorem globalCombine_of_reserved {maxRels maxFactors : BitVec 32} {counter reserved : DualCounter}
    {input witness : Relation} (sameLargePrime : input.largePrime = witness.largePrime)
    (different : input.sqrtQ ≠ witness.sqrtQ)
    (reservation : atomicReserveDual counter (BitVec.ofNat 32
      (mergeFactorsCsr input.factors witness.factors maxMergeFactors).length)
        maxRels maxFactors = some reserved) :
    globalCombine N maxRels maxFactors counter input witness =
      .emitted (combineRow N input witness) reserved := by
  rw [globalCombine, sameLargePrime, if_neg (not_not.mpr rfl), if_neg different]
  simp only [combineRow, reservation]

def isolated (index : Nat) (factors : List Factor) (offset : Nat) : Relation where
  sqrtQ := UInt512.ofNat (2 ^ exponentAt index factors % 1187 + offset)
  sign := 1
  val2Exp := 0
  largePrime := 9497
  charBits := 0
  factors := factors

theorem toNat_isolated (index : Nat) (factors : List Factor) {offset : Nat}
    (small : offset ≤ 1187) :
    (isolated index factors offset).sqrtQ.toNat = 2 ^ exponentAt index factors % 1187 + offset := by
  apply UInt512.toNat_ofNat_of_lt
  have residue := Nat.mod_lt (2 ^ exponentAt index factors)
    (show 0 < 1187 by decide)
  calc 2 ^ exponentAt index factors % 1187 + offset < 2 ^ 12 := by omega
    _ < 2 ^ (32 * 16) := Nat.pow_lt_pow_right (by decide) (by decide)
    _ = UInt512.cardinality := UInt512.two_pow_eq_cardinality rfl

theorem congruent_iff_of_plain {modulus cofactor : Nat} {factorBase : Nat → Nat}
    {relation : Relation} (positive : relation.sign = 1)
    (odd : relation.val2Exp = 0) :
    relation.Congruent modulus factorBase cofactor ↔ relation.sqrtQ.toNat ^ 2 ≡
        factorProduct factorBase relation.factors * cofactor [MOD modulus] := by
  rw [Relation.Congruent, positive, odd, ← Int.natCast_modEq_iff]
  simp [signValue]

theorem isolated_root (index : Nat) (factors : List Factor) {offset : Nat}
    (offsetValid : offset = 0 ∨ offset = 1187) :
    (isolated index factors offset).sqrtQ.toNat ≡ 2 ^ exponentAt index factors [MOD 1187] := by
  rw [toNat_isolated index factors (by omega)]
  rcases offsetValid with rfl | rfl
  · exact Nat.mod_modEq _ _
  · exact (Nat.add_mod_right _ _).trans (Nat.mod_modEq _ _)

def separatingModulus : UInt512 := UInt512.ofUInt32 1187

theorem toNat_separatingModulus : separatingModulus.toNat = 1187 :=
  UInt512.toNat_ofUInt32 1187

theorem isolated_congruent (index : Nat) {factors : List Factor}
    (ascending : Ascending factors) (offset : Nat)
    (offsetValid : offset = 0 ∨ offset = 1187) :
    (isolated index factors offset).Congruent separatingModulus.toNat
      (isolate index) (isolated index factors offset).largePrime.toNat := by
  rw [toNat_separatingModulus]
  apply (congruent_iff_of_plain rfl rfl).mpr
  calc (isolated index factors offset).sqrtQ.toNat ^ 2
      ≡ (2 ^ exponentAt index factors) ^ 2 [MOD 1187] :=
        (isolated_root index factors offsetValid).pow 2
    _ = 4 ^ exponentAt index factors := by
        rw [← Nat.pow_mul, Nat.mul_comm, Nat.pow_mul]
    _ ≡ factorProduct (isolate index) factors [MOD 1187] :=
        (factorProduct_isolate index ascending).symm
    _ = factorProduct (isolate index) factors * 1 := (Nat.mul_one _).symm
    _ ≡ factorProduct (isolate index) factors * 9497 [MOD 1187] :=
        Nat.ModEq.mul_left _ (show 1 ≡ 9497 [MOD 1187] from rfl)

theorem isolated_emitted (index : Nat) (left right : List Factor) :
    ∃ reserved, globalCombine separatingModulus 1 64 ⟨0, 0⟩
      (isolated index left 0) (isolated index right 1187) =
        .emitted (combineRow separatingModulus (isolated index left 0)
          (isolated index right 1187)) reserved := by
  have different : (isolated index left 0).sqrtQ ≠
      (isolated index right 1187).sqrtQ := by
    intro equal
    have values := congrArg UInt512.toNat equal
    rw [toNat_isolated index left (by decide),
      toNat_isolated index right (by decide)] at values
    have residue := Nat.mod_lt (2 ^ exponentAt index left)
      (show 0 < 1187 by decide)
    omega
  have short : (mergeFactorsCsr left right maxMergeFactors).length ≤ 64 := by
    rw [mergeFactorsCsr, mergeUpTo_eq_take]
    exact List.length_take_le _ _
  have room : ¬ (1#32 ≤ 0#32 ∨ 64#32 < 0#32 + BitVec.ofNat 32
      (mergeFactorsCsr left right maxMergeFactors).length) := by
    rw [BitVec.zero_add, BitVec.lt_def, BitVec.toNat_ofNat, BitVec.toNat_ofNat,
      Nat.mod_eq_of_lt (show (mergeFactorsCsr left right
        maxMergeFactors).length < 2 ^ 32 by omega), not_or]
    exact ⟨by decide, Nat.not_lt.mpr short⟩
  have reservation : atomicReserveDual ⟨0, 0⟩ (BitVec.ofNat 32
      (mergeFactorsCsr left right maxMergeFactors).length) 1 64 =
        some ⟨0#32 + 1, 0#32 + BitVec.ofNat 32
          (mergeFactorsCsr left right maxMergeFactors).length⟩ := if_neg room
  exact ⟨_, globalCombine_of_reserved rfl different reservation⟩

/-- The combine kernel meets its law exactly on the factor lists that fit its
buffer. -/
theorem combineLaw_iff {left right : List Factor}
    (leftStage : CandidateFactors left) (rightStage : CandidateFactors right) :
    CombineLaw left right ↔ MergeFits left right := by
  constructor
  · intro law
    by_contra unfit
    rcases exists_wrong_exponent leftStage rightStage unfit with ⟨index, wrong⟩
    rcases isolated_emitted index left right with ⟨reserved, emitted⟩
    have inputCongruent := isolated_congruent index leftStage.ascending
      0 (.inl rfl)
    have witnessCongruent := isolated_congruent index rightStage.ascending
      1187 (.inr rfl)
    have nonzero : separatingModulus.toNat ≠ 0 := by
      rw [toNat_separatingModulus]
      decide
    have rowCongruent := law separatingModulus (isolate index) 1 64 ⟨0, 0⟩
      reserved (isolated index left 0) (isolated index right 1187) _ nonzero
      (isolate_prime index) ⟨leftStage, Nat.zero_le _⟩
      ⟨rightStage, Nat.zero_le _⟩ rfl rfl rfl inputCongruent witnessCongruent
      emitted
    rw [congruent_iff_of_plain rfl rfl, toNat_separatingModulus] at rowCongruent
    apply wrong
    have merged := factorProduct_isolate index (ascending_mergeFactorsCsr
      maxMergeFactors leftStage.ascending rightStage.ascending)
    have mergedBound := exponentAt_le index
      (mergeFactorsCsr left right maxMergeFactors)
    have leftBound := exponentAt_le index left
    have rightBound := exponentAt_le index right
    apply four_pow_injective (by omega) (by omega)
    have root : (combineRow separatingModulus (isolated index left 0)
        (isolated index right 1187)).sqrtQ.toNat ≡
          2 ^ exponentAt index left * 2 ^ exponentAt index right
            [MOD 1187] := by
      rw [toNat_combineRow_sqrtQ nonzero, toNat_separatingModulus]
      exact (Nat.mod_modEq _ _).trans ((isolated_root index left (.inl rfl)).mul
        (isolated_root index right (.inr rfl)))
    calc 4 ^ exponentAt index (mergeFactorsCsr left right maxMergeFactors)
        ≡ factorProduct (isolate index)
            (mergeFactorsCsr left right maxMergeFactors) * 1 [MOD 1187] := by
          rw [Nat.mul_one]
          exact merged.symm
      _ ≡ factorProduct (isolate index)
            (mergeFactorsCsr left right maxMergeFactors) * 9497 ^ 2
            [MOD 1187] := Nat.ModEq.mul_left _ (show 1 ≡ 9497 ^ 2 [MOD 1187] from rfl)
      _ ≡ (2 ^ exponentAt index left * 2 ^ exponentAt index right) ^ 2
            [MOD 1187] := rowCongruent.symm.trans (root.pow 2)
      _ = 4 ^ (exponentAt index left + exponentAt index right) := by
          rw [← Nat.pow_add, ← Nat.pow_mul, Nat.mul_comm, Nat.pow_mul]
  · intro fits N factorBase maxRels maxFactors counter reserved input witness row
      nonzero _ inputStage witnessStage inputFactors witnessFactors sameLargePrime
      inputCongruent witnessCongruent emitted
    rw [emitted_row emitted]
    rw [← sameLargePrime] at witnessCongruent
    exact combineRow_congruent nonzero inputStage witnessStage inputCongruent
      witnessCongruent (by rwa [inputFactors, witnessFactors])

/-- Disjoint short lists fit. -/
theorem combineLaw_iff_short : CombineLaw [(0, 1#8), (3, 2#8)] [(1, 1#8), (3, 5#8)] :=
  (combineLaw_iff ⟨by decide, by decide, by decide⟩
    ⟨by decide, by decide, by decide⟩).mpr ⟨by decide, by
      simp only [List.mem_cons, Prod.mk.injEq, List.not_mem_nil, or_false]
      rintro index exponent exponent' (⟨rfl, rfl⟩ | ⟨rfl, rfl⟩) <;>
        rintro (⟨left, rfl⟩ | ⟨left, rfl⟩) <;> simp_all⟩

/-! ### Two partials with 33 primes each

`N` is a quadratic residue modulo 2 and the 66 odd primes from 5 to 337, which
are its factor base; both roots exceed `N` by a product of 33 of these primes and
the large prime 1000003. -/

def wideFactorBase (index : Nat) : Nat :=
  [2, 5, 7, 11, 13, 17, 19, 23, 29, 31, 37, 41, 43, 47, 53, 59, 61, 67, 71,
   73, 79, 83, 89, 97, 101, 103, 107, 109, 113, 127, 131, 137, 139, 149, 151,
   157, 163, 167, 173, 179, 181, 191, 193, 197, 199, 211, 223, 227, 229, 233,
   239, 241, 251, 257, 263, 269, 271, 277, 281, 283, 293, 307, 311, 313, 317,
   331, 337].getD index 2

def wideModulus : UInt512 := UInt512.ofNat
  45235611798952525699131742505149532171315172773161424196556308509692782719367981788804197838202821686622321922192601638229297279251251

def wideInput : Relation where
  sqrtQ := UInt512.ofNat
    6725742471947058255067317992070230354952165448908622044278119101364
  sign := 1
  val2Exp := 0
  largePrime := 1000003
  charBits := 0
  factors := [1, 3, 5, 7, 11, 13, 15, 18, 19, 21, 23, 25, 27, 29, 31, 33, 34, 35, 37,
     39, 41, 43, 45, 47, 49, 51, 53, 55, 57, 59, 61, 63, 65].map fun index => (index, 1)

def wideWitness : Relation where
  sqrtQ := UInt512.ofNat
    6725742471947058255067317992070230354952165448908622044278117101358
  sign := 1
  val2Exp := 0
  largePrime := 1000003
  charBits := 0
  factors := [2, 4, 6, 8, 9, 10, 12, 14, 16, 17, 20, 22, 24, 26, 28, 30, 32, 36, 38,
     40, 42, 44, 46, 48, 50, 52, 54, 56, 58, 60, 62, 64, 66].map fun index => (index, 1)

/-- The row emitted for them has lost the two largest primes. -/
theorem wide_combine_incongruent : wideInput.FromCandidate ∧ wideWitness.FromCandidate ∧
      wideInput.largePrime = wideWitness.largePrime ∧
      wideInput.Congruent wideModulus.toNat wideFactorBase 1000003 ∧
      wideWitness.Congruent wideModulus.toNat wideFactorBase 1000003 ∧
      ∃ row reserved, globalCombine wideModulus 1 64 ⟨0, 0⟩ wideInput wideWitness =
          .emitted row reserved ∧
        ¬ row.Congruent wideModulus.toNat wideFactorBase (1000003 ^ 2) := by
  refine ⟨⟨⟨by decide +kernel, by decide +kernel, by decide +kernel⟩,
    by decide +kernel⟩, ⟨⟨by decide +kernel, by decide +kernel,
      by decide +kernel⟩, by decide +kernel⟩, rfl, by decide +kernel,
    by decide +kernel, combineRow wideModulus wideInput wideWitness, ⟨1, 64⟩,
    globalCombine_of_reserved rfl (by decide +kernel) (by decide +kernel), ?_⟩
  have nonzero : wideModulus.toNat ≠ 0 := by decide +kernel
  rw [congruent_iff_of_plain (by decide +kernel) (by decide +kernel),
    toNat_combineRow_sqrtQ nonzero]
  decide +kernel

end Combine

end CudaMpqs
