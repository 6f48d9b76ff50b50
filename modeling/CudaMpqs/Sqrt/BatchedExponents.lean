import CudaMpqs.Sqrt.BatchedProducts

/-! # Exponents of the selected relations

What `AccumExponents_Parallel` adds up for each solution, what `HalveExponents` makes of it,
and the powers of `BatchedExponentiateY`. -/

namespace CudaMpqs.BatchedSquareRoot

open ThreadLoops SquareRoot

/-! ## Accumulation -/

section Accumulation

theorem sum_map_flatMap {Event Item M : Type} [AddCommMonoid M] (weight : Event → M)
    (events : Item → List Event) (items : List Item) :
    ((items.flatMap events).map weight).sum =
      (items.map fun item => ((events item).map weight).sum).sum := by
  rw [List.map_flatMap, List.flatMap_def, List.sum_flatten, List.map_map]
  rfl

variable {solutions : BWKernelSolutionView} {batch : HostRelationBatch} {K solIdx : Nat}

theorem selectedAdds_apply {adds : Nat → Nat → List (Nat × BitVec 32)}
    {before after : Nat → BitVec 32} {cell : Nat} (small : K + 255 < 2 ^ 32)
    (tall : solutions.numSolutions ≤ 65535)
    (added : Added (selectedAdds solutions K adds) before after)
    (solution : solIdx < solutions.numSolutions)
    (own : ∀ other < solutions.numSolutions, other ≠ solIdx → ∀ relIdx < K,
      solutions.selects other relIdx → ∀ add ∈ adds other relIdx, add.1 ≠ cell) :
    after cell = before cell + ∑ relIdx ∈ Finset.range K, if solutions.selects solIdx relIdx then
        ((adds solIdx relIdx).map fun add => if add.1 = cell then add.2 else 0).sum
      else 0 := by
  have total : ((selectedAdds solutions K adds).map fun add =>
      if add.1 = cell then add.2 else 0).sum =
        ∑ other ∈ Finset.range solutions.numSolutions, ∑ relIdx ∈ Finset.range K,
          if solutions.selects other relIdx then
            ((adds other relIdx).map fun add => if add.1 = cell then add.2 else 0).sum
          else 0 := by
    rw [selectedAdds, launch_guarded small tall, sum_map_flatMap]
    refine congrArg List.sum (List.map_congr_left fun other _ => ?_)
    rw [sum_map_flatMap]
    refine congrArg List.sum (List.map_congr_left fun relIdx _ => ?_)
    split <;> rfl
  rw [added.apply, total]
  refine congrArg (before cell + ·) (Finset.sum_eq_single solIdx ?_ ?_)
  · intro other member different
    refine Finset.sum_eq_zero fun relIdx inside => ?_
    split
    next chosen =>
        refine List.sum_eq_zero fun value found => ?_
        rcases List.mem_map.mp found with ⟨add, among, rfl⟩
        exact if_neg (own other (Finset.mem_range.mp member) different relIdx
          (Finset.mem_range.mp inside) chosen add among)
    next => rfl
  · exact fun outside => absurd (Finset.mem_range.mpr solution) outside

theorem signTotal_eq (rows : List Relation) :
    signTotal rows = (rows.map fun row => if row.sign != 1 then 1 else 0).sum := by
  induction rows with
  | nil => rfl
  | cons row rows induction =>
    rw [signTotal] at induction ⊢
    rw [List.countP_cons, induction, List.map_cons, List.sum_cons, Nat.add_comm]

theorem exponentTotal_allFactors (rows : List Relation) (p : Nat) :
    exponentTotal (allFactors rows) p = (rows.map fun row => exponentTotal row.factors p).sum := by
  rw [exponentTotal, allFactors, sum_map_flatMap]
  rfl

structure Covers (solutions : BWKernelSolutionView) (batch : HostRelationBatch) : Prop where
  relations : batch.numRelations + 255 < 2 ^ 32
  tall : solutions.numSolutions ≤ 65535
  words : solutions.numSolutions * solutions.wordsPerVec ≤ 2 ^ 32
  bits : batch.numRelations ≤ 64 * solutions.wordsPerVec

instance (solutions : BWKernelSolutionView) (batch : HostRelationBatch) :
    Decidable (Covers solutions batch) :=
  decidable_of_iff (batch.numRelations + 255 < 2 ^ 32 ∧ solutions.numSolutions ≤ 65535 ∧
      solutions.numSolutions * solutions.wordsPerVec ≤ 2 ^ 32 ∧
      batch.numRelations ≤ 64 * solutions.wordsPerVec)
    ⟨fun ⟨relations, tall, words, bits⟩ => ⟨relations, tall, words, bits⟩,
      fun ⟨relations, tall, words, bits⟩ => ⟨relations, tall, words, bits⟩⟩

theorem Covers.cast_total (covers : Covers solutions batch)
    (solution : solIdx < solutions.numSolutions) (f : Relation → Nat) :
    ((((solutionRows solutions batch solIdx).map f).sum : Nat) : BitVec 32) =
      ∑ relIdx ∈ Finset.range batch.numRelations,
        if solutions.selects solIdx relIdx then ((f (batch.relation relIdx) : Nat) : BitVec 32)
        else 0 := by
  rw [solutionRows_eq solution covers.words covers.bits, List.map_map, sum_filter_range,
    Nat.cast_sum]
  refine Finset.sum_congr rfl fun relIdx _ => ?_
  split <;> rfl

structure HoldTotals (solutions : BWKernelSolutionView) (batch : HostRelationBatch)
    (fbSize : Nat) (arrays : ExponentArrays) : Prop where
  signs : ∀ solIdx < solutions.numSolutions,
    arrays.dSignCounts solIdx = (signTotal (solutionRows solutions batch solIdx) : BitVec 32)
  exp2 : ∀ solIdx < solutions.numSolutions,
    arrays.dExp2Accum solIdx = (val2Total (solutionRows solutions batch solIdx) : BitVec 32)
  matrix : ∀ solIdx < solutions.numSolutions, ∀ p < fbSize,
    arrays.dExpMatrix (solIdx * fbSize + p) =
      (exponentTotal (allFactors (solutionRows solutions batch solIdx)) p : BitVec 32)

def InsideBase (solutions : BWKernelSolutionView) (batch : HostRelationBatch) (fbSize : Nat) :
    Prop :=
  ∀ solIdx < solutions.numSolutions, ∀ relIdx < batch.numRelations,
    solutions.selects solIdx relIdx → ∀ factor ∈ (batch.relation relIdx).factors, factor.1 < fbSize

instance (solutions : BWKernelSolutionView) (batch : HostRelationBatch) (fbSize : Nat) :
    Decidable (InsideBase solutions batch fbSize) :=
  inferInstanceAs (Decidable (∀ solIdx < solutions.numSolutions, ∀ relIdx < batch.numRelations,
    solutions.selects solIdx relIdx → ∀ factor ∈ (batch.relation relIdx).factors,
      factor.1 < fbSize))

structure Cleared (nSolutions fbSize : Nat) (arrays : ExponentArrays) : Prop where
  signs : ∀ solIdx < nSolutions, arrays.dSignCounts solIdx = 0
  exp2 : ∀ solIdx < nSolutions, arrays.dExp2Accum solIdx = 0
  matrix : ∀ cell < nSolutions * fbSize, arrays.dExpMatrix cell = 0

theorem accumExponents_totals (covers : Covers solutions batch) {fbSize : Nat}
    (fits : solutions.numSolutions * fbSize ≤ 2 ^ 32)
    (inside : InsideBase solutions batch fbSize) {before after : ExponentArrays}
    (cleared : Cleared solutions.numSolutions fbSize before)
    (accumulated : AccumExponents solutions batch batch.numRelations fbSize before after) :
    HoldTotals solutions batch fbSize after where
  signs := by
    intro solIdx solution
    rw [signTotal_eq, covers.cast_total solution, selectedAdds_apply covers.relations covers.tall
      accumulated.signs solution, cleared.signs solIdx solution, zero_add]
    · refine Finset.sum_congr rfl fun relIdx _ => ?_
      split
      · by_cases negative : ((batch.relation relIdx).sign != 1) = true
        · rw [if_pos negative, if_pos negative]
          simp
        · rw [if_neg negative, if_neg negative]
          rfl
      · rfl
    · intro other _ different relIdx _ _ add found
      split at found
      · rw [List.mem_singleton.mp found]
        exact different
      · exact absurd found List.not_mem_nil
  exp2 := by
    intro solIdx solution
    rw [val2Total, covers.cast_total solution, selectedAdds_apply covers.relations covers.tall
      accumulated.exp2 solution, cleared.exp2 solIdx solution, zero_add]
    · refine Finset.sum_congr rfl fun relIdx _ => ?_
      simp
    · intro other _ different relIdx _ _ add found
      rw [List.mem_singleton.mp found]
      exact different
  matrix := by
    intro solIdx solution p place
    rw [exponentTotal_allFactors, covers.cast_total solution, selectedAdds_apply covers.relations
      covers.tall accumulated.matrix solution, cleared.matrix _ (flat_lt solution place), zero_add]
    · refine Finset.sum_congr rfl fun relIdx member => ?_
      by_cases chosen : solutions.selects solIdx relIdx = true
      · rw [if_pos chosen, if_pos chosen, exponentTotal, Nat.cast_list_sum, List.map_map,
          List.map_map]
        refine congrArg List.sum (List.map_congr_left fun factor found => ?_)
        have below := inside solIdx solution relIdx (Finset.mem_range.mp member) chosen factor found
        simp only [Function.comp_apply, u32_flat fits solution below]
        by_cases same : factor.1 = p
        · rw [if_pos same, if_pos (by rw [same])]
          apply BitVec.eq_of_toNat_eq
          simp
        · rw [if_neg same, if_neg (by omega), Nat.cast_zero]
      · rw [if_neg chosen, if_neg chosen]
    · intro other otherSolution different relIdx member chosen add found
      rcases List.mem_map.mp found with ⟨factor, among, rfl⟩
      have below := inside other otherSolution relIdx member chosen factor among
      dsimp only
      rw [u32_flat fits otherSolution below]
      exact fun same => different (flat_inj below place same).1

end Accumulation

/-! ## Halving -/

section Halving

variable {nSolutions fbSize : Nat} {before after : ExponentArrays}
  {validBefore validAfter : Nat → BitVec 8}

theorem mem_halveLaunch {Event : Type} {thread : Nat → Nat → List Event}
    (tall : nSolutions ≤ 65535) {event : Event} :
    event ∈ halveLaunch nSolutions fbSize thread ↔
      ∃ solIdx < nSolutions, ∃ pIdx < blocks fbSize * 256, event ∈ thread solIdx pIdx := by
  simp only [halveLaunch, launch, if_pos tall, flatMap_threads _ (blocks_le fbSize),
    List.mem_flatMap, List.mem_range]

def OddSolution (arrays : ExponentArrays) (fbSize solIdx : Nat) : Prop :=
  isOdd (arrays.dSignCounts solIdx) ∨ isOdd (arrays.dExp2Accum solIdx) ∨
    ∃ p < fbSize, isOdd (arrays.dExpMatrix (solIdx * fbSize + p))

/-- A flag is cleared exactly where some exponent is odd. -/
theorem mem_halveValid {arrays : ExponentArrays} (tall : nSolutions ≤ 65535)
    (fits : nSolutions * fbSize ≤ 2 ^ 32) (small : fbSize + 255 < 2 ^ 32) (base : 0 < fbSize)
    {store : Nat × BitVec 8} : store ∈ halveValid arrays nSolutions fbSize ↔
      ∃ solIdx < nSolutions, OddSolution arrays fbSize solIdx ∧ store = (solIdx, 0) := by
  have threads := le_blocks small
  rw [halveValid, mem_halveLaunch tall]
  constructor
  · rintro ⟨solIdx, solution, p, -, member⟩
    refine ⟨solIdx, solution, ?_⟩
    rcases List.mem_append.mp member with first | own
    · split at first
      · rcases List.mem_append.mp first with sign | exp2
        · split at sign
          next odd => exact ⟨Or.inl odd, List.mem_singleton.mp sign⟩
          next => exact absurd sign List.not_mem_nil
        · split at exp2
          next odd => exact ⟨Or.inr (Or.inl odd), List.mem_singleton.mp exp2⟩
          next => exact absurd exp2 List.not_mem_nil
      · exact absurd first List.not_mem_nil
    · split at own
      next place =>
          rw [u32_flat fits solution place] at own
          split at own
          next odd => exact ⟨Or.inr (Or.inr ⟨p, place, odd⟩), List.mem_singleton.mp own⟩
          next => exact absurd own List.not_mem_nil
      next => exact absurd own List.not_mem_nil
  · rintro ⟨solIdx, solution, odd | odd | ⟨p, place, odd⟩, rfl⟩
    · refine ⟨solIdx, solution, 0, by omega, List.mem_append_left _ ?_⟩
      rw [if_pos rfl, if_pos odd]
      exact List.mem_append_left _ (List.mem_singleton.mpr rfl)
    · refine ⟨solIdx, solution, 0, by omega, List.mem_append_left _ ?_⟩
      rw [if_pos rfl, if_pos odd]
      exact List.mem_append_right _ (List.mem_singleton.mpr rfl)
    · refine ⟨solIdx, solution, p, by omega, List.mem_append_right _ ?_⟩
      rw [if_pos place, u32_flat fits solution place, if_pos odd]
      exact List.mem_singleton.mpr rfl

structure HalvedSolution (fbSize : Nat) (before after : ExponentArrays)
    (validBefore validAfter : Nat → BitVec 8) (solIdx : Nat) : Prop where
  odd : OddSolution before fbSize solIdx → validAfter solIdx = 0
  even : ¬ OddSolution before fbSize solIdx → validAfter solIdx = validBefore solIdx
  signs : after.dSignCounts solIdx = before.dSignCounts solIdx
  exp2 : after.dExp2Accum solIdx = before.dExp2Accum solIdx >>> 1
  matrix : ∀ p < fbSize, after.dExpMatrix (solIdx * fbSize + p) =
    before.dExpMatrix (solIdx * fbSize + p) >>> 1

theorem halveExponents_halved (tall : nSolutions ≤ 65535)
    (fits : nSolutions * fbSize ≤ 2 ^ 32) (small : fbSize + 255 < 2 ^ 32) (base : 0 < fbSize)
    (halves : HalveExponents nSolutions fbSize before after validBefore validAfter)
    {solIdx : Nat} (solution : solIdx < nSolutions) :
    HalvedSolution fbSize before after validBefore validAfter solIdx where
  odd := by
    intro odd
    apply halves.valid.of_mem
    · exact (mem_halveValid tall fits small base).mpr ⟨solIdx, solution, odd, rfl⟩
    · intro store member _
      rcases (mem_halveValid tall fits small base).mp member with ⟨_, _, _, rfl⟩
      rfl
  even := by
    intro even
    apply halves.valid.of_notMem
    intro store member same
    rcases (mem_halveValid tall fits small base).mp member with ⟨other, _, odd, rfl⟩
    exact even (same ▸ odd)
  signs := by rw [halves.signs]
  exp2 := by
    have threads := le_blocks small
    apply halves.exp2.of_mem
    · refine (mem_halveLaunch tall).mpr ⟨solIdx, solution, 0, by omega, ?_⟩
      rw [if_pos rfl]
      exact List.mem_singleton.mpr rfl
    · intro store member same
      rcases (mem_halveLaunch tall).mp member with ⟨other, _, p, _, member⟩
      split at member
      · obtain rfl := List.mem_singleton.mp member
        obtain rfl : other = solIdx := same
        rfl
      · exact absurd member List.not_mem_nil
  matrix := by
    intro p place
    have threads := le_blocks small
    apply halves.matrix.of_mem
    · refine (mem_halveLaunch tall).mpr ⟨solIdx, solution, p, by omega, ?_⟩
      rw [if_pos place, u32_flat fits solution place]
      exact List.mem_singleton.mpr rfl
    · intro store member same
      rcases (mem_halveLaunch tall).mp member with ⟨other, _, p', _, member⟩
      split at member
      · obtain rfl := List.mem_singleton.mp member
        dsimp only at same ⊢
        rw [same]
      · exact absurd member List.not_mem_nil

private theorem isOdd_natCast (total : Nat) : isOdd (total : BitVec 32) ↔ ¬ Even total := by
  have one : (1 : BitVec 32).toNat = 1 := rfl
  have masked : ((total : BitVec 32) &&& 1).toNat = total % 2 := by
    rw [BitVec.toNat_and, BitVec.natCast_eq_ofNat, BitVec.toNat_ofNat, one, Nat.and_one_is_mod]
    omega
  rw [isOdd, bne_iff_ne, ne_eq, ← BitVec.toNat_inj, masked, Nat.even_iff]
  rfl

variable {solutions : BWKernelSolutionView} {batch : HostRelationBatch}
  {factorBase : List (BitVec 32)}

theorem HoldTotals.oddSolution_iff
    (totals : HoldTotals solutions batch factorBase.length before) {solIdx : Nat}
    (solution : solIdx < solutions.numSolutions) :
    OddSolution before factorBase.length solIdx ↔
      ¬ EvenSelection factorBase (solutionRows solutions batch solIdx) := by
  have cells : (∃ p < factorBase.length,
      isOdd (before.dExpMatrix (solIdx * factorBase.length + p)) = true) ↔ ∃ p < factorBase.length,
          ¬ Even (exponentTotal (allFactors (solutionRows solutions batch solIdx)) p) := by
    refine exists_congr fun p => and_congr_right fun place => ?_
    rw [totals.matrix solIdx solution p place, isOdd_natCast]
  rw [OddSolution, cells, totals.signs solIdx solution, totals.exp2 solIdx solution, isOdd_natCast,
    isOdd_natCast]
  constructor
  · rintro (sign | val2 | ⟨p, place, odd⟩) even
    · exact sign even.sign
    · exact val2 even.val2
    · exact odd (even.exponent p place)
  · intro uneven
    by_contra all
    push Not at all
    exact uneven ⟨all.1, all.2.1, all.2.2⟩

theorem toNat_half (total : Nat) : ((total : BitVec 32) >>> 1).toNat = total % 2 ^ 32 / 2 := by
  rw [BitVec.toNat_ushiftRight, BitVec.natCast_eq_ofNat, BitVec.toNat_ofNat,
    Nat.shiftRight_eq_div_pow, Nat.pow_one]

end Halving

/-! ## Powers -/

section Powers

variable {mont : Montgomery} {base : UInt512} {residue : ZMod mont.N.toNat}

theorem powerTable_represents (valid : mont.Valid) (represents : mont.Represents base residue)
    (i : Nat) : mont.Represents (powerTable mont base i) (residue ^ (i + 1)) := by
  induction i with
  | zero => rwa [pow_one]
  | succ i induction =>
    rw [pow_succ]
    exact induction.mul valid represents

private theorem iterate_square_represents (valid : mont.Valid) (turns : Nat) {result : UInt512}
    {root : ZMod mont.N.toNat} (represents : mont.Represents result root) :
    mont.Represents ((fun result => mont.mul result result)^[turns] result) (root ^ 2 ^ turns) := by
  induction turns generalizing result root with
  | zero => rwa [pow_zero, pow_one]
  | succ turns induction =>
    have rest := induction (represents.mul valid represents)
    rwa [← sq, ← pow_mul, ← pow_succ'] at rest

section

variable (valid : mont.Valid) (represents : mont.Represents base residue) (e : BitVec 32)

include valid represents e

private theorem windowStep_represents (turn : Nat) {result : UInt512}
    (sofar : mont.Represents result (residue ^ (e.toNat / 16 ^ (turn + 1)))) :
    mont.Represents (windowStep mont base e (4 * turn + 3) result)
      (residue ^ (e.toNat / 16 ^ turn)) := by
  have digit : ((e >>> (4 * turn + 3 - 3)) &&& 15).toNat = e.toNat / 16 ^ turn % 16 := by
    have mask : (15 : BitVec 32).toNat = 2 ^ 4 - 1 := rfl
    rw [BitVec.toNat_and, mask, Nat.and_two_pow_sub_one_eq_mod, BitVec.toNat_ushiftRight,
      Nat.shiftRight_eq_div_pow, Nat.add_sub_cancel, pow_mul]
    norm_num
  have split : e.toNat / 16 ^ turn =
      e.toNat / 16 ^ (turn + 1) * 2 ^ 4 + e.toNat / 16 ^ turn % 16 := by
    rw [pow_succ, ← Nat.div_div_eq_div_mul]
    omega
  have squared := iterate_square_represents valid 4 sofar
  rw [← pow_mul] at squared
  rw [windowStep, split, pow_add]
  by_cases positive : 0 < (e >>> (4 * turn + 3 - 3)) &&& 15
  · have nonzero : 0 < e.toNat / 16 ^ turn % 16 := digit ▸ positive
    have power := powerTable_represents valid represents (e.toNat / 16 ^ turn % 16 - 1)
    rw [Nat.sub_add_cancel nonzero] at power
    simp only [if_pos positive, digit]
    exact squared.mul valid power
  · have zero : e.toNat / 16 ^ turn % 16 = 0 :=
      Nat.eq_zero_of_not_pos fun nonzero => positive (BitVec.lt_def.mpr (digit.symm ▸ nonzero))
    simp only [if_neg positive, zero, pow_zero, mul_one]
    exact squared

private theorem windowLoop_represents (turn : Nat) {result : UInt512}
    (sofar : mont.Represents result (residue ^ (e.toNat / 16 ^ (turn + 1)))) :
    mont.Represents (windowLoop mont base e result (4 * turn + 3)) (residue ^ e.toNat) := by
  induction turn generalizing result with
  | zero =>
    have last := windowStep_represents valid represents e 0 sofar
    rw [windowLoop, if_pos (by decide), windowLoop, if_neg (by decide)]
    rwa [pow_zero, Nat.div_one] at last
  | succ turn induction =>
    rw [windowLoop, if_pos (by omega), show 4 * (turn + 1) + 3 - 4 = 4 * turn + 3 by omega]
    exact induction (windowStep_represents valid represents e (turn + 1) sofar)

private theorem windowedPow_represents :
    mont.Represents (windowedPow mont base e) (residue ^ e.toNat) := by
  have bound : e.toNat < 16 ^ (e.toNat.log2 / 4 + 1) := by
    have power : (16 : Nat) ^ (e.toNat.log2 / 4 + 1) = 2 ^ (4 * (e.toNat.log2 / 4 + 1)) := by
      rw [pow_mul]
      norm_num
    rw [power]
    exact Nat.lt_log2_self.trans_le (Nat.pow_le_pow_right (by decide) (by omega))
  have first : (e.toNat.log2 + 4) / 4 * 4 - 1 = 4 * (e.toNat.log2 / 4) + 3 := by omega
  rw [windowedPow, first]
  apply windowLoop_represents valid represents
  rw [Nat.div_eq_of_lt bound, pow_zero]
  exact valid.represents_one

end

theorem multiplyPrime_represents (valid : mont.Valid) (prime : BitVec 32) (expVal : BitVec 32)
    {product : UInt512} {left : ZMod mont.N.toNat} (represents : mont.Represents product left) :
    mont.Represents (multiplyPrime mont (mont.transform (UInt512.ofUInt32 prime)) expVal product)
      (left * prime.toNat ^ expVal.toNat) := by
  have base := valid.represents_transform (UInt512.ofUInt32 prime)
  rw [UInt512.toNat_ofUInt32] at base
  rw [multiplyPrime]
  split
  · next zero =>
      rw [zero, show (0 : BitVec 32).toNat = 0 from rfl, pow_zero, mul_one]
      exact represents
  split
  · next one =>
      rw [one, show (1 : BitVec 32).toNat = 1 from rfl, pow_one]
      exact represents.mul valid base
  split
  · have power := Montgomery.Represents.pow valid (UInt512.ofUInt32 prime)
      (UInt512.ofUInt32 expVal)
    rw [UInt512.toNat_ofUInt32, UInt512.toNat_ofUInt32] at power
    exact represents.mul valid power
  · exact represents.mul valid (windowedPow_represents valid base expVal)

theorem finishY_cast (valid : mont.Valid) {product lpMont : UInt512}
    {left right : ZMod mont.N.toNat} (represents : mont.Represents product left)
    (largePrimes : mont.Represents lpMont right) (signs : Nat) (exp2Half : BitVec 32) :
    ((finishY mont mont.N product (signs : BitVec 32) exp2Half lpMont).toNat : ZMod mont.N.toNat) =
      left * (-1) ^ (signs / 2) * 2 ^ exp2Half.toNat * right := by
  have negates : ((signs : BitVec 32) / 2 &&& 1 != 0) = true ↔ signs / 2 % 2 = 1 := by
    have one : (1 : BitVec 32).toNat = 1 := rfl
    have two : (2 : BitVec 32).toNat = 2 := rfl
    have masked : ((signs : BitVec 32) / 2 &&& 1).toNat = signs / 2 % 2 := by
      rw [BitVec.toNat_and, BitVec.toNat_udiv, BitVec.natCast_eq_ofNat, BitVec.toNat_ofNat, one,
        two, Nat.and_one_is_mod]
      omega
    rw [bne_iff_ne, ne_eq, ← BitVec.toNat_inj, masked, show (0 : BitVec 32).toNat = 0 from rfl]
    omega
  have signed : mont.Represents
      (if (signs : BitVec 32) / 2 &&& 1 != 0 then product.negateModInplace mont.N else product)
      (left * (-1) ^ (signs / 2)) := by
    by_cases odd : signs / 2 % 2 = 1
    · rw [if_pos (negates.mpr odd), (Nat.odd_iff.mpr odd).neg_one_pow, mul_neg_one]
      exact represents.negate
    · rw [if_neg (mt negates.mp odd), (Nat.even_iff.mpr (by omega)).neg_one_pow, mul_one]
      exact represents
  have power := Montgomery.Represents.pow valid (UInt512.ofUInt32 2) (UInt512.ofUInt32 exp2Half)
  rw [UInt512.toNat_ofUInt32, UInt512.toNat_ofUInt32, show (2 : BitVec 32).toNat = 2 from rfl,
    Nat.cast_ofNat] at power
  rw [finishY]
  by_cases positive : 0 < exp2Half
  · simp only [if_pos positive]
    exact ((signed.mul valid power).mul valid largePrimes).reduce valid
  · have zero : exp2Half.toNat = 0 := Nat.eq_zero_of_not_pos fun more => positive more
    simp only [if_neg positive, zero, pow_zero, mul_one]
    exact (signed.mul valid largePrimes).reduce valid

end Powers

end CudaMpqs.BatchedSquareRoot
