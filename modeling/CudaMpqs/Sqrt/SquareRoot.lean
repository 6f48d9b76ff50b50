import Mathlib.Algebra.BigOperators.Ring.Finset
import CudaMpqs.Common.HostRelationBatch
import CudaMpqs.Common.MontgomeryForm

/-! # The square root step

`ComputeX` and `ComputeY` of `sqrt_step.cu`: the two roots of the product of
the selected relations, each by its own loop. -/

namespace CudaMpqs.SquareRoot

def foldSelected {State : Type} (mask : List (BitVec 8))
    (batch : HostRelationBatch) (step : State → Relation → State)
    (initial : State) : State :=
  (List.range (min mask.length batch.numRelations)).foldl
    (fun state i =>
      if mask.getD i 0 != 0 then step state (batch.relation i) else state)
    initial

def computeX (mask : List (BitVec 8)) (batch : HostRelationBatch) (mont : Montgomery) : UInt512 :=
  mont.reduce (foldSelected mask batch (fun xMont row => mont.mul xMont (mont.transform row.sqrtQ))
    (mont.transform (UInt512.ofUInt32 1)))

structure Totals where
  exponents : List (BitVec 64)
  expMinus1 : BitVec 64
  exp2 : BitVec 64
  largePrimesMont : UInt512

/-- An index outside the factor base is only logged. -/
def addFactor (exponents : List (BitVec 64)) (factor : Factor) : List (BitVec 64) :=
  exponents.modify factor.1 (· + factor.2.setWidth 64)

def addRelation (mont : Montgomery) (totals : Totals) (row : Relation) : Totals where
  exponents := row.factors.foldl addFactor totals.exponents
  expMinus1 :=
    if row.sign != 1 then totals.expMinus1 + 1 else totals.expMinus1
  exp2 := totals.exp2 + row.val2Exp.signExtend 64
  largePrimesMont :=
    if 1 < row.largePrime then
      mont.mul totals.largePrimesMont
        (mont.transform (UInt512.ofUInt128 row.largePrime))
    else totals.largePrimesMont

def halfExponent (total : BitVec 64) : UInt512 :=
  UInt512.ofUInt32 (total.setWidth 32 / 2)

def multiplyPower (mont : Montgomery) (yMont : UInt512) (entry : BitVec 32 × BitVec 64) : UInt512 :=
  if entry.2 = 0 then yMont
  else
    mont.mul yMont (mont.pow (mont.transform (UInt512.ofUInt32 entry.1)) (halfExponent entry.2))

def exponentRoot (mont : Montgomery) (factorBase : List (BitVec 32)) (totals : Totals) : UInt512 :=
  let one := mont.transform (UInt512.ofUInt32 1)
  let signed :=
    if totals.expMinus1 / 2 &&& 1 != 0 then one.negateModInplace mont.N else one
  (factorBase.zip totals.exponents).foldl (multiplyPower mont)
    (multiplyPower mont signed (2, totals.exp2))

def computeY (mask : List (BitVec 8)) (batch : HostRelationBatch)
    (factorBase : List (BitVec 32)) (mont : Montgomery) : UInt512 :=
  let totals := foldSelected mask batch (addRelation mont)
    ⟨List.replicate factorBase.length 0, 0, 0, mont.transform (UInt512.ofUInt32 1)⟩
  mont.reduce
    (mont.mul (exponentRoot mont factorBase totals) totals.largePrimesMont)

/-! ## The selection -/

def selectedRows (mask : List (BitVec 8)) (batch : HostRelationBatch) : List Relation :=
  ((List.range (min mask.length batch.numRelations)).filter (mask.getD · 0 != 0)).map batch.relation

theorem foldSelected_eq {State : Type} (mask : List (BitVec 8))
    (batch : HostRelationBatch) (step : State → Relation → State)
    (initial : State) :
    foldSelected mask batch step initial = (selectedRows mask batch).foldl step initial := by
  rw [foldSelected, selectedRows, List.foldl_map, List.foldl_filter]

theorem relation_of_mem_selectedRows {mask : List (BitVec 8)}
    {batch : HostRelationBatch} {row : Relation}
    (member : row ∈ selectedRows mask batch) :
    ∃ idx < batch.numRelations, batch.relation idx = row := by
  rcases List.mem_map.mp member with ⟨idx, inside, rfl⟩
  have bound := List.mem_range.mp (List.mem_filter.mp inside).1
  exact ⟨idx, by omega, rfl⟩

def signTotal (rows : List Relation) : Nat := rows.countP (·.sign != 1)

def val2Total (rows : List Relation) : Nat :=
  (rows.map (·.val2Exp.toNat)).sum

def allFactors (rows : List Relation) : List Factor :=
  rows.flatMap Relation.factors

def exponentTotal (factors : List Factor) (idx : Nat) : Nat :=
  (factors.map fun factor => if factor.1 = idx then factor.2.toNat else 0).sum

def primeAt (factorBase : List (BitVec 32)) (idx : Nat) : Nat :=
  (factorBase.getD idx 1).toNat

def largePrimeRoot (row : Relation) : Nat :=
  if 1 < row.largePrime then row.largePrime.toNat else 1

def ValidBatch (N : Nat) (factorBase : List (BitVec 32)) (batch : HostRelationBatch) : Prop :=
  ∀ idx < batch.numRelations, (batch.relation idx).Congruent N
    (primeAt factorBase) (largePrimeRoot (batch.relation idx) ^ 2)

instance (N : Nat) (factorBase : List (BitVec 32)) (batch : HostRelationBatch) :
    Decidable (ValidBatch N factorBase batch) :=
  Nat.decidableBallLT _ _

structure EvenSelection (factorBase : List (BitVec 32)) (rows : List Relation) :
    Prop where
  sign : Even (signTotal rows)
  val2 : Even (val2Total rows)
  exponent : ∀ idx < factorBase.length, Even (exponentTotal (allFactors rows) idx)

structure NarrowSelection (factorBase : List (BitVec 32))
    (rows : List Relation) : Prop where
  val2 : val2Total rows < 2 ^ 32
  exponent : ∀ idx < factorBase.length, exponentTotal (allFactors rows) idx < 2 ^ 32

/-! ## The counters -/

section Counters

variable (mont : Montgomery) (rows : List Relation) (totals : Totals)

theorem expMinus1_foldl : (rows.foldl (addRelation mont) totals).expMinus1 =
    totals.expMinus1 + BitVec.ofNat 64 (signTotal rows) := by
  induction rows generalizing totals with
  | nil => simp [signTotal]
  | cons row rows induction =>
    rw [List.foldl_cons, induction, signTotal, signTotal, List.countP_cons, addRelation]
    by_cases negative : (row.sign != 1) = true
    · simp only [negative, if_true, BitVec.ofNat_add]
      rw [BitVec.add_assoc]
      exact congrArg (totals.expMinus1 + ·) (BitVec.add_comm _ _)
    · simp only [negative, Bool.false_eq_true, if_false, Nat.add_zero]

theorem exp2_foldl : (rows.foldl (addRelation mont) totals).exp2.setWidth 32 =
      totals.exp2.setWidth 32 + BitVec.ofNat 32 (val2Total rows) := by
  induction rows generalizing totals with
  | nil => simp [val2Total]
  | cons row rows induction =>
    have narrow : (row.val2Exp.signExtend 64).setWidth 32 = row.val2Exp := by
      ext place inside
      have wide : place < 64 := by omega
      simp [BitVec.getElem_signExtend, inside, wide]
    rw [List.foldl_cons, induction, val2Total, val2Total, List.map_cons,
      List.sum_cons, BitVec.ofNat_add, BitVec.ofNat_toNat, BitVec.setWidth_eq,
      ← BitVec.add_assoc, addRelation, BitVec.setWidth_add _ _ (by decide),
      narrow]

theorem exponents_foldl : (rows.foldl (addRelation mont) totals).exponents =
    (allFactors rows).foldl addFactor totals.exponents := by
  rw [allFactors, List.foldl_flatMap]
  induction rows generalizing totals with
  | nil => rfl
  | cons row rows induction => exact induction _

end Counters

theorem length_foldl_addFactor (factors : List Factor) (exponents : List (BitVec 64)) :
    (factors.foldl addFactor exponents).length = exponents.length := by
  induction factors generalizing exponents with
  | nil => rfl
  | cons factor factors induction =>
    rw [List.foldl_cons, induction, addFactor, List.length_modify]

theorem getD_foldl_addFactor (factors : List Factor)
    (exponents : List (BitVec 64)) {idx : Nat} (inside : idx < exponents.length) :
    ((factors.foldl addFactor exponents).getD idx 0).setWidth 32 =
      (exponents.getD idx 0).setWidth 32 + BitVec.ofNat 32 (exponentTotal factors idx) := by
  induction factors generalizing exponents with
  | nil => simp [exponentTotal]
  | cons factor factors induction =>
    have stepInside : idx < (addFactor exponents factor).length := by
      rwa [addFactor, List.length_modify]
    have step : ((addFactor exponents factor).getD idx 0).setWidth 32 =
        (exponents.getD idx 0).setWidth 32 + BitVec.ofNat 32
          (if factor.1 = idx then factor.2.toNat else 0) := by
      rw [List.getD_eq_getElem _ _ stepInside, List.getD_eq_getElem _ _ inside]
      simp only [addFactor, List.getElem_modify]
      by_cases same : factor.1 = idx
      · rw [if_pos same, if_pos same, BitVec.setWidth_add _ _ (by decide),
          BitVec.setWidth_setWidth_of_le _ (by decide), BitVec.ofNat_toNat]
      · rw [if_neg same, if_neg same]
        simp
    rw [List.foldl_cons, induction _ stepInside, step, exponentTotal,
      exponentTotal, List.map_cons, List.sum_cons, BitVec.ofNat_add,
      BitVec.add_assoc]

theorem map_zip_eq {Left Right Value : Type} (left : List Left)
    (right : List Right) (leftDefault : Left) (rightDefault : Right)
    (value : Left × Right → Value) (size : right.length = left.length) :
    (left.zip right).map value = (List.range left.length).map fun idx =>
      value (left.getD idx leftDefault, right.getD idx rightDefault) := by
  apply List.ext_getElem
  · simp [size]
  · intro idx before after
    have inside : idx < left.length := by simpa using after
    rw [List.getElem_map, List.getElem_map, List.getElem_zip, List.getElem_range,
      List.getD_eq_getElem _ _ inside, List.getD_eq_getElem _ _ (size ▸ inside)]

/-! ## The products -/

private theorem prod_range_pow_single {M : Type} [CommMonoid M] (base : Nat → M)
    (idx exponent bound : Nat) :
    ((List.range bound).map fun place =>
        base place ^ if idx = place then exponent else 0).prod =
      if idx < bound then base idx ^ exponent else 1 := by
  induction bound with
  | zero => rfl
  | succ bound induction =>
    rw [List.range_succ, List.map_append, List.prod_append, induction,
      List.map_singleton, List.prod_singleton]
    by_cases last : idx = bound
    · subst last
      simp
    · by_cases inside : idx < bound
      · rw [if_pos inside, if_neg last, if_pos (by omega), pow_zero, mul_one]
      · rw [if_neg inside, if_neg last, if_neg (by omega), pow_zero, mul_one]

theorem factorProduct_eq (factorBase : List (BitVec 32)) (factors : List Factor) :
    Relation.factorProduct (primeAt factorBase) factors =
      ((List.range factorBase.length).map fun idx =>
        primeAt factorBase idx ^ exponentTotal factors idx).prod := by
  induction factors with
  | nil => simp [Relation.factorProduct, exponentTotal]
  | cons factor factors induction =>
    have single : primeAt factorBase factor.1 ^ factor.2.toNat =
        ((List.range factorBase.length).map fun idx => primeAt factorBase idx ^
          if factor.1 = idx then factor.2.toNat else 0).prod := by
      rw [prod_range_pow_single]
      by_cases inside : factor.1 < factorBase.length
      · rw [if_pos inside]
      · rw [if_neg inside, primeAt, List.getD_eq_default _ _ (not_lt.mp inside)]
        exact Nat.one_pow _
    have split (idx : Nat) : exponentTotal (factor :: factors) idx =
        (if factor.1 = idx then factor.2.toNat else 0) +
          exponentTotal factors idx := by
      rw [exponentTotal, List.map_cons, List.sum_cons, exponentTotal]
    rw [Relation.factorProduct] at induction ⊢
    rw [List.map_cons, List.prod_cons, induction, single, ← List.prod_map_mul]
    simp only [split, pow_add]

/-! ## What the loops compute -/

section Loops

variable {mont : Montgomery}

theorem computeX_cast (valid : mont.Valid) (mask : List (BitVec 8)) (batch : HostRelationBatch) :
    ((computeX mask batch mont).toNat : ZMod mont.N.toNat) =
      ((selectedRows mask batch).map fun row =>
        (row.sqrtQ.toNat : ZMod mont.N.toNat)).prod := by
  have multiplies (xMont : UInt512) (residue : ZMod mont.N.toNat)
      (row : Relation) (represents : mont.Represents xMont residue) :
      mont.Represents (mont.mul xMont (mont.transform row.sqrtQ))
        (residue * row.sqrtQ.toNat) :=
    represents.mul valid (valid.represents_transform row.sqrtQ)
  have product := valid.represents_one.foldl multiplies
    (selectedRows mask batch)
  rw [computeX, foldSelected_eq, product.reduce valid, one_mul]

theorem represents_multiplyPower (valid : mont.Valid) (yMont : UInt512)
    (residue : ZMod mont.N.toNat) (entry : BitVec 32 × BitVec 64)
    (represents : mont.Represents yMont residue) :
    mont.Represents (multiplyPower mont yMont entry)
      (residue * entry.1.toNat ^ ((entry.2.setWidth 32).toNat / 2)) := by
  rw [multiplyPower]
  split
  · next zero =>
      rw [zero]
      simpa using represents
  · have power := Montgomery.Represents.pow valid
      (UInt512.ofUInt32 entry.1) (halfExponent entry.2)
    rw [halfExponent, UInt512.toNat_ofUInt32, UInt512.toNat_ofUInt32, BitVec.toNat_udiv] at power
    exact represents.mul valid power

theorem represents_largePrimes (valid : mont.Valid) (rows : List Relation)
    (totals : Totals) {residue : ZMod mont.N.toNat}
    (represents : mont.Represents totals.largePrimesMont residue) :
    mont.Represents (rows.foldl (addRelation mont) totals).largePrimesMont
      (residue * (rows.map fun row =>
        (largePrimeRoot row : ZMod mont.N.toNat)).prod) := by
  induction rows generalizing totals residue with
  | nil => simpa using represents
  | cons row rows induction =>
    have step : mont.Represents (addRelation mont totals row).largePrimesMont
        (residue * largePrimeRoot row) := by
      simp only [addRelation, largePrimeRoot]
      split
      · have term := valid.represents_transform
          (UInt512.ofUInt128 row.largePrime)
        rw [UInt512.toNat_ofUInt128] at term
        exact represents.mul valid term
      · simpa using represents
    have rest := induction _ step
    rw [List.map_cons, List.prod_cons, ← mul_assoc]
    exact rest

private theorem negates_iff (total : Nat) :
    (BitVec.ofNat 64 total / 2 &&& 1 != 0) = true ↔ total / 2 % 2 = 1 := by
  have one : (1 : BitVec 64).toNat = 1 := rfl
  have two : (2 : BitVec 64).toNat = 2 := rfl
  have zero : (0 : BitVec 64).toNat = 0 := rfl
  have masked : (BitVec.ofNat 64 total / 2 &&& 1).toNat = total / 2 % 2 := by
    rw [BitVec.toNat_and, BitVec.toNat_udiv, BitVec.toNat_ofNat, one, two, Nat.and_one_is_mod]
    omega
  rw [bne_iff_ne, ne_eq, ← BitVec.toNat_inj, masked, zero]
  omega

theorem represents_signed (valid : mont.Valid) (total : Nat) : mont.Represents
      (if BitVec.ofNat 64 total / 2 &&& 1 != 0 then
        (mont.transform (UInt512.ofUInt32 1)).negateModInplace mont.N
      else mont.transform (UInt512.ofUInt32 1))
      ((-1) ^ (total / 2)) := by
  by_cases odd : total / 2 % 2 = 1
  · rw [if_pos ((negates_iff total).mpr odd), (Nat.odd_iff.mpr odd).neg_one_pow]
    exact valid.represents_one.negate
  · rw [if_neg (mt (negates_iff total).mp odd), (Nat.even_iff.mpr (by omega)).neg_one_pow]
    exact valid.represents_one

private theorem exponentPowers_eq (factorBase : List (BitVec 32)) (rows : List Relation)
    (totals : Totals)
    (initial : totals.exponents = List.replicate factorBase.length 0) :
    ((factorBase.zip (rows.foldl (addRelation mont) totals).exponents).map
        fun entry => (entry.1.toNat : ZMod mont.N.toNat) ^ ((entry.2.setWidth 32).toNat / 2)) =
      (List.range factorBase.length).map fun idx =>
        (primeAt factorBase idx : ZMod mont.N.toNat) ^
          (exponentTotal (allFactors rows) idx % 2 ^ 32 / 2) := by
  have size : ((allFactors rows).foldl addFactor totals.exponents).length =
      factorBase.length := by
    rw [length_foldl_addFactor, initial, List.length_replicate]
  rw [exponents_foldl, map_zip_eq _ _ 1 0 _ size]
  apply List.map_congr_left
  intro idx member
  have inside := List.mem_range.mp member
  have start : idx < totals.exponents.length := by
    rwa [initial, List.length_replicate]
  have fresh : (totals.exponents.getD idx 0).setWidth 32 = 0 := by
    rw [initial, List.getD_replicate _ inside]
    rfl
  rw [getD_foldl_addFactor _ _ start, fresh, zero_add, BitVec.toNat_ofNat, primeAt]

/-- The root that `ComputeY` builds, with its exponents cut to 32 bits. -/
theorem computeY_cast (valid : mont.Valid) (mask : List (BitVec 8))
    (batch : HostRelationBatch) (factorBase : List (BitVec 32)) :
    ((computeY mask batch factorBase mont).toNat : ZMod mont.N.toNat) =
      (-1) ^ (signTotal (selectedRows mask batch) / 2) *
        2 ^ (val2Total (selectedRows mask batch) % 2 ^ 32 / 2) *
        ((List.range factorBase.length).map fun idx =>
          (primeAt factorBase idx : ZMod mont.N.toNat) ^
            (exponentTotal (allFactors (selectedRows mask batch)) idx % 2 ^ 32 / 2)).prod *
        ((selectedRows mask batch).map fun row =>
          (largePrimeRoot row : ZMod mont.N.toNat)).prod := by
  let initial : Totals := ⟨List.replicate factorBase.length 0, 0, 0,
    mont.transform (UInt512.ofUInt32 1)⟩
  let rows := selectedRows mask batch
  let totals := rows.foldl (addRelation mont) initial
  have minus1 : totals.expMinus1 = BitVec.ofNat 64 (signTotal rows) := by
    rw [expMinus1_foldl]
    exact BitVec.zero_add _
  have two : totals.exp2.setWidth 32 = BitVec.ofNat 32 (val2Total rows) := by
    rw [exp2_foldl]
    exact BitVec.zero_add _
  have largePrimes := represents_largePrimes valid rows initial
    valid.represents_one
  have signed := represents_signed valid (signTotal rows)
  rw [← minus1] at signed
  have twos := represents_multiplyPower valid _ _ (2, totals.exp2) signed
  have roots := twos.foldl (represents_multiplyPower valid)
    (factorBase.zip totals.exponents)
  have product := (roots.mul valid largePrimes).reduce valid
  rw [computeY, foldSelected_eq]
  refine Eq.trans product ?_
  rw [one_mul, two, BitVec.toNat_ofNat, exponentPowers_eq _ _ _ rfl]
  norm_cast

end Loops

/-! ## The congruence of squares -/

variable {factorBase : List (BitVec 32)}

theorem prod_sqrtQ_sq_of_cofactors {N : Nat} {Item : Type} (rowOf : Item → Relation)
    (cofactor : Item → Nat) {items : List Item}
    (congruent : ∀ item ∈ items, (rowOf item).Congruent N (primeAt factorBase) (cofactor item)) :
    ((items.map fun item => ((rowOf item).sqrtQ.toNat : ZMod N)).prod) ^ 2 =
      (-1) ^ signTotal (items.map rowOf) * 2 ^ val2Total (items.map rowOf) *
        (Relation.factorProduct (primeAt factorBase) (allFactors (items.map rowOf)) : Nat) *
        (items.map fun item => (cofactor item : ZMod N)).prod := by
  induction items with
  | nil => simp [signTotal, val2Total, allFactors, Relation.factorProduct]
  | cons item items induction =>
    have rest := induction fun other member =>
      congruent other (List.mem_cons_of_mem _ member)
    have head := (ZMod.intCast_eq_intCast_iff _ _ _).mpr
      (congruent item List.mem_cons_self)
    have sign : ((Relation.signValue (rowOf item).sign : Int) : ZMod N) =
        (-1) ^ (if (rowOf item).sign != 1 then 1 else 0) := by
      rw [Relation.signValue]
      split <;> simp
    have factors : Relation.factorProduct (primeAt factorBase)
        (allFactors (rowOf item :: items.map rowOf)) =
          Relation.factorProduct (primeAt factorBase) (rowOf item).factors *
            Relation.factorProduct (primeAt factorBase) (allFactors (items.map rowOf)) := by
      simp [Relation.factorProduct, allFactors]
    push_cast at head
    rw [sign] at head
    rw [List.map_cons, List.prod_cons, mul_pow, rest, head, List.map_cons, factors, signTotal,
      signTotal, List.countP_cons, val2Total, val2Total, List.map_cons,
      List.sum_cons, List.map_cons, List.prod_cons, pow_add, pow_add,
      Nat.cast_mul]
    ring

theorem prod_sqrtQ_sq {N : Nat} {rows : List Relation}
    (congruent : ∀ row ∈ rows, row.Congruent N (primeAt factorBase) (largePrimeRoot row ^ 2)) :
    ((rows.map fun row => (row.sqrtQ.toNat : ZMod N)).prod) ^ 2 =
      (-1) ^ signTotal rows * 2 ^ val2Total rows *
        (Relation.factorProduct (primeAt factorBase) (allFactors rows) : Nat) *
        ((rows.map fun row => (largePrimeRoot row : ZMod N)).prod) ^ 2 := by
  have squares := prod_sqrtQ_sq_of_cofactors id (fun row => largePrimeRoot row ^ 2) congruent
  simp only [List.map_id, id_eq, Nat.cast_mul, sq, List.prod_map_mul] at squares ⊢
  exact squares

theorem pow_half_sq {M : Type} [Monoid M] (base : M) {exponent : Nat}
    (even : Even exponent) (narrow : exponent < 2 ^ 32) :
    (base ^ (exponent % 2 ^ 32 / 2)) ^ 2 = base ^ exponent := by
  rw [Nat.mod_eq_of_lt narrow, ← pow_mul, Nat.div_mul_cancel (even_iff_two_dvd.mp even)]

theorem exponentPowers_sq (N : Nat) {rows : List Relation} (even : EvenSelection factorBase rows)
    (narrow : NarrowSelection factorBase rows) :
    (((List.range factorBase.length).map fun idx =>
      (primeAt factorBase idx : ZMod N) ^
        (exponentTotal (allFactors rows) idx % 2 ^ 32 / 2)).prod) ^ 2 =
      (Relation.factorProduct (primeAt factorBase) (allFactors rows) : Nat) := by
  rw [factorProduct_eq, Nat.cast_list_prod, List.map_map, sq, ← List.prod_map_mul]
  congr 1
  apply List.map_congr_left
  intro idx member
  have inside := List.mem_range.mp member
  rw [← sq, pow_half_sq _ (even.exponent idx inside) (narrow.exponent idx inside)]
  simp

private theorem sq_modEq_of_valid {mont : Montgomery} (context : mont.Valid)
    {mask : List (BitVec 8)}
    {batch : HostRelationBatch} (valid : ValidBatch mont.N.toNat factorBase batch)
    (even : EvenSelection factorBase (selectedRows mask batch))
    (narrow : NarrowSelection factorBase (selectedRows mask batch)) :
    (computeX mask batch mont).toNat ^ 2 ≡
      (computeY mask batch factorBase mont).toNat ^ 2 [MOD mont.N.toNat] := by
  have congruent : ∀ row ∈ selectedRows mask batch, row.Congruent mont.N.toNat
      (primeAt factorBase) (largePrimeRoot row ^ 2) := by
    intro row member
    rcases relation_of_mem_selectedRows member with ⟨idx, inside, rfl⟩
    exact valid idx inside
  apply (ZMod.natCast_eq_natCast_iff _ _ _).mp
  rw [Nat.cast_pow, Nat.cast_pow, computeX_cast context, computeY_cast context,
    prod_sqrtQ_sq congruent, mul_pow, mul_pow, mul_pow,
    exponentPowers_sq _ even narrow, pow_half_sq _ even.val2 narrow.val2,
    ← pow_mul, Nat.mul_comm, pow_mul, neg_one_sq, one_pow,
    even.sign.neg_one_pow]

/-- Selected relations with even exponents yield a congruence of squares. -/
theorem computeX_sq_modEq_computeY_sq {N : UInt512} (odd : N.toNat % 2 = 1)
    {mask : List (BitVec 8)} {batch : HostRelationBatch}
    {factorBase : List (BitVec 32)}
    (valid : ValidBatch N.toNat factorBase batch)
    (even : EvenSelection factorBase (selectedRows mask batch))
    (narrow : NarrowSelection factorBase (selectedRows mask batch)) :
    (computeX mask batch (Montgomery.ofModulus N)).toNat ^ 2 ≡
      (computeY mask batch factorBase (Montgomery.ofModulus N)).toNat ^ 2 [MOD N.toNat] :=
  sq_modEq_of_valid (Montgomery.ofModulus_valid odd) valid even narrow

def combinedBatch : HostRelationBatch :=
  HostRelationBatch.empty.push
    ⟨UInt512.ofUInt32 15, 1, 0, 5, 0, [(1, 2)]⟩

def mixedBatch : HostRelationBatch :=
  ((HostRelationBatch.empty.push ⟨UInt512.ofUInt32 15, 0, 1, 0, 0, [(1, 1)]⟩).push
    ⟨UInt512.ofUInt32 15, 1, 0, 5, 0, [(1, 2)]⟩).push
    ⟨UInt512.ofUInt32 62, 0, 1, 0, 0, [(1, 1)]⟩

/-- All relations, and the negative ones alone. -/
theorem computeX_sq_modEq_computeY_sq_combined :
    ((computeX [1, 1, 1] mixedBatch (Montgomery.ofModulus (UInt512.ofUInt32 77))).toNat ^ 2 ≡
      (computeY [1, 1, 1] mixedBatch [2, 3]
        (Montgomery.ofModulus (UInt512.ofUInt32 77))).toNat ^ 2
        [MOD (UInt512.ofUInt32 77).toNat]) ∧
    ((computeX [1, 0, 1] mixedBatch (Montgomery.ofModulus (UInt512.ofUInt32 77))).toNat ^ 2 ≡
      (computeY [1, 0, 1] mixedBatch [2, 3]
        (Montgomery.ofModulus (UInt512.ofUInt32 77))).toNat ^ 2
        [MOD (UInt512.ofUInt32 77).toNat]) := by
  have valid : ValidBatch (UInt512.ofUInt32 77).toNat [2, 3] mixedBatch := by decide
  constructor
  · exact computeX_sq_modEq_computeY_sq (by decide) valid ⟨by decide, by decide, by decide⟩
      ⟨by decide, by decide⟩
  · exact computeX_sq_modEq_computeY_sq (by decide) valid ⟨by decide, by decide, by decide⟩
      ⟨by decide, by decide⟩

def largePrimeBatch : HostRelationBatch :=
  HostRelationBatch.empty.push ⟨UInt512.ofUInt32 5, 1, 0, 5, 0, []⟩

def wideBatch : HostRelationBatch :=
  ((HostRelationBatch.empty.push ⟨UInt512.ofUInt32 1, 1, 0x7FFFFFFE, 0, 0, []⟩).push
    ⟨UInt512.ofUInt32 1, 1, 0x7FFFFFFE, 0, 0, []⟩).push
    ⟨UInt512.ofUInt32 3, 1, 4, 0, 0, []⟩

private theorem ofModulus_fourteen : Montgomery.ofModulus (UInt512.ofUInt32 14) =
    ⟨UInt512.ofUInt32 14, UInt512.ofUInt32 2, Montgomery.negInverse 14⟩ := by
  have modulus : (UInt512.ofUInt32 14).toNat = 14 := UInt512.toNat_ofUInt32 14
  have radix : UInt512.cardinality % 14 = 4 := by
    have split : 2 ^ (256 + 256) = UInt512.cardinality :=
      UInt512.two_pow_eq_cardinality rfl
    rw [← split, Nat.pow_add, Nat.mul_mod]
  have nonzero : (UInt512.ofUInt32 14).toNat ≠ 0 := by
    rw [modulus]
    decide
  have square := Montgomery.ofModulus_R2 nonzero
  rw [modulus, Nat.mul_mod, radix] at square
  have equal : (Montgomery.ofModulus (UInt512.ofUInt32 14)).R2 =
      UInt512.ofUInt32 2 :=
    UInt512.toNat_injective (square.trans (UInt512.toNat_ofUInt32 2).symm)
  have prime : (Montgomery.ofModulus (UInt512.ofUInt32 14)).nPrime =
      Montgomery.negInverse 14 := congrArg Montgomery.negInverse rfl
  cases context : Montgomery.ofModulus (UInt512.ofUInt32 14) with
  | mk N R2 nPrime =>
    have sameN : (Montgomery.ofModulus (UInt512.ofUInt32 14)).N =
        UInt512.ofUInt32 14 := rfl
    rw [context] at equal prime sameN
    subst equal prime sameN
    rfl

theorem not_modEq_of_even_modulus : ¬ (computeX [1] largePrimeBatch
        (Montgomery.ofModulus (UInt512.ofUInt32 14))).toNat ^ 2 ≡
      (computeY [1] largePrimeBatch [] (Montgomery.ofModulus (UInt512.ofUInt32 14))).toNat ^ 2
        [MOD (UInt512.ofUInt32 14).toNat] := by
  rw [ofModulus_fourteen]
  decide +kernel

private theorem congruent_seven {sqrtQ val2Exp : BitVec 32} (period rest : Nat)
    (exponent : val2Exp.toNat = 3 * period + rest)
    (equal : ((sqrtQ.toNat : Nat) : ZMod 7) ^ 2 = 2 ^ rest) :
    (⟨UInt512.ofUInt32 sqrtQ, 1, val2Exp, 0, 0, []⟩ : Relation).Congruent 7 (primeAt []) 1 := by
  have cycle : (2 : ZMod 7) ^ 3 = 1 := by decide
  apply (ZMod.intCast_eq_intCast_iff _ _ 7).mp
  have sign : Relation.signValue 1 = 1 := rfl
  have factors : Relation.factorProduct (primeAt []) [] = 1 := rfl
  simp only [sign, factors, exponent, UInt512.toNat_ofUInt32]
  push_cast
  rw [pow_add, pow_mul, cycle, one_pow, equal]
  ring

theorem validBatch_wide : ValidBatch (UInt512.ofUInt32 7).toNat [] wideBatch := by
  rw [UInt512.toNat_ofUInt32]
  intro idx inside
  have bound : idx < 3 := inside
  have relations : ∀ place < 3, wideBatch.relation place = [
      ⟨UInt512.ofUInt32 1, 1, 0x7FFFFFFE, 0, 0, []⟩,
      ⟨UInt512.ofUInt32 1, 1, 0x7FFFFFFE, 0, 0, []⟩,
      ⟨UInt512.ofUInt32 3, 1, 4, 0, 0, []⟩].getD place
        ⟨UInt512.ofUInt32 1, 1, 0, 0, 0, []⟩ := by
    decide
  rw [relations idx bound]
  match idx with
  | 0 => exact congruent_seven 715827882 0 rfl rfl
  | 1 => exact congruent_seven 715827882 0 rfl rfl
  | 2 => exact congruent_seven 1 1 rfl (by decide)

theorem not_modEq_of_wide_exponents : ¬ (computeX [1, 1, 1] wideBatch
        (Montgomery.ofModulus (UInt512.ofUInt32 7))).toNat ^ 2 ≡
      (computeY [1, 1, 1] wideBatch [] (Montgomery.ofModulus (UInt512.ofUInt32 7))).toNat ^ 2
        [MOD (UInt512.ofUInt32 7).toNat] := by
  have valid := Montgomery.ofModulus_valid
    (show (UInt512.ofUInt32 7).toNat % 2 = 1 by decide)
  have left := computeX_cast valid [1, 1, 1] wideBatch
  have right := computeY_cast valid [1, 1, 1] wideBatch []
  have rows : selectedRows [1, 1, 1] wideBatch = [ ⟨UInt512.ofUInt32 1, 1, 0x7FFFFFFE, 0, 0, []⟩,
      ⟨UInt512.ofUInt32 1, 1, 0x7FFFFFFE, 0, 0, []⟩,
      ⟨UInt512.ofUInt32 3, 1, 4, 0, 0, []⟩] := by
    decide
  have total : val2Total (selectedRows [1, 1, 1] wideBatch) % 2 ^ 32 / 2 = 0 := by
    decide
  have signs : signTotal (selectedRows [1, 1, 1] wideBatch) / 2 = 0 := by
    decide
  rw [rows] at left
  rw [total, signs, rows] at right
  have three : (computeX [1, 1, 1] wideBatch (Montgomery.ofModulus (UInt512.ofUInt32 7))).toNat ≡ 3
        [MOD (Montgomery.ofModulus (UInt512.ofUInt32 7)).N.toNat] := by
    apply (ZMod.natCast_eq_natCast_iff _ _ _).mp
    refine left.trans ?_
    simp
  have one : (computeY [1, 1, 1] wideBatch [] (Montgomery.ofModulus (UInt512.ofUInt32 7))).toNat ≡ 1
        [MOD (Montgomery.ofModulus (UInt512.ofUInt32 7)).N.toNat] := by
    apply (ZMod.natCast_eq_natCast_iff _ _ _).mp
    refine right.trans ?_
    simp [largePrimeRoot]
  intro congruent
  have squares := ((three.pow 2).symm.trans congruent).trans (one.pow 2)
  have seven : (Montgomery.ofModulus (UInt512.ofUInt32 7)).N.toNat = 7 :=
    UInt512.toNat_ofUInt32 7
  rw [seven] at squares
  exact absurd squares (by decide)

/-- An even modulus breaks the law, and so do exponents past 32 bits. -/
theorem square_congruence_fails :
    (¬ ∀ (N : UInt512) (mask : List (BitVec 8)) (batch : HostRelationBatch)
      (factorBase : List (BitVec 32)), 1 < N.toNat →
      ValidBatch N.toNat factorBase batch →
      EvenSelection factorBase (selectedRows mask batch) →
      (computeX mask batch (Montgomery.ofModulus N)).toNat ^ 2 ≡
        (computeY mask batch factorBase (Montgomery.ofModulus N)).toNat ^ 2 [MOD N.toNat]) ∧
    ¬ ∀ (N : UInt512) (mask : List (BitVec 8)) (batch : HostRelationBatch)
      (factorBase : List (BitVec 32)), 1 < N.toNat → N.toNat % 2 = 1 →
      ValidBatch N.toNat factorBase batch →
      EvenSelection factorBase (selectedRows mask batch) →
      (computeX mask batch (Montgomery.ofModulus N)).toNat ^ 2 ≡
        (computeY mask batch factorBase (Montgomery.ofModulus N)).toNat ^ 2 [MOD N.toNat] := by
  constructor
  · intro law
    exact not_modEq_of_even_modulus (law (UInt512.ofUInt32 14) [1]
      largePrimeBatch [] (by decide) (by decide)
      ⟨by decide, by decide, by decide⟩)
  · intro law
    exact not_modEq_of_wide_exponents (law (UInt512.ofUInt32 7) [1, 1, 1]
      wideBatch [] (by decide) (by decide) validBatch_wide
      ⟨by decide, by decide, by decide⟩)

end CudaMpqs.SquareRoot
