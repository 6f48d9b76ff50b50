import Mathlib.Data.ZMod.Basic
import CudaMpqs.Foundation.ResidueWalk
import CudaMpqs.Foundation.SignedInt

/-! # Modular helpers of `kernel.cuh`

Residues modulo a factor-base prime are `uint32_t` values below it; the source
asks for a prime of at most `2 ^ 31`. The positions of the gather kernel are `int`. -/

namespace CudaMpqs

open ResidueWalk SignedInt

def modAdd (a b modulus : BitVec 32) : BitVec 32 :=
  let tmp := a + b
  let reduced := tmp - modulus
  if reduced < tmp then reduced else tmp

def modSub (a b modulus : BitVec 32) : BitVec 32 :=
  if b ≤ a then a - b else modulus - (b - a)

def modSum (a b modulus : BitVec 32) : BitVec 32 :=
  let tmp := a.setWidth 64 + b.signExtend 64
  let tmp := if tmp.slt 0 then tmp + modulus.setWidth 64 else tmp
  let tmp := if (modulus.setWidth 64).sle tmp then tmp - modulus.setWidth 64 else tmp
  tmp.setWidth 32

/-- `((start % (int)p) + (int)p) % (int)p` in `int` arithmetic; `none` is an
overflow of the signed sum, which has no defined result. -/
def reduceStart (start p : BitVec 32) : Option (BitVec 32) :=
  let remainder := start.srem p
  if BitVec.saddOverflow remainder p then none
  else some ((remainder + p).srem p)

def modSubShifted (a b modulus : Nat) : Nat := if b < a then a - b else a + modulus - b

def rootOffset (sieveIntervalStart : Int) (p root : BitVec 32) : Option Int := do
  let shifted ← int32 (sieveIntervalStart.tmod p.toNat + p.toNat)
  let reducedSieveStart := shifted.tmod p.toNat
  let difference ← int32
    (sieveIntervalStart - modSubShifted reducedSieveStart.toNat root.toNat p.toNat)
  int32 (difference + p.toNat)

def offsetRoot (offset p : Int) : Option (BitVec 32) := do
  let shifted ← int32 (offset.tmod p + p)
  return BitVec.ofInt 32 (shifted.tmod p)

structure Residue (p x : BitVec 32) (value : ZMod p.toNat) : Prop where
  lt : x.toNat < p.toNat
  cast : (x.toNat : ZMod p.toNat) = value

/-- `x` has the residue `value` and may be `p` itself. -/
structure Summand (p x : BitVec 32) (value : ZMod p.toNat) : Prop where
  le : x.toNat ≤ p.toNat
  cast : (x.toNat : ZMod p.toNat) = value

variable {p x y : BitVec 32} {left right : ZMod p.toNat}

theorem Residue.summand (residue : Residue p x left) : Summand p x left :=
  ⟨residue.lt.le, residue.cast⟩

theorem Residue.neg (residue : Residue p x left) : Summand p (p - x) (-left) := by
  have bound := residue.lt
  have difference : (p - x).toNat = p.toNat - x.toNat :=
    BitVec.toNat_sub_of_le bound.le
  constructor
  · omega
  · rw [difference, Nat.cast_sub bound.le, ZMod.natCast_self, residue.cast, zero_sub]

theorem Residue.unique (first : Residue p x left) (second : Residue p y left) : x = y := by
  have congruent := (ZMod.natCast_eq_natCast_iff' _ _ _).mp (first.cast.trans second.cast.symm)
  rw [Nat.mod_eq_of_lt first.lt, Nat.mod_eq_of_lt second.lt] at congruent
  exact BitVec.eq_of_toNat_eq congruent

theorem residue_zero (positive : 0 < p.toNat) : Residue p 0 0 := by
  constructor
  · simpa using positive
  · simp

theorem residue_mod {number : BitVec 32} (positive : 0 < p.toNat) {value : Nat}
    (equal : number.toNat = value % p.toNat) : Residue p number (value : ZMod p.toNat) := by
  constructor
  · rw [equal]
    exact Nat.mod_lt _ positive
  · rw [equal, ZMod.natCast_mod]

theorem residue_mul (positive : 0 < p.toNat) (x y : BitVec 32) :
    Residue p ((x.setWidth 64 * y.setWidth 64 % p.setWidth 64).setWidth 32)
      ((x.toNat : ZMod p.toNat) * y.toNat) := by
  have leftBound := x.isLt
  have rightBound := y.isLt
  have modulusBound := p.isLt
  have wide : x.toNat * y.toNat < 2 ^ 64 := by
    calc x.toNat * y.toNat < 2 ^ 32 * 2 ^ 32 := Nat.mul_lt_mul'' leftBound rightBound
      _ = 2 ^ 64 := by decide
  have remainder := Nat.mod_lt (x.toNat * y.toNat) positive
  rw [← Nat.cast_mul]
  apply residue_mod positive
  rw [BitVec.toNat_setWidth, BitVec.toNat_umod, BitVec.toNat_mul,
    BitVec.toNat_setWidth, BitVec.toNat_setWidth, BitVec.toNat_setWidth,
    Nat.mod_eq_of_lt (by omega : x.toNat < 2 ^ 64),
    Nat.mod_eq_of_lt (by omega : y.toNat < 2 ^ 64),
    Nat.mod_eq_of_lt (by omega : p.toNat < 2 ^ 64), Nat.mod_eq_of_lt wide,
    Nat.mod_eq_of_lt (by omega)]

theorem Residue.modAdd (small : p.toNat ≤ 2 ^ 31) (residue : Residue p x left)
    (summand : Summand p y right) : Residue p (modAdd x y p) (left + right) := by
  have leftBound := residue.lt
  have rightBound := summand.le
  have total : (x + y).toNat = x.toNat + y.toNat :=
    BitVec.toNat_add_of_lt (by omega)
  have sum : ((x.toNat + y.toNat : Nat) : ZMod p.toNat) = left + right := by
    rw [Nat.cast_add, residue.cast, summand.cast]
  rcases Nat.lt_or_ge (x.toNat + y.toNat) p.toNat with below | above
  · have wraps : (x + y - p).toNat = 2 ^ 32 - p.toNat + (x.toNat + y.toNat) := by
      rw [BitVec.toNat_sub, total]
      omega
    have keeps : ¬ (x + y - p < x + y) := by
      rw [BitVec.lt_def, wraps, total]
      omega
    have value : CudaMpqs.modAdd x y p = x + y := if_neg keeps
    rw [value]
    exact ⟨by omega, by rw [total, sum]⟩
  · have reduced : (x + y - p).toNat = x.toNat + y.toNat - p.toNat := by
      rw [BitVec.toNat_sub_of_le (by rw [BitVec.le_def, total]; exact above), total]
    have takes : x + y - p < x + y := by
      rw [BitVec.lt_def, reduced, total]
      omega
    have value : CudaMpqs.modAdd x y p = x + y - p := if_pos takes
    rw [value]
    refine ⟨by omega, ?_⟩
    rw [reduced, Nat.cast_sub above, ZMod.natCast_self, sub_zero, sum]

theorem Residue.modSub (leftResidue : Residue p x left) (rightResidue : Residue p y right) :
    Residue p (modSub x y p) (left - right) := by
  have leftBound := leftResidue.lt
  have rightBound := rightResidue.lt
  rcases Nat.lt_or_ge x.toNat y.toNat with below | above
  · have inner : (y - x).toNat = y.toNat - x.toNat :=
      BitVec.toNat_sub_of_le below.le
    have difference : (p - (y - x)).toNat = p.toNat - (y.toNat - x.toNat) := by
      rw [BitVec.toNat_sub_of_le (by rw [BitVec.le_def, inner]; omega), inner]
    have value : CudaMpqs.modSub x y p = p - (y - x) :=
      if_neg (by rw [BitVec.le_def]; omega)
    rw [value]
    refine ⟨by omega, ?_⟩
    rw [difference, Nat.cast_sub (by omega), Nat.cast_sub below.le, ZMod.natCast_self,
      leftResidue.cast, rightResidue.cast, zero_sub, neg_sub]
  · have value : CudaMpqs.modSub x y p = x - y := if_pos above
    have difference : (x - y).toNat = x.toNat - y.toNat :=
      BitVec.toNat_sub_of_le above
    rw [value]
    refine ⟨by omega, ?_⟩
    rw [difference, Nat.cast_sub above, leftResidue.cast, rightResidue.cast]

theorem toInt_raise (tmp modulus : BitVec 64) (low : -2 ^ 32 ≤ tmp.toInt)
    (high : tmp.toInt < 2 ^ 33) (modulusLow : 0 ≤ modulus.toInt)
    (modulusHigh : modulus.toInt < 2 ^ 32) :
    (if tmp.slt 0 then tmp + modulus else tmp).toInt =
      if tmp.toInt < 0 then tmp.toInt + modulus.toInt else tmp.toInt := by
  have zero : (0 : BitVec 64).toInt = 0 := rfl
  rw [BitVec.slt_eq_decide, zero]
  by_cases negative : tmp.toInt < 0
  · rw [if_pos (decide_eq_true negative), if_pos negative, BitVec.toInt_add]
    exact Int.bmod_eq_of_le (by omega) (by omega)
  · rw [if_neg (by simpa using negative), if_neg negative]

theorem toInt_lower (tmp modulus : BitVec 64) (low : 0 ≤ tmp.toInt)
    (high : tmp.toInt < 2 ^ 33) (modulusLow : 0 ≤ modulus.toInt) :
    (if modulus.sle tmp then tmp - modulus else tmp).toInt =
      if modulus.toInt ≤ tmp.toInt then tmp.toInt - modulus.toInt else tmp.toInt := by
  rw [BitVec.sle_eq_decide]
  by_cases above : modulus.toInt ≤ tmp.toInt
  · rw [if_pos (decide_eq_true above), if_pos above, BitVec.toInt_sub]
    exact Int.bmod_eq_of_le (by omega) (by omega)
  · rw [if_neg (by simpa using above), if_neg above]

private theorem toNat_setWidth_of_toInt {tmp : BitVec 64} {value : Int}
    (equal : tmp.toInt = value) (low : 0 ≤ value) (high : value < 2 ^ 32) :
    ((tmp.setWidth 32).toNat : Int) = value := by
  have bound := tmp.isLt
  have unsigned := BitVec.toInt_eq_toNat_cond tmp
  rw [BitVec.toNat_setWidth]
  split at unsigned <;> omega

theorem Residue.modSum (residue : Residue p x left)
    {delta : BitVec 32} (bound : delta.toInt.natAbs < p.toNat) :
    Residue p (modSum x delta p) (left + (delta.toInt : ZMod p.toNat)) := by
  have leftBound := residue.lt
  have modulusBound := p.isLt
  have narrow : (x.setWidth 64).toInt = x.toNat := by
    rw [BitVec.toInt_eq_toNat_of_lt] <;> rw [BitVec.toNat_setWidth] <;> omega
  have modulus : (p.setWidth 64).toInt = p.toNat := by
    rw [BitVec.toInt_eq_toNat_of_lt] <;> rw [BitVec.toNat_setWidth] <;> omega
  have first : (x.setWidth 64 + delta.signExtend 64).toInt = x.toNat + delta.toInt := by
    rw [BitVec.toInt_add, narrow, BitVec.toInt_signExtend_of_le (by decide),
      Int.bmod_eq_of_le] <;> omega
  have second := toInt_raise (x.setWidth 64 + delta.signExtend 64) (p.setWidth 64)
    (by omega) (by omega) (by omega) (by omega)
  rw [first, modulus] at second
  have third := toInt_lower
    (if (x.setWidth 64 + delta.signExtend 64).slt 0 then
      x.setWidth 64 + delta.signExtend 64 + p.setWidth 64
      else x.setWidth 64 + delta.signExtend 64) (p.setWidth 64)
    (by rw [second]; split <;> omega) (by rw [second]; split <;> omega) (by omega)
  rw [second, modulus] at third
  have value := toNat_setWidth_of_toInt third (by split <;> split <;> omega)
    (by split <;> split <;> omega)
  have sum : ((x.toNat + delta.toInt : Int) : ZMod p.toNat) =
      left + (delta.toInt : ZMod p.toNat) := by
    rw [Int.cast_add, Int.cast_natCast, residue.cast]
  constructor
  · have bounded : ((CudaMpqs.modSum x delta p).toNat : Int) < p.toNat := by
      rw [CudaMpqs.modSum, value]
      split <;> split <;> omega
    exact_mod_cast bounded
  · rw [← Int.cast_natCast, CudaMpqs.modSum, value, ← sum]
    split <;> split <;> simp

def StartFits (start p : BitVec 32) : Prop :=
  start.toInt.tmod p.toNat + p.toNat < 2 ^ 31

instance (start p : BitVec 32) : Decidable (StartFits start p) := by
  unfold StartFits
  infer_instance

theorem toInt_of_small (small : p.toNat < 2 ^ 31) : p.toInt = p.toNat :=
  BitVec.toInt_eq_toNat_of_lt (by omega)

theorem saddOverflow_srem_iff (small : p.toNat < 2 ^ 31) (positive : 0 < p.toNat)
    (start : BitVec 32) :
    BitVec.saddOverflow (start.srem p) p = false ↔ StartFits start p := by
  have low := Int.lt_tmod_of_pos start.toInt (Int.natCast_pos.mpr positive)
  rw [BitVec.saddOverflow, BitVec.toInt_srem, toInt_of_small small, StartFits]
  simp
  omega

private theorem cast_tmod (number : Int) :
    ((number.tmod p.toNat : Int) : ZMod p.toNat) = (number : ZMod p.toNat) := by
  have division := Int.tmod_add_mul_tdiv number p.toNat
  have cast := congrArg (Int.cast (R := ZMod p.toNat)) division
  rw [Int.cast_add, Int.cast_mul, Int.cast_natCast, ZMod.natCast_self, zero_mul, add_zero] at cast
  exact cast

theorem reduceStart_spec (small : p.toNat < 2 ^ 31) (positive : 0 < p.toNat)
    {start : BitVec 32} (fits : StartFits start p) :
    ∃ reduced, reduceStart start p = some reduced ∧
      Residue p reduced (start.toInt : ZMod p.toNat) := by
  have low := Int.lt_tmod_of_pos start.toInt (Int.natCast_pos.mpr positive)
  have modulus := toInt_of_small small
  have noOverflow := (saddOverflow_srem_iff small positive start).mpr fits
  have sum : (start.srem p + p).toInt = start.toInt.tmod p.toNat + p.toNat := by
    rw [BitVec.toInt_add_of_not_saddOverflow (by simpa using noOverflow),
      BitVec.toInt_srem, modulus]
  have remainder : ((start.srem p + p).srem p).toInt =
      (start.toInt.tmod p.toNat + p.toNat).tmod p.toNat := by
    rw [BitVec.toInt_srem, sum, modulus]
  have nonnegative : 0 ≤ start.toInt.tmod p.toNat + p.toNat := by omega
  have below := Int.tmod_lt_of_pos (start.toInt.tmod p.toNat + p.toNat)
    (Int.natCast_pos.mpr positive)
  have above := Int.tmod_nonneg (p.toNat : Int) nonnegative
  have unsigned : (((start.srem p + p).srem p).toNat : Int) =
      (start.toInt.tmod p.toNat + p.toNat).tmod p.toNat := by
    have cases := BitVec.toInt_eq_toNat_cond ((start.srem p + p).srem p)
    have bound := ((start.srem p + p).srem p).isLt
    split at cases <;> omega
  refine ⟨(start.srem p + p).srem p, ?_, ?_, ?_⟩
  · simp only [reduceStart, noOverflow, Bool.false_eq_true, if_false]
  · omega
  · rw [← Int.cast_natCast, unsigned, cast_tmod, Int.cast_add, cast_tmod,
      Int.cast_natCast, ZMod.natCast_self, add_zero]

theorem reduceStart_eq_none (small : p.toNat < 2 ^ 31) (positive : 0 < p.toNat)
    {start : BitVec 32} (overflows : ¬ StartFits start p) :
    reduceStart start p = none := by
  have overflow : BitVec.saddOverflow (start.srem p) p = true := by
    cases flag : BitVec.saddOverflow (start.srem p) p with
    | false => exact absurd ((saddOverflow_srem_iff small positive start).mp flag) overflows
    | true => rfl
  simp only [reduceStart, overflow, if_true]

/-! ## Offsets -/

structure OffsetFits (sieveIntervalStart : Int) (p root : BitVec 32) : Prop where
  shifted : InInt (sieveIntervalStart.tmod p.toNat + p.toNat)
  difference : InInt (sieveIntervalStart - modSubShifted
    ((sieveIntervalStart.tmod p.toNat + p.toNat).tmod p.toNat).toNat root.toNat p.toNat)
  sum : InInt (sieveIntervalStart - modSubShifted
    ((sieveIntervalStart.tmod p.toNat + p.toNat).tmod p.toNat).toNat root.toNat p.toNat + p.toNat)

theorem reduce_spec {p : Int} (positive : 0 < p) (x : Int) :
    0 ≤ (x.tmod p + p).tmod p ∧ (x.tmod p + p).tmod p < p ∧ p ∣ x - (x.tmod p + p).tmod p := by
  have low := Int.lt_tmod_of_pos x positive
  rw [Int.tmod_eq_emod_of_nonneg (by omega)]
  have truncated := Int.tmod_add_mul_tdiv x p
  have division := Int.emod_add_mul_ediv (x.tmod p + p) p
  refine ⟨Int.emod_nonneg _ positive.ne', Int.emod_lt_of_pos _ positive,
    x.tdiv p + (x.tmod p + p) / p - 1, ?_⟩
  linear_combination -truncated - division

private theorem modSubShifted_spec {reduced root modulus : Nat} (below : root < modulus)
    (reducedBelow : reduced < modulus) :
    0 < modSubShifted reduced root modulus ∧ modSubShifted reduced root modulus ≤ modulus := by
  rw [modSubShifted]
  split <;> omega

/-- Away from the ends of the range, and for a prime of at most `2 ^ 30`. -/
theorem offsetFits_of_bounds {sieveIntervalStart : Int} {root : BitVec 32}
    (below : root.toNat < p.toNat) (small : p.toNat ≤ 2 ^ 30)
    (low : -2 ^ 31 ≤ sieveIntervalStart - p.toNat)
    (high : sieveIntervalStart + p.toNat ≤ 2 ^ 31) : OffsetFits sieveIntervalStart p root := by
  have positive : (0 : Int) < p.toNat := by omega
  have remainderLow := Int.lt_tmod_of_pos sieveIntervalStart positive
  have remainderHigh := Int.tmod_lt_of_pos sieveIntervalStart positive
  rcases reduce_spec positive sieveIntervalStart with ⟨reducedLow, reducedHigh, -⟩
  have distance := @modSubShifted_spec
    ((sieveIntervalStart.tmod p.toNat + p.toNat).tmod p.toNat).toNat _ _ below (by omega)
  constructor
  · exact ⟨by omega, by omega⟩
  · exact ⟨by omega, by omega⟩
  · exact ⟨by omega, by omega⟩

theorem isSome_rootOffset_iff (sieveIntervalStart : Int) (p root : BitVec 32) :
    (rootOffset sieveIntervalStart p root).isSome ↔ OffsetFits sieveIntervalStart p root := by
  constructor
  · intro defined
    rcases Option.isSome_iff_exists.mp defined with ⟨offset, run⟩
    rcases Option.bind_eq_some_iff.mp run with ⟨shifted, isShifted, rest⟩
    rcases Option.bind_eq_some_iff.mp rest with ⟨difference, isDifference, isSum⟩
    rcases int32_eq_some_iff.mp isShifted with ⟨shiftedIn, rfl⟩
    rcases int32_eq_some_iff.mp isDifference with ⟨differenceIn, rfl⟩
    exact ⟨shiftedIn, differenceIn, (int32_eq_some_iff.mp isSum).1⟩
  · rintro ⟨shifted, difference, sum⟩
    simp only [rootOffset, int32_of_inInt shifted, Option.bind_eq_bind, Option.bind_some,
      int32_of_inInt difference, int32_of_inInt sum, Option.isSome_some]

/-- Where it is defined, the offset is the first position of the root from the start on. -/
theorem rootOffset_next {sieveIntervalStart offset : Int} {root : BitVec 32}
    (below : root.toNat < p.toNat) (defined : rootOffset sieveIntervalStart p root = some offset) :
    Next p.toNat root.toNat sieveIntervalStart offset := by
  rcases reduce_spec (by omega : (0 : Int) < p.toNat) sieveIntervalStart with
    ⟨low, high, turn, split⟩
  rcases Option.bind_eq_some_iff.mp defined with ⟨_, isShifted, rest⟩
  rcases Option.bind_eq_some_iff.mp rest with ⟨_, isDifference, isSum⟩
  obtain rfl := (int32_eq_some_iff.mp isShifted).2
  obtain rfl := (int32_eq_some_iff.mp isDifference).2
  obtain rfl := (int32_eq_some_iff.mp isSum).2
  rw [modSubShifted]
  generalize (sieveIntervalStart.tmod p.toNat + p.toNat).tmod p.toNat = reduced
    at low high split ⊢
  by_cases right : root.toNat < reduced.toNat
  · rw [if_pos right]
    refine ⟨by omega, by omega, turn + 1, ?_⟩
    rw [Nat.cast_sub right.le, Int.toNat_of_nonneg low]
    linear_combination split
  · rw [if_neg right]
    refine ⟨by omega, by omega, turn, ?_⟩
    rw [Nat.cast_sub (by omega), Nat.cast_add, Int.toNat_of_nonneg low]
    linear_combination split

/-- A carried offset gives its root back, or overflows. -/
theorem offsetRoot_eq {offset p : Int} {root : BitVec 32} (congruent : p ∣ offset - root.toNat)
    (below : (root.toNat : Int) < p) :
    offsetRoot offset p = if InInt (offset.tmod p + p) then some root else none := by
  rcases reduce_spec (by omega : 0 < p) offset with ⟨low, high, divides⟩
  have same : p ∣ (offset.tmod p + p).tmod p - root.toNat := by
    rw [← sub_sub_sub_cancel_left _ _ offset]
    exact dvd_sub congruent divides
  have equal := Int.eq_zero_of_abs_lt_dvd same (by rw [abs_lt]; omega)
  have residue : (offset.tmod p + p).tmod p = root.toNat := by omega
  rw [offsetRoot, int32]
  split
  · change some (BitVec.ofInt 32 ((offset.tmod p + p).tmod p)) = some root
    rw [residue, BitVec.ofInt_natCast, BitVec.ofNat_toNat, BitVec.setWidth_eq]
  · rfl

example : offsetRoot 5 2147483647 = none := by decide

end CudaMpqs
