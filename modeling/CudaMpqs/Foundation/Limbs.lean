import Mathlib.Data.Nat.ModEq
import Mathlib.Data.List.Basic
import Mathlib.Tactic.Ring
import Mathlib.Tactic.LinearCombination

/-! # Little-endian limb lists

Multi-precision numbers as lists of machine words, least significant first,
and the two loop shapes every limb algorithm is made of: an ascending loop that
threads a carry and a descending loop that threads a remainder. -/

namespace CudaMpqs.Limbs

def value {w : Nat} : List (BitVec w) → Nat
  | [] => 0
  | low :: high => low.toNat + 2 ^ w * value high

variable {w : Nat}

@[simp] theorem value_nil : value ([] : List (BitVec w)) = 0 := rfl

@[simp] theorem value_cons (low : BitVec w) (high : List (BitVec w)) :
    value (low :: high) = low.toNat + 2 ^ w * value high := rfl

theorem value_append (low high : List (BitVec w)) :
    value (low ++ high) = value low + 2 ^ (w * low.length) * value high := by
  induction low with
  | nil => simp
  | cons head tail induction =>
    simp only [List.cons_append, value_cons, induction, List.length_cons,
      Nat.mul_add, Nat.mul_one, Nat.pow_add]
    ring

theorem value_replicate_zero (w length : Nat) : value (List.replicate length (0#w)) = 0 := by
  induction length with
  | zero => rfl
  | succ length induction => simp [List.replicate_succ, induction]

theorem value_lt {w : Nat} (limbs : List (BitVec w)) : value limbs < 2 ^ (w * limbs.length) := by
  induction limbs with
  | nil => simp
  | cons low high induction =>
    have lowBound := low.isLt
    rw [value_cons, List.length_cons, Nat.mul_add, Nat.mul_one, Nat.pow_add,
      Nat.mul_comm (2 ^ (w * high.length))]
    calc low.toNat + 2 ^ w * value high
        < 2 ^ w + 2 ^ w * value high := by omega
      _ = 2 ^ w * (value high + 1) := by ring
      _ ≤ 2 ^ w * 2 ^ (w * high.length) :=
          Nat.mul_le_mul_left _ induction

theorem value_take_add_drop (limbs : List (BitVec w)) {length : Nat}
    (inside : length ≤ limbs.length) :
    value limbs = value (limbs.take length) + 2 ^ (w * length) * value (limbs.drop length) := by
  have joined := value_append (limbs.take length) (limbs.drop length)
  rwa [List.take_append_drop, List.length_take_of_le inside] at joined

theorem value_take (limbs : List (BitVec w)) {length : Nat} (inside : length ≤ limbs.length) :
    value (limbs.take length) = value limbs % 2 ^ (w * length) := by
  have bound := value_lt (limbs.take length)
  rw [List.length_take_of_le inside] at bound
  rw [value_take_add_drop limbs inside, Nat.add_mul_mod_self_left, Nat.mod_eq_of_lt bound]

theorem value_drop (limbs : List (BitVec w)) {length : Nat} (inside : length ≤ limbs.length) :
    value (limbs.drop length) = value limbs / 2 ^ (w * length) := by
  have bound := value_lt (limbs.take length)
  rw [List.length_take_of_le inside] at bound
  rw [value_take_add_drop limbs inside,
    Nat.add_mul_div_left _ _ (Nat.two_pow_pos _), Nat.div_eq_of_lt bound,
    Nat.zero_add]

theorem value_injective : ∀ {left right : List (BitVec w)},
    left.length = right.length → value left = value right → left = right
  | [], [], _, _ => rfl
  | low :: high, low' :: high', lengths, equal => by
    have lowBound := low.isLt
    have lowBound' := low'.isLt
    simp only [value_cons] at equal
    have lowEqual : low.toNat = low'.toNat := by
      have residues := congrArg (· % 2 ^ w) equal
      simpa [Nat.add_mul_mod_self_left, Nat.mod_eq_of_lt lowBound,
        Nat.mod_eq_of_lt lowBound'] using residues
    have highEqual : value high = value high' := by
      rw [lowEqual] at equal
      exact Nat.eq_of_mul_eq_mul_left (Nat.two_pow_pos w) (by omega)
    rw [BitVec.eq_of_toNat_eq lowEqual, value_injective (by simpa using lengths) highEqual]

def ofNat (w : Nat) : Nat → Nat → List (BitVec w)
  | 0, _ => []
  | length + 1, number =>
    BitVec.ofNat w number :: ofNat w length (number / 2 ^ w)

@[simp] theorem ofNat_length (w length number : Nat) : (ofNat w length number).length = length := by
  induction length generalizing number with
  | zero => rfl
  | succ length induction => simp [ofNat, induction]

theorem value_ofNat (w length number : Nat) :
    value (ofNat w length number) = number % 2 ^ (w * length) := by
  induction length generalizing number with
  | zero => simp [ofNat, Nat.mod_one]
  | succ length induction =>
    rw [ofNat, value_cons, induction, BitVec.toNat_ofNat, Nat.mul_add,
      Nat.mul_one, Nat.add_comm (w * length), Nat.pow_add, Nat.mod_mul]

theorem value_eq_zero_iff (limbs : List (BitVec w)) :
    value limbs = 0 ↔ ∀ limb ∈ limbs, limb = 0 := by
  induction limbs with
  | nil => simp
  | cons low high induction =>
    have powerPositive := Nat.two_pow_pos w
    rw [value_cons, Nat.add_eq_zero_iff, Nat.mul_eq_zero, induction]
    constructor
    · rintro ⟨lowZero, powerZero | highZero⟩
      · omega
      · intro limb member
        rcases List.mem_cons.mp member with rfl | member
        · exact BitVec.eq_of_toNat_eq (by simpa using lowZero)
        · exact highZero limb member
    · intro allZero
      exact ⟨by simp [allZero low (by simp)],
        .inr fun limb member => allZero limb (List.mem_cons_of_mem _ member)⟩

theorem toNat_getD : ∀ (limbs : List (BitVec w)) (index : Nat),
    (limbs.getD index 0).toNat = value limbs / 2 ^ (w * index) % 2 ^ w
  | [], index => by simp
  | low :: high, 0 => by
    simp [Nat.add_mul_mod_self_left, Nat.mod_eq_of_lt low.isLt]
  | low :: high, index + 1 => by
    rw [List.getD_cons_succ, toNat_getD high index, value_cons, Nat.mul_add,
      Nat.mul_one, Nat.add_comm (w * index), Nat.pow_add,
      ← Nat.div_div_eq_div_mul, Nat.add_mul_div_left _ _ (Nat.two_pow_pos w),
      Nat.div_eq_of_lt low.isLt, Nat.zero_add]

/-- Bit `index` of a number is bit `index % w` of its word `index / w`. -/
theorem value_testBit (positive : 0 < w) : ∀ (limbs : List (BitVec w)) (index : Nat),
      (value limbs).testBit index = ((limbs.getD (index / w) 0).toNat).testBit (index % w)
  | [], index => by simp
  | low :: high, index => by
    rw [value_cons, Nat.add_comm, Nat.testBit_two_pow_mul_add _ low.isLt]
    by_cases inLow : index < w
    · simp [inLow, Nat.div_eq_of_lt inLow, Nat.mod_eq_of_lt inLow]
    · have quotient : index / w = (index - w) / w + 1 := by
        rw [← Nat.add_div_right _ positive, Nat.sub_add_cancel (by omega)]
      have remainder : index % w = (index - w) % w := by
        rw [← Nat.add_mod_right (index - w), Nat.sub_add_cancel (by omega)]
      rw [if_neg inLow, value_testBit positive high (index - w), quotient,
        remainder, List.getD_cons_succ]

theorem value_set (limb : BitVec w) :
    ∀ (limbs : List (BitVec w)) (index : Nat), index < limbs.length → value (limbs.set index limb) +
          2 ^ (w * index) * (limbs.getD index 0).toNat =
        value limbs + 2 ^ (w * index) * limb.toNat
  | low :: high, 0, _ => by simp; omega
  | low :: high, index + 1, inside => by
    have tail := value_set limb high index (by simpa using inside)
    simp only [List.set_cons_succ, value_cons, List.getD_cons_succ,
      Nat.mul_add, Nat.mul_one, Nat.pow_add]
    linear_combination (2 ^ w) * tail

/-! ## Ascending carry loops -/

def carryLoop {α κ : Type} {w : Nat} (step : α → κ → BitVec w × κ) :
    List α → κ → List (BitVec w) × κ
  | [], carry => ([], carry)
  | element :: rest, carry =>
    let next := step element carry
    let tail := carryLoop step rest next.2
    (next.1 :: tail.1, tail.2)

@[simp] theorem carryLoop_length {α κ : Type} (step : α → κ → BitVec w × κ) (elements : List α)
    (carry : κ) : (carryLoop step elements carry).1.length = elements.length := by
  induction elements generalizing carry with
  | nil => rfl
  | cons element rest induction => simp [carryLoop, induction]

def weigh {α : Type} (w : Nat) (term : α → Int) : List α → Int
  | [] => 0
  | element :: rest => term element + 2 ^ w * weigh w term rest

theorem weigh_add {α : Type} (w : Nat) (left right : α → Int) (elements : List α) :
    weigh w (fun element => left element + right element) elements =
      weigh w left elements + weigh w right elements := by
  induction elements with
  | nil => simp [weigh]
  | cons element rest induction => simp only [weigh, induction]; ring

theorem weigh_sub {α : Type} (w : Nat) (left right : α → Int) (elements : List α) :
    weigh w (fun element => left element - right element) elements =
      weigh w left elements - weigh w right elements := by
  induction elements with
  | nil => simp [weigh]
  | cons element rest induction => simp only [weigh, induction]; ring

theorem weigh_mul {α : Type} (w : Nat) (factor : Int) (term : α → Int) (elements : List α) :
    weigh w (fun element => factor * term element) elements = factor * weigh w term elements := by
  induction elements with
  | nil => simp [weigh]
  | cons element rest induction => simp only [weigh, induction]; ring

@[simp] theorem weigh_toNat (limbs : List (BitVec w)) :
    weigh w (fun limb => (limb.toNat : Int)) limbs = value limbs := by
  induction limbs with
  | nil => rfl
  | cons low high induction => simp [weigh, induction]

theorem weigh_map {α β : Type} (w : Nat) (transform : α → β) (term : β → Int) (elements : List α) :
    weigh w term (elements.map transform) =
      weigh w (fun element => term (transform element)) elements := by
  induction elements with
  | nil => rfl
  | cons element rest induction => simp [weigh, induction]

/-- The left components of equally long zipped lists weigh what the left list
weighs. -/
theorem weigh_zip_fst {α β : Type} (w : Nat) (term : α → Int)
    {left : List α} {right : List β} (lengths : left.length = right.length) :
    weigh w (fun pair => term pair.1) (left.zip right) = weigh w term left := by
  rw [← weigh_map w Prod.fst term, List.map_fst_zip lengths.le]

theorem weigh_zip_snd {α β : Type} (w : Nat) (term : β → Int)
    {left : List α} {right : List β} (lengths : left.length = right.length) :
    weigh w (fun pair => term pair.2) (left.zip right) = weigh w term right := by
  rw [← weigh_map w Prod.snd term, List.map_snd_zip lengths.ge]

/-- If each step conserves its position's value, the whole loop does: what is
written, plus the outgoing carry one place above, is what was read plus the
incoming carry. A borrow is a carry of negative weight. -/
theorem carryLoop_value {α κ : Type} (step : α → κ → BitVec w × κ) (term : α → Int)
    (weight : κ → Int) (Valid : κ → Prop)
    (conserves : ∀ element carry, Valid carry → ((step element carry).1.toNat : Int) +
          2 ^ w * weight (step element carry).2 =
        term element + weight carry ∧ Valid (step element carry).2)
    (elements : List α) (carry : κ) (valid : Valid carry) :
    (value (carryLoop step elements carry).1 : Int) + ((2 ^ (w * elements.length) : Nat) : Int) *
            weight (carryLoop step elements carry).2 =
        weigh w term elements + weight carry ∧
      Valid (carryLoop step elements carry).2 := by
  induction elements generalizing carry with
  | nil => simp [carryLoop, weigh, valid]
  | cons element rest induction =>
    rcases conserves element carry valid with ⟨stepEqual, nextValid⟩
    rcases induction (step element carry).2 nextValid with
      ⟨restEqual, finalValid⟩
    refine ⟨?_, finalValid⟩
    simp only [carryLoop, value_cons, weigh, List.length_cons, Nat.mul_add,
      Nat.mul_one, pow_add, Nat.cast_add, Nat.cast_mul, Nat.cast_pow,
      Nat.cast_ofNat] at restEqual ⊢
    linear_combination stepEqual + (2 : Int) ^ w * restEqual

/-! ## Descending loops -/

def descendLoop {α β κ : Type} (step : α → κ → β × κ) : List α → κ → List β × κ
  | [], state => ([], state)
  | element :: rest, state =>
    let high := descendLoop step rest state
    let next := step element high.2
    (next.1 :: high.1, next.2)

@[simp] theorem descendLoop_length {α β κ : Type} (step : α → κ → β × κ)
    (elements : List α) (state : κ) :
    (descendLoop step elements state).1.length = elements.length := by
  induction elements with
  | nil => rfl
  | cons element rest induction => simp [descendLoop, induction]

theorem descendLoop_snd {α β κ : Type} (step : α → κ → β × κ) (elements : List α) (state : κ) :
    (descendLoop step elements state).2 =
      elements.foldr (fun element current => (step element current).2) state := by
  induction elements with
  | nil => rfl
  | cons element rest induction =>
    rw [descendLoop, List.foldr_cons, ← induction]

/-- Short division: if each step divides `state * 2 ^ w + limb` by `divisor`,
the loop divides the whole number. -/
theorem descendLoop_divide {κ : Type} {divisor : Nat} {step : BitVec w → κ → BitVec w × κ}
    {remainder : κ → Nat}
    (divides : ∀ limb state, remainder state < divisor →
      (step limb state).1.toNat * divisor + remainder (step limb state).2 =
          remainder state * 2 ^ w + limb.toNat ∧
        remainder (step limb state).2 < divisor)
    (limbs : List (BitVec w)) (state : κ) (bound : remainder state < divisor) :
    value (descendLoop step limbs state).1 * divisor + remainder (descendLoop step limbs state).2 =
        remainder state * 2 ^ (w * limbs.length) + value limbs ∧
      remainder (descendLoop step limbs state).2 < divisor := by
  induction limbs with
  | nil => simp [descendLoop, bound]
  | cons low high induction =>
    rcases induction with ⟨highEqual, highBound⟩
    rcases divides low _ highBound with ⟨lowEqual, lowBound⟩
    refine ⟨?_, lowBound⟩
    simp only [descendLoop, value_cons, List.length_cons, Nat.mul_add, Nat.mul_one, Nat.pow_add]
    calc _ = 2 ^ w * (value (descendLoop step high state).1 * divisor) +
          ((step low (descendLoop step high state).2).1.toNat * divisor +
            remainder (step low (descendLoop step high state).2).2) := by ring
      _ = 2 ^ w * (value (descendLoop step high state).1 * divisor +
          remainder (descendLoop step high state).2) + low.toNat := by
            rw [lowEqual]; ring
      _ = _ := by rw [highEqual]; ring

/-! ## Comparison -/

/-- Scan two numbers from the most significant word down and answer at the
first difference. -/
def compareLoop {w : Nat} : List (BitVec w) → List (BitVec w) → Ordering
  | low :: high, low' :: high' =>
    (compareLoop high high').then (compare low.toNat low'.toNat)
  | _, _ => .eq

theorem compareLoop_eq : ∀ {left right : List (BitVec w)}, left.length = right.length →
      compareLoop left right = compare (value left) (value right)
  | [], [], _ => by simp [compareLoop]
  | low :: high, low' :: high', lengths => by
    have lowBound := low.isLt
    have lowBound' := low'.isLt
    have separated (small large : Nat) (lt : small < large) :
        2 ^ w * small + 2 ^ w ≤ 2 ^ w * large :=
      calc 2 ^ w * small + 2 ^ w = 2 ^ w * (small + 1) := by ring
        _ ≤ _ := Nat.mul_le_mul_left _ lt
    rw [compareLoop, compareLoop_eq (by simpa using lengths), value_cons,
      value_cons]
    rcases Nat.lt_trichotomy (value high) (value high') with lt | eq | gt
    · have gap := separated _ _ lt
      have total : low.toNat + 2 ^ w * value high <
          low'.toNat + 2 ^ w * value high' := by omega
      rw [Nat.compare_eq_lt.mpr lt, Nat.compare_eq_lt.mpr total]
      rfl
    · rw [eq, Nat.compare_eq_eq.mpr rfl, Ordering.then]
      rcases Nat.lt_trichotomy low.toNat low'.toNat with lt | eq | gt
      · rw [Nat.compare_eq_lt.mpr lt, Nat.compare_eq_lt.mpr (by omega)]
      · rw [eq, Nat.compare_eq_eq.mpr rfl, Nat.compare_eq_eq.mpr rfl]
      · rw [Nat.compare_eq_gt.mpr gt, Nat.compare_eq_gt.mpr (by omega)]
    · have gap := separated _ _ gt
      have total : low'.toNat + 2 ^ w * value high' <
          low.toNat + 2 ^ w * value high := by omega
      rw [Nat.compare_eq_gt.mpr gt, Nat.compare_eq_gt.mpr total]
      rfl

end CudaMpqs.Limbs
