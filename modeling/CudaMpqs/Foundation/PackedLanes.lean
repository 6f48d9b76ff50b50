import Mathlib.Algebra.GroupWithZero.Nat
import Mathlib.Algebra.Order.BigOperators.Group.List
import Mathlib.Algebra.Order.Group.Nat

/-! # Counters packed into words

A word of `lanes` counters is a number written in base `base`. A plain addition
to one counter carries into the next one when it overflows; a store does not. -/

namespace CudaMpqs.PackedLanes

def lane (base word position : Nat) : Nat := word / base ^ position % base

def entry (base lanes : Nat) (words : Nat → Nat) (index : Nat) : Nat :=
  lane base (words (index / lanes)) (index % lanes)

def add (base lanes : Nat) (words : Nat → Nat) (index amount : Nat) : Nat → Nat :=
  Function.update words (index / lanes)
    ((words (index / lanes) + amount * base ^ (index % lanes)) % base ^ lanes)

def replace (base word position value : Nat) : Nat :=
  word - lane base word position * base ^ position + value * base ^ position

def store (base lanes : Nat) (words : Nat → Nat) (index value : Nat) : Nat → Nat :=
  Function.update words (index / lanes)
    (replace base (words (index / lanes)) (index % lanes) value)

variable {base : Nat}

/-! ## One word -/

theorem lane_lt (positive : 0 < base) (word position : Nat) : lane base word position < base :=
  Nat.mod_lt _ positive

theorem lane_add_self (positive : 0 < base) {word position amount : Nat}
    (fits : lane base word position + amount < base) :
    lane base (word + amount * base ^ position) position = lane base word position + amount := by
  unfold lane at fits ⊢
  rw [Nat.add_mul_div_right _ _ (Nat.pow_pos positive), Nat.add_mod,
    Nat.mod_eq_of_lt (show amount < base by omega), Nat.mod_eq_of_lt fits]

theorem lane_add_below (positive : 0 < base) (word amount : Nat)
    {position below : Nat} (order : below < position) :
    lane base (word + amount * base ^ position) below = lane base word below := by
  have split : amount * base ^ position =
      amount * base ^ (position - below - 1) * base * base ^ below := by
    rw [mul_assoc, mul_assoc, ← pow_succ', ← pow_add]
    congr 2
    omega
  rw [lane, lane, split, Nat.add_mul_div_right _ _ (Nat.pow_pos positive),
    Nat.add_mul_mod_self_right]

private theorem lane_add_above (positive : 0 < base) {word position amount : Nat}
    (fits : lane base word position + amount < base) {above : Nat}
    (order : position < above) :
    lane base (word + amount * base ^ position) above = lane base word above := by
  have split : base ^ above = base ^ position * base * base ^ (above - position - 1) := by
    rw [← pow_succ, ← pow_add]
    congr 1
    omega
  have same : (word / base ^ position + amount) / base = word / base ^ position / base := by
    apply Nat.div_eq_of_lt_le
    · have quotient := Nat.div_mul_le_self (word / base ^ position) base
      omega
    · have division := Nat.div_add_mod (word / base ^ position) base
      unfold lane at fits
      rw [Nat.succ_mul, mul_comm]
      omega
  rw [lane, lane, split, ← Nat.div_div_eq_div_mul, ← Nat.div_div_eq_div_mul,
    Nat.add_mul_div_right _ _ (Nat.pow_pos positive), same,
    ← Nat.div_div_eq_div_mul, ← Nat.div_div_eq_div_mul]

/-- An addition that fits its counter leaves the others alone. -/
theorem lane_add (positive : 0 < base) {word position amount : Nat}
    (fits : lane base word position + amount < base) (other : Nat) :
    lane base (word + amount * base ^ position) other =
      if other = position then lane base word position + amount
      else lane base word other := by
  rcases Nat.lt_trichotomy other position with below | rfl | above
  · rw [if_neg below.ne, lane_add_below positive word amount below]
  · rw [if_pos rfl, lane_add_self positive fits]
  · rw [if_neg above.ne', lane_add_above positive fits above]

theorem lane_mod_pow {lanes position : Nat} (inside : position < lanes) (word : Nat) :
    lane base (word % base ^ lanes) position = lane base word position := by
  have split : base ^ lanes = base ^ position * base ^ (lanes - position) := by
    rw [← pow_add]
    congr 1
    omega
  rw [lane, split, Nat.mod_mul_right_div_self,
    Nat.mod_mod_of_dvd _ (dvd_pow_self base (by omega)), lane]

theorem lane_clear (word position : Nat) :
    lane base (word - lane base word position * base ^ position) position = 0 := by
  rw [lane, mul_comm, Nat.sub_mul_div, lane]
  exact Nat.sub_mod_eq_zero_of_mod_eq (Nat.mod_mod _ base).symm

private theorem lane_mul_pow_le (base word position : Nat) :
    lane base word position * base ^ position ≤ word :=
  (Nat.mul_le_mul_right _ (Nat.mod_le _ _)).trans (Nat.div_mul_le_self _ _)

theorem lane_replace (positive : 0 < base) (word position : Nat) {value : Nat}
    (fits : value < base) (other : Nat) :
    lane base (replace base word position value) other =
      if other = position then value else lane base word other := by
  have cleared : lane base (word - lane base word position * base ^ position) position = 0 :=
    lane_clear word position
  have restored : word - lane base word position * base ^ position +
      lane base word position * base ^ position = word :=
    Nat.sub_add_cancel (lane_mul_pow_le base word position)
  have before := lane_add positive (show lane base
      (word - lane base word position * base ^ position) position +
        lane base word position < base by
    rw [cleared, zero_add]
    exact lane_lt positive word position) other
  rw [restored] at before
  rw [replace, lane_add positive (by rw [cleared, zero_add]; exact fits) other]
  by_cases same : other = position
  · rw [if_pos same, if_pos same, cleared, zero_add]
  · rw [if_neg same, if_neg same, before, if_neg same]

/-! ## Arrays of words -/

variable {lanes : Nat}

theorem index_eq {left right : Nat} (word : left / lanes = right / lanes)
    (position : left % lanes = right % lanes) : left = right := by
  rw [← Nat.div_add_mod left lanes, ← Nat.div_add_mod right lanes, word, position]

theorem entry_add (positive : 0 < base) (some : 0 < lanes) {words : Nat → Nat}
    {index amount : Nat} (fits : entry base lanes words index + amount < base) :
    entry base lanes (add base lanes words index amount) =
      Function.update (entry base lanes words) index (entry base lanes words index + amount) := by
  funext other
  by_cases word : other / lanes = index / lanes
  · rw [entry, add, word, Function.update_self, lane_mod_pow (Nat.mod_lt _ some),
      lane_add positive fits]
    by_cases position : other % lanes = index % lanes
    · rw [if_pos position, index_eq word position, Function.update_self, entry]
    · have different : other ≠ index := by
        rintro rfl
        exact position rfl
      rw [if_neg position, Function.update_of_ne different, entry, word]
  · have different : other ≠ index := by
      rintro rfl
      exact word rfl
    rw [entry, add, Function.update_of_ne word, Function.update_of_ne different, entry]

theorem entry_store (positive : 0 < base) (words : Nat → Nat) (index : Nat) {value : Nat}
    (fits : value < base) :
    entry base lanes (store base lanes words index value) =
      Function.update (entry base lanes words) index value := by
  funext other
  by_cases word : other / lanes = index / lanes
  · rw [entry, store, word, Function.update_self, lane_replace positive _ _ fits]
    by_cases position : other % lanes = index % lanes
    · rw [if_pos position, index_eq word position, Function.update_self]
    · have different : other ≠ index := by
        rintro rfl
        exact position rfl
      rw [if_neg position, Function.update_of_ne different, entry, word]
  · have different : other ≠ index := by
      rintro rfl
      exact word rfl
    rw [entry, store, Function.update_of_ne word, Function.update_of_ne different, entry]

/-! ## Runs of increments -/

/-- An increment of the counter `index`; `shared` increments race for the word
and add to it as a whole, the others own their counter. -/
structure Increment where
  index : Nat
  amount : Nat
  shared : Bool
deriving DecidableEq

def total (increments : List Increment) (index : Nat) : Nat :=
  ((increments.filter fun increment => increment.index = index).map Increment.amount).sum

@[simp] theorem total_nil (index : Nat) : total [] index = 0 := rfl

theorem total_cons (increment : Increment) (increments : List Increment) (index : Nat) :
    total (increment :: increments) index =
      (if increment.index = index then increment.amount else 0) + total increments index := by
  unfold total
  by_cases same : increment.index = index
  · simp [same]
  · simp [same]

theorem total_perm {left right : List Increment} (perm : left.Perm right) (index : Nat) :
    total left index = total right index :=
  ((perm.filter _).map _).sum_eq

def accumulate (base lanes : Nat) (words : Nat → Nat) (increment : Increment) : Nat → Nat :=
  if increment.shared then add base lanes words increment.index increment.amount
  else store base lanes words increment.index
    ((entry base lanes words increment.index + increment.amount) % base)

def accumulateSat (base lanes : Nat) (words : Nat → Nat) (increment : Increment) : Nat → Nat :=
  store base lanes words increment.index
    (min (base - 1) (entry base lanes words increment.index + increment.amount))

private theorem entry_accumulate (positive : 0 < base) (some : 0 < lanes) {words : Nat → Nat}
    {increment : Increment}
    (fits : entry base lanes words increment.index + increment.amount < base) :
    entry base lanes (accumulate base lanes words increment) =
      Function.update (entry base lanes words) increment.index
        (entry base lanes words increment.index + increment.amount) := by
  unfold accumulate
  split
  next => exact entry_add positive some fits
  next => rw [Nat.mod_eq_of_lt fits, entry_store positive words _ fits]

/-- Without an overflow the wrapping increments add up, whatever their order. -/
theorem entry_foldl_accumulate (positive : 0 < base) (some : 0 < lanes)
    (increments : List Increment) (words : Nat → Nat)
    (fits : ∀ index, entry base lanes words index + total increments index < base)
    (index : Nat) :
    entry base lanes (increments.foldl (accumulate base lanes) words) index =
      entry base lanes words index + total increments index := by
  induction increments generalizing words with
  | nil => rfl
  | cons increment increments induction =>
    have small : entry base lanes words increment.index + increment.amount < base := by
      have bound := fits increment.index
      rw [total_cons, if_pos rfl] at bound
      omega
    have first := entry_accumulate positive some small
    have step (index : Nat) :
        entry base lanes (accumulate base lanes words increment) index + total increments index =
          entry base lanes words index + total (increment :: increments) index := by
      rw [first, total_cons]
      by_cases same : increment.index = index
      · rw [if_pos same, ← same, Function.update_self, add_assoc]
      · rw [if_neg same, Function.update_of_ne (Ne.symm same), zero_add]
    rw [List.foldl_cons, induction, step]
    intro other
    rw [step]
    exact fits other

/-- Saturating increments add up to the capped sum, whatever their order. -/
theorem entry_foldl_accumulateSat (positive : 0 < base) (increments : List Increment)
    (words : Nat → Nat) (index : Nat) :
    entry base lanes (increments.foldl (accumulateSat base lanes) words) index =
      min (base - 1) (entry base lanes words index + total increments index) := by
  have bound (words : Nat → Nat) (index : Nat) : entry base lanes words index ≤ base - 1 :=
    Nat.le_sub_one_of_lt (lane_lt positive _ _)
  induction increments generalizing words with
  | nil => exact (min_eq_right (bound words index)).symm
  | cons increment increments induction =>
    rw [List.foldl_cons, induction, accumulateSat,
      entry_store positive words _ (by omega), total_cons]
    by_cases same : increment.index = index
    · rw [if_pos same, ← same, Function.update_self]
      omega
    · rw [if_neg same, Function.update_of_ne (Ne.symm same), zero_add]

@[simp] theorem entry_zero (base lanes index : Nat) : entry base lanes (fun _ => 0) index = 0 := by
  simp [entry, lane]

end CudaMpqs.PackedLanes
