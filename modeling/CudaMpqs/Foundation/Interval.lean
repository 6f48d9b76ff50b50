import Mathlib.Algebra.BigOperators.Group.Finset.Sigma
import Mathlib.Algebra.GroupWithZero.Nat
import Mathlib.Order.Interval.Finset.Nat

/-! # Half-open index intervals

How often a list of intervals covers an index. Conservation laws of components
that split, move and retire intervals are equations between coverages. -/

namespace CudaMpqs

structure Interval where
  start : Nat
  count : Nat
deriving DecidableEq

namespace Interval

def Contains (interval : Interval) (index : Nat) : Prop :=
  interval.start ≤ index ∧ index < interval.start + interval.count

instance (interval : Interval) (index : Nat) :
    Decidable (interval.Contains index) :=
  inferInstanceAs (Decidable (_ ∧ _))

def Apart (left right : Interval) : Prop :=
  left.start + left.count ≤ right.start ∨ right.start + right.count ≤ left.start

theorem sum_count_le {ι : Type} {chosen : Finset ι} {interval : ι → Interval} {low high : Nat}
    (ordered : low ≤ high)
    (inside : ∀ i ∈ chosen,
      low ≤ (interval i).start ∧ (interval i).start + (interval i).count ≤ high)
    (apart : ∀ i ∈ chosen, ∀ j ∈ chosen, i ≠ j → (interval i).Apart (interval j)) :
    low + ∑ i ∈ chosen, (interval i).count ≤ high := by
  classical
  let indices := fun i => Finset.Ico (interval i).start ((interval i).start + (interval i).count)
  have disjoint : (chosen : Set ι).PairwiseDisjoint indices := by
    intro i inChosen j inChosen' different
    rw [Function.onFun, Finset.disjoint_left]
    intro index member member'
    rw [Finset.mem_Ico] at member member'
    rcases apart i inChosen j inChosen' different with before | after <;> omega
  have within : chosen.biUnion indices ⊆ Finset.Ico low high := by
    intro index member
    rcases Finset.mem_biUnion.mp member with ⟨i, inChosen, isIndex⟩
    have bounds := inside i inChosen
    rw [Finset.mem_Ico] at isIndex ⊢
    omega
  have counted := Finset.card_le_card within
  rw [Finset.card_biUnion disjoint, Nat.card_Ico,
    Finset.sum_congr rfl fun i _ => (Nat.card_Ico _ _).trans (Nat.add_sub_cancel_left _ _)]
    at counted
  omega

def coverage (intervals : List Interval) (index : Nat) : Nat :=
  intervals.countP fun interval => decide (interval.Contains index)

@[simp] theorem coverage_nil (index : Nat) : coverage [] index = 0 := rfl

theorem coverage_cons (interval : Interval) (intervals : List Interval) (index : Nat) :
    coverage (interval :: intervals) index =
      (if interval.Contains index then 1 else 0) + coverage intervals index := by
  simp [coverage, List.countP_cons, Nat.add_comm]

@[simp] theorem coverage_append (left right : List Interval) (index : Nat) :
    coverage (left ++ right) index = coverage left index + coverage right index :=
  List.countP_append

theorem coverage_singleton (interval : Interval) (index : Nat) :
    coverage [interval] index = if interval.Contains index then 1 else 0 := by
  rw [coverage_cons, coverage_nil, Nat.add_zero]

/-- The interval `[low, high)` covers what lies between its bounds. -/
theorem coverage_range {low high index : Nat} (above : low ≤ index)
    (below : index < high) : coverage [⟨low, high - low⟩] index = 1 := by
  rw [coverage_singleton, if_pos]
  show low ≤ index ∧ index < low + (high - low)
  omega

theorem coverage_pos_iff (intervals : List Interval) (index : Nat) : 0 < coverage intervals index ↔
      ∃ interval ∈ intervals, interval.Contains index := by
  simp [coverage, List.countP_pos_iff]

variable {intervals : List Interval}

theorem coverage_eq_zero_of_start_gt {index : Nat}
    (above : ∀ interval ∈ intervals, index < interval.start) : coverage intervals index = 0 := by
  apply List.countP_eq_zero.mpr
  intro interval member
  have gt := above interval member
  rw [decide_eq_true_eq, Contains]
  omega

theorem coverage_split (start low high index : Nat) :
    coverage [⟨start, low⟩] index + coverage [⟨start + low, high⟩] index =
      coverage [⟨start, low + high⟩] index := by
  have whole : Contains ⟨start, low + high⟩ index ↔
      Contains ⟨start, low⟩ index ∨ Contains ⟨start + low, high⟩ index := by
    simp only [Contains]
    omega
  have disjoint : ¬ (Contains ⟨start, low⟩ index ∧
      Contains ⟨start + low, high⟩ index) := by
    simp only [Contains]
    omega
  rw [coverage_singleton, coverage_singleton, coverage_singleton]
  by_cases inLow : Contains ⟨start, low⟩ index
  · have notHigh : ¬ Contains ⟨start + low, high⟩ index :=
      fun inHigh => disjoint ⟨inLow, inHigh⟩
    rw [if_pos inLow, if_neg notHigh, if_pos (whole.mpr (.inl inLow))]
  · by_cases inHigh : Contains ⟨start + low, high⟩ index
    · rw [if_neg inLow, if_pos inHigh, if_pos (whole.mpr (.inr inHigh))]
    · rw [if_neg inLow, if_neg inHigh, if_neg fun inWhole =>
        (whole.mp inWhole).elim inLow inHigh]

/-- Taking the first element that satisfies a test out of a list. -/
theorem coverage_eraseP {α : Type} (interval : α → Interval) (test : α → Bool)
    (items : List α) (index : Nat) :
    coverage (items.map interval) index = coverage ((items.find? test).map interval).toList index +
        coverage ((items.eraseP test).map interval) index := by
  induction items with
  | nil => rfl
  | cons head tail induction =>
    cases passes : test head with
    | true => simp [passes, coverage_cons]
    | false =>
      simp only [List.map_cons, coverage_cons, induction,
        List.find?_cons_of_neg (by simp [passes] : ¬ test head = true),
        List.eraseP_cons_of_neg (by simp [passes] : ¬ test head = true)]
      omega

theorem coverage_filter {α : Type} (interval : α → Interval) (test : α → Bool)
    (items : List α) (index : Nat) :
    coverage (items.map interval) index = coverage ((items.filter test).map interval) index +
        coverage ((items.filter fun item => !test item).map interval) index := by
  induction items with
  | nil => rfl
  | cons head tail induction =>
    cases passes : test head <;>
      simp [passes, coverage_cons, induction] <;> omega

def Covers (intervals : List Interval) (start count : Nat) : Prop :=
  ∀ index, start ≤ index → index < start + count → ∃ interval ∈ intervals, interval.Contains index

theorem covers_zero (intervals : List Interval) (start : Nat) : Covers intervals start 0 := by
  intro index above below
  omega

theorem covers_of_mem {interval : Interval} (member : interval ∈ intervals) :
    Covers intervals interval.start interval.count :=
  fun _ above below => ⟨interval, member, above, below⟩

theorem Covers.mono {intervals larger : List Interval} {start count : Nat}
    (covers : Covers intervals start count) (subset : intervals ⊆ larger) :
    Covers larger start count := by
  intro index above below
  rcases covers index above below with ⟨interval, member, contains⟩
  exact ⟨interval, subset member, contains⟩

theorem Covers.shorten {start count fewer : Nat} (covers : Covers intervals start count)
    (le : fewer ≤ count) : Covers intervals start fewer :=
  fun index above below => covers index above (by omega)

theorem Covers.extend {start first second : Nat} (left : Covers intervals start first)
    (right : Covers intervals (start + first) second) :
    Covers intervals start (first + second) := by
  intro index above below
  rcases Nat.lt_or_ge index (start + first) with before | after
  · exact left index above before
  · exact right index after (by omega)

theorem Covers.push {start first : Nat} (covers : Covers intervals start first) (second : Nat) :
    Covers (intervals ++ [⟨start + first, second⟩]) start (first + second) :=
  (covers.mono (List.subset_append_left _ _)).extend
    (covers_of_mem (List.mem_append_right _ (List.mem_singleton_self _)))

/-! ## Intervals laid end to end -/

def endToEnd (start : Nat) : List Nat → List Interval
  | [] => []
  | count :: counts => ⟨start, count⟩ :: endToEnd (start + count) counts

theorem coverage_endToEnd (counts : List Nat) (start index : Nat) :
    coverage (endToEnd start counts) index =
      if start ≤ index ∧ index < start + counts.sum then 1 else 0 := by
  induction counts generalizing start with
  | nil =>
    rw [endToEnd, coverage_nil, List.sum_nil, if_neg]
    omega
  | cons count counts induction =>
    have contains : Contains ⟨start, count⟩ index ↔
        start ≤ index ∧ index < start + count := Iff.rfl
    rw [endToEnd, coverage_cons, induction, List.sum_cons]
    simp only [contains]
    split_ifs <;> omega

/-- A common divisor of the start and the counts divides every start. -/
theorem dvd_start_endToEnd {divisor start : Nat} {counts : List Nat}
    (first : divisor ∣ start) (steps : ∀ count ∈ counts, divisor ∣ count) :
    ∀ interval ∈ endToEnd start counts, divisor ∣ interval.start := by
  induction counts generalizing start with
  | nil => nofun
  | cons count counts induction =>
    intro interval member
    rcases List.mem_cons.mp member with rfl | member
    · exact first
    · exact induction (Nat.dvd_add first (steps count List.mem_cons_self))
        (fun other inside => steps other (List.mem_cons_of_mem _ inside)) interval member

end Interval

end CudaMpqs
