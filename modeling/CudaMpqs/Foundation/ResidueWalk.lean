import Mathlib.Algebra.Ring.Divisibility.Basic
import Mathlib.Data.Int.ModEq
import Mathlib.Data.Multiset.Bind
import Mathlib.Data.Multiset.Range
import Mathlib.Tactic.LinearCombination
import Mathlib.Tactic.Ring
import CudaMpqs.Foundation.SignedInt

/-! # Walks through a residue class

A walk visits the positions of one residue class between an offset and a stop, forwards or
backwards, alone or interleaved over several lanes. Its landing is where the next walk goes
on. -/

namespace CudaMpqs.ResidueWalk

open SignedInt

structure Next (p root bound x : Int) : Prop where
  reached : bound ≤ x
  first : x < bound + p
  congruent : p ∣ x - root

def turns (offset p stop : Int) : Nat := ((stop - offset + p - 1) / p).toNat

def walk (offset p stop : Int) : List Int :=
  (List.range (turns offset p stop)).map fun turn : Nat => offset + turn * p

def landing (offset p stop : Int) : Int := offset + turns offset p stop * p

section Walk

variable {offset p stop x : Int}

theorem lt_turns_iff (positive : 0 < p) (turn : Nat) :
    turn < turns offset p stop ↔ offset + turn * p < stop := by
  rw [turns, Int.lt_toNat, Int.lt_iff_add_one_le, Int.le_ediv_iff_mul_le positive, add_mul]
  omega

theorem turns_le_iff (positive : 0 < p) (turn : Nat) :
    turns offset p stop ≤ turn ↔ stop ≤ offset + turn * p := by
  rw [← not_lt, lt_turns_iff positive, not_lt]

theorem mem_walk (positive : 0 < p) :
    x ∈ walk offset p stop ↔ offset ≤ x ∧ x < stop ∧ p ∣ x - offset := by
  simp only [walk, List.mem_map, List.mem_range]
  constructor
  · rintro ⟨turn, inside, rfl⟩
    have step := mul_nonneg (Int.natCast_nonneg turn) positive.le
    refine ⟨by omega, (lt_turns_iff positive turn).mp inside, turn, ?_⟩
    ring
  · rintro ⟨above, below, turn, split⟩
    have nonneg : 0 ≤ turn := by
      refine Decidable.byContradiction fun negative => ?_
      have product := mul_neg_of_pos_of_neg positive (not_le.mp negative)
      omega
    have cast := Int.toNat_of_nonneg nonneg
    have position : offset + turn.toNat * p = x := by
      rw [cast]
      linear_combination -split
    exact ⟨turn.toNat, (lt_turns_iff positive _).mpr (by rwa [position]), position⟩

theorem nodup_walk (positive : 0 < p) : (walk offset p stop).Nodup := by
  refine List.nodup_range.map fun left right same => ?_
  have product : (left : Int) * p = right * p := add_left_cancel same
  exact Int.natCast_inj.mp (mul_right_cancel₀ positive.ne' product)

/-- The first position beyond `stop`, for a walk from the first one beyond an earlier bound. -/
theorem Next.landing {root bound : Int} (positive : 0 < p) (next : Next p root bound offset)
    (later : bound ≤ stop) : Next p root stop (landing offset p stop) := by
  refine ⟨(turns_le_iff positive _).mp le_rfl, ?_, ?_⟩
  · rw [ResidueWalk.landing]
    rcases count : turns offset p stop with _ | last
    · have first := next.first
      rw [Nat.cast_zero, zero_mul]
      omega
    · have more : last < turns offset p stop :=
        Nat.lt_of_lt_of_eq (Nat.lt_succ_self last) count.symm
      have before := (lt_turns_iff positive last).mp more
      rw [Nat.cast_succ, add_mul]
      omega
  · rw [ResidueWalk.landing, add_sub_right_comm]
    exact dvd_add next.congruent (dvd_mul_left p _)

/-- A walk from the first position visits all of them. -/
theorem Next.mem_walk {root bound : Int} (positive : 0 < p) (next : Next p root bound offset) :
    x ∈ walk offset p stop ↔ bound ≤ x ∧ x < stop ∧ p ∣ x - root := by
  have shift : p ∣ x - offset ↔ p ∣ x - root := by
    rw [← sub_add_sub_cancel x offset root, dvd_add_left next.congruent]
  rw [ResidueWalk.mem_walk positive, shift]
  constructor
  · rintro ⟨above, below, divides⟩
    exact ⟨next.reached.trans above, below, divides⟩
  · rintro ⟨above, below, divides⟩
    refine ⟨?_, below, divides⟩
    rcases shift.mpr divides with ⟨turn, split⟩
    have first := next.first
    have nonneg : 0 ≤ turn := by
      refine Decidable.byContradiction fun negative => ?_
      have product := mul_le_mul_of_nonneg_left
        (Int.le_sub_one_of_lt (not_le.mp negative)) positive.le
      omega
    have product := mul_nonneg positive.le nonneg
    omega

end Walk

/-! ## Loops that keep a current position -/

structure Cursor where
  visited : List Int
  current : Int

namespace Cursor

variable {p stop offset : Int}

def step (p : Int) (cursor : Cursor) : Cursor :=
  ⟨cursor.visited ++ [cursor.current], cursor.current + p⟩

def finish (p stop : Int) (cursor : Cursor) : Cursor :=
  if cursor.current < stop then cursor.step p else cursor

theorem step_iterate (p offset : Int) (count : Nat) : (step p)^[count] ⟨[], offset⟩ =
      ⟨(List.range count).map fun turn : Nat => offset + turn * p, offset + count * p⟩ := by
  induction count with
  | zero => simp
  | succ count previous =>
    rw [Function.iterate_succ_apply', previous, step, List.range_succ, List.map_append]
    refine congrArg (Cursor.mk _) ?_
    push_cast
    ring

theorem finish_iterate (positive : 0 < p) {count : Nat} (below : count ≤ turns offset p stop)
    (above : turns offset p stop ≤ count + 1) :
    finish p stop ((step p)^[count] ⟨[], offset⟩) =
      ⟨walk offset p stop, landing offset p stop⟩ := by
  rcases Nat.eq_or_lt_of_le below with equal | less
  · have done := (turns_le_iff positive count).mp equal.ge
    rw [finish, step_iterate, if_neg (not_lt.mpr done), equal]
    rfl
  · have more := (lt_turns_iff positive count).mp less
    have equal : turns offset p stop = count + 1 := by omega
    rw [finish, if_pos (by rwa [step_iterate]), ← Function.iterate_succ_apply' (step p),
      step_iterate, walk, landing, equal]

/-! ### In the range of `int` -/

def advance (p : Int) (cursor : Cursor) : Option Cursor := do
  let next ← int32 (cursor.current + p)
  return ⟨cursor.visited ++ [cursor.current], next⟩

def advances (p : Int) : Nat → Cursor → Option Cursor
  | 0, cursor => some cursor
  | count + 1, cursor => do
    let next ← cursor.advance p
    advances p count next

def advanceLast (p stop : Int) (cursor : Cursor) : Option Cursor :=
  if cursor.current < stop then cursor.advance p else some cursor

variable {cursor : Cursor}

theorem advance_eq (inside : InInt (cursor.current + p)) :
    cursor.advance p = some (cursor.step p) := by
  rw [advance, int32_of_inInt inside]
  rfl

theorem advances_eq (nonneg : 0 ≤ p) {count : Nat} (low : -2 ^ 31 ≤ cursor.current)
    (high : cursor.current + count * p < 2 ^ 31) :
    cursor.advances p count = some ((step p)^[count] cursor) := by
  induction count generalizing cursor with
  | zero => rfl
  | succ count previous =>
    have rest : 0 ≤ count * p := mul_nonneg (Int.natCast_nonneg count) nonneg
    rw [Nat.cast_succ, add_mul, one_mul] at high
    rw [advances, advance_eq ⟨by omega, by omega⟩, Function.iterate_succ_apply]
    refine @previous (cursor.step p) ?_ ?_
    · rw [step]
      dsimp only
      omega
    · rw [step]
      dsimp only
      omega

private theorem advanceLast_eq (nonneg : 0 ≤ p) (low : -2 ^ 31 ≤ cursor.current)
    (high : stop + p ≤ 2 ^ 31) : cursor.advanceLast p stop = some (cursor.finish p stop) := by
  rw [advanceLast, finish]
  split
  next below => exact advance_eq ⟨by omega, by omega⟩
  next => rfl

/-- A loop that leaves at most one step to do, with room for one step beyond `stop`. -/
theorem advances_finish (positive : 0 < p) {count : Nat} (below : count ≤ turns offset p stop)
    (above : turns offset p stop ≤ count + 1) (inside : InInt offset)
    (high : stop + p ≤ 2 ^ 31) :
    ∃ last, advances p count ⟨[], offset⟩ = some last ∧
      last.advanceLast p stop = some ⟨walk offset p stop, landing offset p stop⟩ := by
  have reached : offset + count * p < 2 ^ 31 := by
    rcases count with _ | before
    · rw [Nat.cast_zero, zero_mul, add_zero]
      exact inside.2
    · have more := (lt_turns_iff positive before).mp below
      rw [Nat.cast_succ, add_mul]
      omega
  refine ⟨_, advances_eq positive.le inside.1 reached, ?_⟩
  rw [advanceLast_eq positive.le _ high, finish_iterate positive below above]
  rw [step_iterate]
  have walked := mul_nonneg (Int.natCast_nonneg count) positive.le
  have low := inside.1
  dsimp only
  omega

end Cursor

/-! ## Backwards -/

def backLoop (p start : Int) : Nat → Int → List Int
  | 0, _ => []
  | fuel + 1, offset =>
    if start ≤ offset then offset :: backLoop p start fuel (offset - p) else []

def back (offset p start : Int) : List Int :=
  backLoop p start (offset - start + 1).toNat offset

section Back

variable {offset p start x : Int}

theorem mem_backLoop (positive : 0 < p) (fuel : Nat) (enough : offset - start < fuel) :
    x ∈ backLoop p start fuel offset ↔ start ≤ x ∧ x ≤ offset ∧ p ∣ offset - x := by
  induction fuel generalizing offset with
  | zero =>
    rw [backLoop]
    refine iff_of_false List.not_mem_nil fun inside => ?_
    rw [Nat.cast_zero] at enough
    omega
  | succ fuel next =>
    rw [backLoop]
    split
    next more =>
        rw [List.mem_cons, next (by push_cast at enough; omega)]
        have shift : p ∣ offset - p - x ↔ p ∣ offset - x := by
          rw [sub_right_comm, dvd_sub_self_right]
        rw [shift]
        constructor
        · rintro (rfl | ⟨above, below, divides⟩)
          · exact ⟨more, le_rfl, by rw [sub_self]; exact dvd_zero p⟩
          · exact ⟨above, by omega, divides⟩
        · rintro ⟨above, below, divides⟩
          rcases eq_or_lt_of_le below with same | less
          · exact Or.inl same
          · have far := Int.le_of_dvd (by omega) divides
            exact Or.inr ⟨above, by omega, divides⟩
    next less => exact iff_of_false List.not_mem_nil fun inside => by omega

theorem mem_back (positive : 0 < p) :
    x ∈ back offset p start ↔ start ≤ x ∧ x ≤ offset ∧ p ∣ offset - x :=
  mem_backLoop positive _ (by omega)

private theorem nodup_backLoop (positive : 0 < p) (fuel : Nat) (enough : offset - start < fuel) :
    (backLoop p start fuel offset).Nodup := by
  induction fuel generalizing offset with
  | zero => exact List.nodup_nil
  | succ fuel next =>
    have smaller : offset - p - start < fuel := by
      push_cast at enough
      omega
    rw [backLoop]
    split
    next =>
        refine List.nodup_cons.mpr ⟨fun member => ?_, next smaller⟩
        have below := ((mem_backLoop positive fuel smaller).mp member).2.1
        omega
    next => exact List.nodup_nil

theorem nodup_back (positive : 0 < p) : (back offset p start).Nodup :=
  nodup_backLoop positive _ (by omega)

private theorem backLoop_of_enough (positive : 0 < p) {left right : Nat}
    (leftEnough : offset - start < left)
    (rightEnough : offset - start < right) :
    backLoop p start left offset = backLoop p start right offset := by
  induction left generalizing offset right with
  | zero =>
    rw [Nat.cast_zero] at leftEnough
    cases right with
    | zero => rfl
    | succ right => rw [backLoop, backLoop, if_neg (by omega)]
  | succ left next =>
    push_cast at leftEnough
    cases right with
    | zero =>
      rw [Nat.cast_zero] at rightEnough
      rw [backLoop, backLoop, if_neg (by omega)]
    | succ right =>
      push_cast at rightEnough
      rw [backLoop, backLoop, @next (offset - p) right (by omega) (by omega)]

theorem back_of_le (positive : 0 < p) (more : start ≤ offset) :
    back offset p start = offset :: back (offset - p) p start := by
  have turns : (offset - start + 1).toNat = (offset - start).toNat + 1 := by omega
  rw [back, turns, backLoop, if_pos more, back]
  exact congrArg (offset :: ·) (backLoop_of_enough positive (by omega) (by omega))

theorem back_of_lt (less : offset < start) : back offset p start = [] := by
  have turns : (offset - start + 1).toNat = 0 := by omega
  rw [back, turns, backLoop]

def backChecked (p start : Int) : Nat → Int → Option (List Int)
  | 0, _ => some []
  | fuel + 1, offset =>
    if start ≤ offset then do
      let next ← int32 (offset - p)
      let rest ← backChecked p start fuel next
      return offset :: rest
    else some []

def backInt (offset p start : Int) : Option (List Int) :=
  backChecked p start (offset - start + 1).toNat offset

private theorem backChecked_eq (nonneg : 0 ≤ p) (low : -2 ^ 31 ≤ start - p) (fuel : Nat)
    (high : offset < 2 ^ 31) :
    backChecked p start fuel offset = some (backLoop p start fuel offset) := by
  induction fuel generalizing offset with
  | zero => rfl
  | succ fuel next =>
    rw [backChecked, backLoop]
    split
    next more =>
        rw [int32_of_inInt ⟨by omega, by omega⟩, Option.bind_eq_bind, Option.bind_some,
          next (by omega)]
        rfl
    next => rfl

theorem backInt_eq (nonneg : 0 ≤ p) (low : -2 ^ 31 ≤ start - p) (high : offset < 2 ^ 31) :
    backInt offset p start = some (back offset p start) :=
  backChecked_eq nonneg low _ high

/-- From one step before the first position beyond `stop`, down to `start`. -/
theorem Next.mem_back {root stop : Int} (positive : 0 < p) (next : Next p root stop offset) :
    x ∈ back (offset - p) p start ↔ start ≤ x ∧ x < stop ∧ p ∣ x - root := by
  have shift : p ∣ offset - p - x ↔ p ∣ x - root := by
    rw [sub_right_comm, dvd_sub_self_right, ← sub_sub_sub_cancel_right offset x root,
      dvd_sub_right next.congruent]
  rw [ResidueWalk.mem_back positive, shift]
  constructor
  · rintro ⟨above, below, divides⟩
    have first := next.first
    exact ⟨above, by omega, divides⟩
  · rintro ⟨above, below, divides⟩
    refine ⟨above, ?_, divides⟩
    have reached := next.reached
    have apart : p ∣ offset - x := by
      rw [← sub_sub_sub_cancel_right offset x root]
      exact dvd_sub next.congruent divides
    have distance := Int.le_of_dvd (by omega) apart
    omega

end Back

/-! ## Lanes -/

/-- Lane `l` of several takes the positions that are `l` steps off modulo the number of
lanes. -/
theorem bind_lanes {p offset : Int} (nonzero : p ≠ 0) {lanes : Nat} (some : 0 < lanes)
    {lane : Nat → List Int} {whole : List Int} (nodup : ∀ l < lanes, (lane l).Nodup)
    (wholeNodup : whole.Nodup) (aligned : ∀ x ∈ whole, p ∣ x - offset)
    (mem : ∀ l < lanes, ∀ x, x ∈ lane l ↔ x ∈ whole ∧ lanes * p ∣ x - (offset + l * p)) :
    (Multiset.range lanes).bind (fun l => (lane l : Multiset Int)) = whole := by
  refine (Multiset.Nodup.ext ?_ (Multiset.coe_nodup.mpr wholeNodup)).mpr fun x => ?_
  · refine Multiset.nodup_bind.mpr ⟨fun l member => Multiset.coe_nodup.mpr
      (nodup l (Multiset.mem_range.mp member)), ?_⟩
    refine (Multiset.nodup_range lanes).pairwise fun left leftMember right rightMember differ => ?_
    rw [Multiset.mem_range] at leftMember rightMember
    refine Multiset.disjoint_left.mpr @fun x inLeft inRight => differ ?_
    have first := ((mem left leftMember x).mp inLeft).2
    have second := ((mem right rightMember x).mp inRight).2
    have apart : lanes * p ∣ ((left : Int) - right) * p := by
      have difference := dvd_sub second first
      rwa [show x - (offset + right * p) - (x - (offset + left * p)) =
        ((left : Int) - right) * p by ring] at difference
    have close := Int.eq_zero_of_abs_lt_dvd ((mul_dvd_mul_iff_right nonzero).mp apart)
      (by rw [abs_lt]; omega)
    omega
  · rw [Multiset.mem_bind, Multiset.mem_coe]
    constructor
    · rintro ⟨l, member, inside⟩
      exact ((mem l (Multiset.mem_range.mp member) x).mp inside).1
    · intro inside
      rcases aligned x inside with ⟨turn, split⟩
      have low := Int.emod_nonneg turn (by omega : (lanes : Int) ≠ 0)
      have high := Int.emod_lt_of_pos turn (by omega : 0 < (lanes : Int))
      have division := Int.emod_add_mul_ediv turn lanes
      refine ⟨(turn % lanes).toNat, Multiset.mem_range.mpr (by omega),
        (mem _ (by omega) x).mpr ⟨inside, turn / lanes, ?_⟩⟩
      rw [Int.toNat_of_nonneg low]
      linear_combination split - p * division

end CudaMpqs.ResidueWalk
