import Mathlib.Algebra.BigOperators.Intervals

/-! # Inclusive scans

The scan of a warp by shuffles of doubling distance: after a shuffle of
distance `width`, every lane holds the sum of the last `2 * width` lanes. -/

namespace CudaMpqs.InclusiveScan

open Finset

variable {M : Type} [AddCommMonoid M]

def shuffleUp (width : Nat) (held : Nat → M) (lane : Nat) : M :=
  if width ≤ lane then held lane + held (lane - width) else held lane

def scan (held : Nat → M) : Nat → Nat → M
  | 0 => held
  | steps + 1 => shuffleUp (2 ^ steps) (scan held steps)

def window (held : Nat → M) (width lane : Nat) : M :=
  ∑ other ∈ Ico (lane + 1 - width) (lane + 1), held other

private theorem shuffleUp_window (held : Nat → M) (width : Nat) :
    shuffleUp width (window held width) = window held (2 * width) := by
  funext lane
  unfold shuffleUp window
  split
  next above =>
      have first : lane - width + 1 = lane + 1 - width := by omega
      have second : lane - width + 1 - width = lane + 1 - 2 * width := by omega
      rw [second, first, add_comm]
      exact sum_Ico_consecutive held (by omega) (by omega)
  next below =>
      have first : lane + 1 - width = 0 := by omega
      have second : lane + 1 - 2 * width = 0 := by omega
      rw [first, second]

private theorem scan_eq_window (held : Nat → M) (steps : Nat) :
    scan held steps = window held (2 ^ steps) := by
  induction steps with
  | zero =>
    funext lane
    simp [scan, window]
  | succ steps induction =>
    rw [scan, induction, shuffleUp_window, ← Nat.pow_succ']

theorem scan_eq_sum (held : Nat → M) {steps lane : Nat} (inside : lane < 2 ^ steps) :
    scan held steps lane = ∑ other ∈ range (lane + 1), held other := by
  have first : lane + 1 - 2 ^ steps = 0 := by omega
  rw [scan_eq_window, window, first, range_eq_Ico]

theorem sum_range_getD (items : List M) (count : Nat) :
    ∑ k ∈ range count, items.getD k 0 = (items.take count).sum := by
  induction count with
  | zero => simp
  | succ count induction =>
    rw [sum_range_succ, induction, List.take_add_one, List.sum_append]
    cases held : items[count]? with
    | none => simp [List.getD, held]
    | some item => simp [List.getD, held]

end CudaMpqs.InclusiveScan
