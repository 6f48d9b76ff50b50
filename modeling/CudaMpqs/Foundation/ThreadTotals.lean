import Mathlib.Algebra.BigOperators.Group.Finset.Piecewise
import CudaMpqs.Foundation.Transition

/-! # Totals over threads

A machine steps one thread at a time. What a step changes in a sum over all
threads is what it changes at its own thread. -/

namespace CudaMpqs.ThreadTotals

open Function

variable {Thread Phase : Type} [Fintype Thread] [DecidableEq Thread]

theorem sum_of_others {M : Type} [AddCommMonoid M] (before after : Thread → M)
    (thread : Thread) (others : ∀ other, other ≠ thread → after other = before other) :
    ∑ other, after other + before thread = ∑ other, before other + after thread := by
  rw [← Finset.add_sum_erase _ after (Finset.mem_univ thread),
    ← Finset.add_sum_erase _ before (Finset.mem_univ thread),
    Finset.sum_congr rfl fun other member => others other (Finset.ne_of_mem_erase member)]
  ac_rfl

def total (weight : Phase → Nat) (threads : Thread → Phase) : Nat :=
  ∑ thread, weight (threads thread)

theorem total_update (weight : Phase → Nat) (threads : Thread → Phase)
    (thread : Thread) (next : Phase) :
    total weight (update threads thread next) + weight (threads thread) =
      total weight threads + weight next := by
  have change := sum_of_others (fun other => weight (threads other))
    (fun other => weight (update threads thread next other)) thread
    fun other different => by rw [update_of_ne different]
  rwa [update_self] at change

theorem total_update_lt {weight : Phase → Nat} {threads : Thread → Phase}
    {thread : Thread} {next : Phase}
    (smaller : weight next < weight (threads thread)) :
    total weight (update threads thread next) < total weight threads := by
  have change := total_update weight threads thread next
  omega

/-- A weight that is one or zero counts the threads where it is one. -/
theorem total_eq_card (selects : Phase → Bool) (threads : Thread → Phase) :
    total (fun phase => (selects phase).toNat) threads =
      (Finset.univ.filter fun thread => selects (threads thread) = true).card := by
  rw [Finset.card_filter, total]
  apply Finset.sum_congr rfl
  intro thread _
  cases selects (threads thread) <;> rfl

end CudaMpqs.ThreadTotals
