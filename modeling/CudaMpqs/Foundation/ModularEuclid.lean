import Mathlib.Data.ZMod.Basic
import Mathlib.Tactic.LinearCombination

/-! # The extended Euclidean algorithm with reduced coefficients

One coefficient goes along with each remainder and is kept modulo `m`. -/

namespace CudaMpqs.ModularEuclid

structure State where
  r0 : Nat
  r1 : Nat
  u0 : Nat
  u1 : Nat
deriving DecidableEq

def subMod (m u term : Nat) : Nat := if u < term then u + m - term else u - term

def turn (m : Nat) (state : State) : State :=
  ⟨state.r1, state.r0 % state.r1, state.u1, subMod m state.u0 (state.r0 / state.r1 * state.u1 % m)⟩

inductive Ends (m : Nat) : State → Nat → Nat → Prop
  | done {r0 u0 u1 : Nat} : Ends m ⟨r0, 0, u0, u1⟩ r0 u0
  | turn {state : State} {r u : Nat} (more : state.r1 ≠ 0)
      (rest : Ends m (ModularEuclid.turn m state) r u) : Ends m state r u

variable {m a : Nat} {state : State} {r u : Nat}

theorem Ends.next (ends : Ends m state r u) (more : state.r1 ≠ 0) :
    Ends m (ModularEuclid.turn m state) r u := by
  cases ends with
  | done => exact absurd rfl more
  | turn _ rest => exact rest

theorem Ends.unique (ends : Ends m state r u) {r' u' : Nat} (ends' : Ends m state r' u') :
    r = r' ∧ u = u' := by
  induction ends with
  | done =>
    cases ends' with
    | done => exact ⟨rfl, rfl⟩
    | turn more _ => exact absurd rfl more
  | turn more _ induction => exact induction (ends'.next more)

theorem subMod_cast {term : Nat} (bound : term ≤ m) :
    ((subMod m u term : Nat) : ZMod m) = u - term := by
  rw [subMod]
  split
  · rw [Nat.cast_sub (by omega), Nat.cast_add, ZMod.natCast_self, add_zero]
  · rw [Nat.cast_sub (by omega)]

structure Holds (m a : Nat) (state : State) : Prop where
  left : (state.u0 : ZMod m) * a = state.r0
  right : (state.u1 : ZMod m) * a = state.r1
  leftBound : state.u0 < m
  rightBound : state.r1 ≠ 0 → state.u1 < m

theorem Holds.turn (holds : Holds m a state) (more : state.r1 ≠ 0) :
    Holds m a (ModularEuclid.turn m state) where
  left := holds.right
  right := by
    have positive := Nat.zero_lt_of_lt holds.leftBound
    have division : ((state.r1 * (state.r0 / state.r1) + state.r0 % state.r1 : Nat) : ZMod m) =
        state.r0 := by rw [Nat.div_add_mod]
    rw [Nat.cast_add, Nat.cast_mul] at division
    dsimp only [ModularEuclid.turn]
    rw [subMod_cast (Nat.mod_lt _ positive).le, ZMod.natCast_mod, Nat.cast_mul]
    linear_combination holds.left - ((state.r0 / state.r1 : Nat) : ZMod m) * holds.right - division
  leftBound := holds.rightBound more
  rightBound _ := by
    have positive := Nat.zero_lt_of_lt holds.leftBound
    have term := Nat.mod_lt (state.r0 / state.r1 * state.u1) positive
    have bound := holds.leftBound
    dsimp only [ModularEuclid.turn, subMod]
    split <;> omega

theorem Ends.spec (ends : Ends m state r u) (holds : Holds m a state) :
    r = Nat.gcd state.r0 state.r1 ∧ (u : ZMod m) * a = r ∧ u < m := by
  induction ends with
  | done => exact ⟨(Nat.gcd_zero_right _).symm, holds.left, holds.leftBound⟩
  | turn more _ induction =>
    rcases induction (holds.turn more) with ⟨divisor, coefficient, bound⟩
    refine ⟨?_, coefficient, bound⟩
    rw [divisor, Nat.gcd_comm, Nat.gcd_comm _ (State.r1 _)]
    exact (Nat.gcd_rec _ _).symm

/-- The state after the first turn, whether `a` was reduced or not. -/
theorem turn_start (m a : Nat) : turn m ⟨a, m, 1, 0⟩ = ⟨m, a % m, 0, 1⟩ := by
  simp only [turn, Nat.mul_zero, Nat.zero_mod, subMod, Nat.not_lt_zero, if_false, Nat.sub_zero]

private theorem holds_start (positive : 0 < m) (a : Nat) : Holds m a ⟨m, a % m, 0, 1⟩ where
  left := by rw [Nat.cast_zero, zero_mul, ZMod.natCast_self]
  right := by rw [Nat.cast_one, one_mul, ZMod.natCast_mod]
  leftBound := positive
  rightBound more := by
    by_contra small
    have one : m = 1 := Nat.le_antisymm (Nat.not_lt.mp small) positive
    subst one
    exact more (Nat.mod_one a)

theorem Ends.start (positive : 0 < m) (ends : Ends m ⟨a, m, 1, 0⟩ r u) :
    r = Nat.gcd a m ∧ (u : ZMod m) * a = r ∧ u < m := by
  have first := ends.next positive.ne'
  rw [turn_start] at first
  have spec := first.spec (holds_start positive a)
  rwa [Nat.gcd_comm, ← Nat.gcd_rec, Nat.gcd_comm] at spec

theorem Ends.reduced (positive : 0 < m) (ends : Ends m ⟨a, m, 1, 0⟩ r u) :
    Ends m ⟨a % m, m, 1, 0⟩ r u := by
  have first := ends.next positive.ne'
  rw [turn_start] at first
  refine .turn positive.ne' ?_
  rwa [turn_start, Nat.mod_mod]

end CudaMpqs.ModularEuclid
