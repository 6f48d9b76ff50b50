import Mathlib.Tactic.Ring
import CudaMpqs.Lingen.KrylovSequenceGenerator

/-! # The Krylov kernels and the recurrence

The projection kernel adds `X^T * V`, the transpose kernel writes the transpose. The
recurrence keeps `B^(k+1) * Z` in the current buffer as long as no graph is replayed
from the other one. -/

namespace CudaMpqs.Lingen

open GridStride

variable {rows m n : Nat}

/-! ## Kernels -/

theorem foldl_add {Index Value : Type} [AddCommMonoid Value] (value : Index → Value)
    (indices : List Index) (acc : Value) :
    indices.foldl (fun acc index => acc + value index) acc = acc + (indices.map value).sum := by
  induction indices generalizing acc with
  | nil => rw [List.map_nil, List.sum_nil, add_zero, List.foldl_nil]
  | cons index indices induction =>
    rw [List.foldl_cons, induction, List.map_cons, List.sum_cons, ← add_assoc]

private theorem rowAccumulator_eq (X : Block rows m) (V : Block rows n) (bx : Nat) (r : Fin m) :
    rowAccumulator X V bx r = ((gridStride bx 128 rows).map fun k c => X k r * V k c).sum := by
  have added : (fun (acc : Fin n → ZMod 2) k => if X k r = 1 then acc + V k else acc) =
      fun acc k => acc + fun c => X k r * V k c := by
    funext acc k c
    have bit : X k r = 0 ∨ X k r = 1 := by
      generalize X k r = bit
      revert bit
      decide
    rcases bit with zero | one
    · simp [zero]
    · simp [one]
  rw [rowAccumulator, added, foldl_add, zero_add]

theorem kernelKrylovBatchProj_eq (X : Block rows m) (V : Block rows n) (S : Term m n) :
    kernelKrylovBatchProj X V S = S + X.transpose * V := by
  have byRow : rowAccumulator X V = fun bx =>
      ((gridStride bx 128 rows).map fun k r c => X k r * V k c).sum := by
    funext bx r
    rw [rowAccumulator_eq, Pi.list_sum_apply, List.map_map]
    rfl
  ext r c
  have entry : kernelKrylovBatchProj X V S r c =
      S r c + ((List.range 128).map (rowAccumulator X V)).sum r c :=
    congrFun (congrFun (foldl_add (rowAccumulator X V) (List.range 128) S) r) c
  rw [entry, byRow, sum_blocks (by decide), Matrix.add_apply, Matrix.mul_apply,
    Finset.sum_apply, Finset.sum_apply]
  rfl

private theorem transposeBlock_apply (src : Term m n) (dst : Term n m) (blockIdx : Nat) (d : Fin n)
    (r : Fin m) :
    transposeBlock src dst blockIdx d r =
      if d.val / 64 = blockIdx % ((n + 63) / 64) ∧ r.val / 64 = blockIdx / ((n + 63) / 64) then
        src r d
      else dst d r := by
  unfold transposeBlock
  split
  next inside =>
      have row : blockIdx / ((n + 63) / 64) * 64 + r.val % 64 = r.val := by omega
      have col : blockIdx % ((n + 63) / 64) * 64 + d.val % 64 = d.val := by omega
      rw [row, col, loadedBit, dif_pos ⟨r.isLt, d.isLt⟩]
  next => rfl

theorem kernelTransposeBatch_eq (src : Term m n) (dst : Term n m) :
    kernelTransposeBatch src dst = src.transpose := by
  have folded : ∀ (blocks : List Nat) (dst : Term n m) (d : Fin n) (r : Fin m),
      (dst d r = src r d ∨ ∃ block ∈ blocks, d.val / 64 = block % ((n + 63) / 64) ∧
        r.val / 64 = block / ((n + 63) / 64)) →
      blocks.foldl (transposeBlock src) dst d r = src r d := by
    intro blocks
    induction blocks with
    | nil =>
      rintro dst d r (written | ⟨block, impossible, _⟩)
      · exact written
      · cases impossible
    | cons block blocks induction =>
      intro dst d r covered
      apply induction
      rw [transposeBlock_apply]
      split
      next => exact .inl rfl
      next outside =>
          rcases covered with written | ⟨other, member, hits⟩
          · exact .inl written
          · rcases List.mem_cons.mp member with rfl | member
            · exact absurd hits outside
            · exact .inr ⟨other, member, hits⟩
  ext d r
  apply folded
  have column : d.val / 64 < (n + 63) / 64 := by omega
  have row : r.val / 64 < (m + 63) / 64 := by omega
  refine .inr ⟨r.val / 64 * ((n + 63) / 64) + d.val / 64, List.mem_range.mpr ?_, ?_, ?_⟩
  · calc
      r.val / 64 * ((n + 63) / 64) + d.val / 64
          < r.val / 64 * ((n + 63) / 64) + (n + 63) / 64 := Nat.add_lt_add_left column _
      _ = (r.val / 64 + 1) * ((n + 63) / 64) := (Nat.succ_mul _ _).symm
      _ ≤ (m + 63) / 64 * ((n + 63) / 64) := Nat.mul_le_mul_right _ row
  · rw [Nat.add_comm, Nat.add_mul_mod_self_right, Nat.mod_eq_of_lt column]
  · rw [Nat.add_comm, Nat.add_mul_div_right _ _ (Nat.zero_lt_of_lt column),
      Nat.div_eq_of_lt column, Nat.zero_add]

/-! ## The recurrence -/

def power (B : Block rows rows) (Z : Block rows n) (k : Nat) : Block rows n :=
  B ^ (k + 1) * Z

variable {B : Block rows rows} {Z : Block rows n}

theorem power_succ (k : Nat) : power B Z (k + 1) = B * power B Z k := by
  rw [power, power, pow_succ' B, Matrix.mul_assoc]

def Periodic (B : Block rows rows) (Z : Block rows n) (start : Nat) : Prop :=
  power B Z (start + 2) = power B Z start

theorem Periodic.mono {start later : Nat} (periodic : Periodic B Z start)
    (le : start ≤ later) : Periodic B Z later := by
  induction later, le using Nat.le_induction with
  | base => exact periodic
  | succ later _ induction =>
    rw [Periodic, show later + 1 + 2 = later + 2 + 1 by omega, power_succ, induction,
      ← power_succ]

structure HoldsPower (B : Block rows rows) (Z : Block rows n) (j : Nat)
    (state : Recurrence rows n) : Prop where
  current : state.vector state.dV = power B Z j
  previous : B * state.vector (!state.dV) = power B Z j

theorem HoldsPower.congr {j : Nat} {state other : Recurrence rows n}
    (holds : HoldsPower B Z j state) (vector : other.vector = state.vector)
    (dV : other.dV = state.dV) : HoldsPower B Z j other := by
  constructor
  · rw [vector, dV]
    exact holds.current
  · rw [vector, dV]
    exact holds.previous

def SlotsFrom (B : Block rows rows) (Z : Block rows n) (j count : Nat)
    (slots : Nat → Block rows n) : Prop :=
  ∀ i < count, slots i = power B Z (j + i)

namespace Recurrence

variable {j : Nat} {state : Recurrence rows n} {slots : Nat → Block rows n}

theorem mul_target (source : Bool) :
    (state.mul B source).vector (!source) = B * state.vector source :=
  Function.update_self _ _ _

theorem mul_source (source : Bool) : (state.mul B source).vector source = state.vector source :=
  Function.update_of_ne (Bool.self_ne_not source) _ _

theorem directStep_holds (holds : HoldsPower B Z j state) (i : Nat) :
    HoldsPower B Z (j + 1) (directStep B (state, slots) i).1 ∧
      (directStep B (state, slots) i).2 = Function.update slots i (power B Z j) := by
  refine ⟨⟨?_, ?_⟩, ?_⟩
  · change (state.mul B state.dV).vector (!state.dV) = _
    rw [mul_target, holds.current, power_succ]
  · change B * (state.mul B state.dV).vector (!!state.dV) = _
    rw [Bool.not_not, mul_source, holds.current, power_succ]
  · change Function.update slots i (state.vector state.dV) = _
    rw [holds.current]

theorem start_holds : HoldsPower B Z 0 (state.start B Z) := by
  constructor
  · simp [start, mul, power]
  · simp [start, mul, power]

structure SameGraphs (state other : Recurrence rows n) : Prop where
  useCudaGraph : other.useCudaGraph = state.useCudaGraph
  innerLoop : other.innerLoop = state.innerLoop
  batchTail : other.batchTail = state.batchTail

theorem SameGraphs.trans {state other third : Recurrence rows n} (first : SameGraphs state other)
    (second : SameGraphs other third) : SameGraphs state third :=
  ⟨second.1.trans first.1, second.2.trans first.2, second.3.trans first.3⟩

structure Advanced (B : Block rows rows) (Z : Block rows n) (j count : Nat)
    (state : Recurrence rows n) (after : Recurrence rows n × (Nat → Block rows n)) :
    Prop where
  holds : HoldsPower B Z (j + count) after.1
  slots : SlotsFrom B Z j count after.2
  graphs : SameGraphs state after.1

theorem slotsFrom_update {count : Nat} (slotsFrom : SlotsFrom B Z j count slots) :
    SlotsFrom B Z j (count + 1) (Function.update slots count (power B Z (j + count))) := by
  intro i below
  by_cases last : i = count
  · rw [last, Function.update_self]
  · rw [Function.update_of_ne last]
    exact slotsFrom i (by omega)

theorem Advanced.zero (holds : HoldsPower B Z j state) : Advanced B Z j 0 state (state, slots) :=
  ⟨holds, fun _ impossible => absurd impossible (Nat.not_lt_zero _), rfl, rfl, rfl⟩

theorem Advanced.directStep {count : Nat} {after : Recurrence rows n × (Nat → Block rows n)}
    (advanced : Advanced B Z j count state after) :
    Advanced B Z j (count + 1) state (directStep B after count) := by
  have stepped := @directStep_holds _ _ _ _ _ _ after.2 advanced.holds count
  refine ⟨stepped.1, ?_, advanced.graphs.trans ⟨rfl, rfl, rfl⟩⟩
  rw [stepped.2]
  exact slotsFrom_update advanced.slots

theorem directLoop_advanced (holds : HoldsPower B Z j state) {length tStart : Nat}
    (count : Nat) (inside : tStart + count ≤ length) :
    Advanced B Z j count state (directLoop B length tStart count (state, slots)) := by
  unfold directLoop
  induction count with
  | zero => exact Advanced.zero holds
  | succ count induction =>
    rw [List.range_succ, List.foldl_append, List.foldl_cons, List.foldl_nil, if_pos (by omega)]
    exact (induction (by omega)).directStep

theorem launchInnerLoop_aligned (holds : HoldsPower B Z j state) :
    (launchInnerLoop B state.dV state).vector state.dV = power B Z (j + 2) ∧
      (launchInnerLoop B state.dV state).vector (!state.dV) = power B Z (j + 1) := by
  have first : (state.mul B state.dV).vector (!state.dV) = power B Z (j + 1) := by
    rw [mul_target, holds.current, power_succ]
  constructor
  · have second := @mul_target _ _ B (state.mul B state.dV) (!state.dV)
    rw [Bool.not_not, first, ← power_succ] at second
    exact second
  · rw [launchInnerLoop, mul_source, first]

private theorem launchInnerLoop_frozen (holds : HoldsPower B Z j state) :
    (launchInnerLoop B (!state.dV) state).vector state.dV = power B Z j ∧
      (launchInnerLoop B (!state.dV) state).vector (!state.dV) = power B Z (j + 1) := by
  have first := @mul_target _ _ B state (!state.dV)
  rw [Bool.not_not, holds.previous] at first
  rw [launchInnerLoop, Bool.not_not]
  constructor
  · rw [mul_source, first]
  · rw [mul_target, first, power_succ]

/-- The snapshots around one launch are right wherever the graph starts, and so is the
current buffer if it starts there or if the sequence repeats. -/
theorem pairStep_spec (holds : HoldsPower B Z j state) (captured : Bool) (p : Nat) :
    (pairStep B captured (state, slots) p).2 =
        Function.update (Function.update slots (2 * p) (power B Z j)) (2 * p + 1)
          (power B Z (j + 1)) ∧
      (captured = state.dV ∨ Periodic B Z j →
        HoldsPower B Z (j + 2) (pairStep B captured (state, slots) p).1) ∧
      (captured ≠ state.dV →
        (pairStep B captured (state, slots) p).1.vector state.dV = power B Z j) := by
  by_cases aligned : captured = state.dV
  · subst aligned
    have launched := launchInnerLoop_aligned holds
    refine ⟨?_, fun _ => ⟨launched.1, ?_⟩, fun different => absurd rfl different⟩
    · change Function.update (Function.update slots _ (state.vector state.dV)) _
        ((launchInnerLoop B state.dV state).vector (!state.dV)) = _
      rw [holds.current, launched.2]
    · change B * (launchInnerLoop B state.dV state).vector (!state.dV) = _
      rw [launched.2, ← power_succ]
  · have other := Bool.eq_not_of_ne aligned
    subst other
    have launched := launchInnerLoop_frozen holds
    refine ⟨?_, fun straight => ⟨?_, ?_⟩, fun _ => launched.1⟩
    · change Function.update (Function.update slots _ (state.vector state.dV)) _
        ((launchInnerLoop B (!state.dV) state).vector (!state.dV)) = _
      rw [holds.current, launched.2]
    · have periodic : Periodic B Z j := straight.resolve_left aligned
      exact launched.1.trans periodic.symm
    · change B * (launchInnerLoop B (!state.dV) state).vector (!state.dV) = _
      rw [launched.2, ← power_succ]

theorem Advanced.pairStep {pairs : Nat} {after : Recurrence rows n × (Nat → Block rows n)}
    (advanced : Advanced B Z j (2 * pairs) state after) {captured : Bool}
    (straight : captured = after.1.dV ∨ Periodic B Z j) :
    Advanced B Z j (2 * (pairs + 1)) state (pairStep B captured after pairs) := by
  have stepped := @pairStep_spec _ _ _ _ _ _ after.2 advanced.holds captured pairs
  refine ⟨?_, ?_, advanced.graphs.trans ⟨rfl, rfl, rfl⟩⟩
  · rw [Nat.mul_add_one, ← Nat.add_assoc]
    exact stepped.2.1 (straight.imp_right fun periodic => periodic.mono (Nat.le_add_right _ _))
  · rw [stepped.1]
    exact slotsFrom_update (slotsFrom_update advanced.slots)

private theorem pairs_advanced (holds : HoldsPower B Z j state) {captured : Bool}
    (straight : captured = state.dV ∨ Periodic B Z j) (pairs : Nat) :
    let after := (List.range pairs).foldl (pairStep B captured) (state, slots)
    Advanced B Z j (2 * pairs) state after ∧ after.1.dV = state.dV := by
  induction pairs with
  | zero => exact ⟨Advanced.zero holds, rfl⟩
  | succ pairs induction =>
    rw [List.range_succ, List.foldl_append, List.foldl_cons, List.foldl_nil]
    dsimp only at induction ⊢
    rw [← induction.2] at straight
    exact ⟨induction.1.pairStep straight, induction.2⟩

theorem graphLoop_advanced (holds : HoldsPower B Z j state) {captured : Bool}
    (straight : captured = state.dV ∨ Periodic B Z j) (count : Nat) :
    Advanced B Z j count state (graphLoop B captured count (state, slots)) ∧
      (graphLoop B captured count (state, slots)).1.dV =
        if count % 2 ≠ 0 then !state.dV else state.dV := by
  have paired := @pairs_advanced _ _ _ _ _ _ slots holds _ straight (count / 2)
  unfold graphLoop
  dsimp only at paired ⊢
  split
  next odd =>
      have size : 2 * (count / 2) = count - 1 := by omega
      rw [size] at paired
      have stepped := paired.1.directStep
      rw [show count - 1 + 1 = count by omega] at stepped
      refine ⟨stepped, ?_⟩
      change (!_) = _
      rw [paired.2]
  next even =>
      have size : 2 * (count / 2) = count := by omega
      rw [size] at paired
      exact paired

theorem graphLoop_pair (holds : HoldsPower B Z j state) (captured : Bool) :
    SlotsFrom B Z j 2 (graphLoop B captured 2 (state, slots)).2 ∧ (captured ≠ state.dV →
        (graphLoop B captured 2 (state, slots)).1.vector state.dV = power B Z j) := by
  have stepped := @pairStep_spec _ _ _ _ _ _ slots holds captured 0
  refine ⟨?_, stepped.2.2⟩
  change SlotsFrom B Z j 2 (pairStep B captured (state, slots) 0).2
  rw [stepped.1]
  intro i below
  obtain rfl | rfl : i = 0 ∨ i = 1 := by omega
  · rfl
  · rfl

theorem pairStep_slot (captured : Bool) (after : Recurrence rows n × (Nat → Block rows n))
    (p : Nat) :
    (pairStep B captured after p).2 (2 * p) = after.1.vector after.1.dV := by
  unfold pairStep
  dsimp only
  rw [Function.update_of_ne (by omega), Function.update_self]

theorem pairStep_slot_of_lt (captured : Bool)
    (after : Recurrence rows n × (Nat → Block rows n)) {p i : Nat} (below : i < 2 * p) :
    (pairStep B captured after p).2 i = after.2 i := by
  unfold pairStep
  dsimp only
  rw [Function.update_of_ne (by omega), Function.update_of_ne (by omega)]

private theorem pairs_stale (holds : HoldsPower B Z j state) {captured : Bool}
    (frozen : captured ≠ state.dV) (more : Nat) :
    ((List.range (more + 2)).foldl (pairStep B captured) (state, slots)).2 2 = power B Z j := by
  induction more with
  | zero =>
    have stepped := @pairStep_spec _ _ _ _ _ _ slots holds captured 0
    exact (pairStep_slot captured _ 1).trans (stepped.2.2 frozen)
  | succ more induction =>
    rw [List.range_succ, List.foldl_append, List.foldl_cons, List.foldl_nil]
    rw [pairStep_slot_of_lt captured _ (by omega), induction]

theorem graphLoop_stale (holds : HoldsPower B Z j state) {captured : Bool}
    (frozen : captured ≠ state.dV) {count : Nat} (long : 3 ≤ count) :
    (graphLoop B captured count (state, slots)).2 2 = power B Z j := by
  unfold graphLoop
  dsimp only
  by_cases three : count = 3
  · have stepped := @pairStep_spec _ _ _ _ _ _ slots holds captured 0
    subst three
    exact stepped.2.2 frozen
  · obtain ⟨more, pairs⟩ : ∃ more, count / 2 = more + 2 := ⟨count / 2 - 2, by omega⟩
    have stale := @pairs_stale _ _ _ _ _ _ slots holds _ frozen more
    rw [pairs]
    split
    next =>
        change Function.update _ (count - 1) _ 2 = _
        rw [Function.update_of_ne (by omega), stale]
    next => exact stale

end Recurrence

end CudaMpqs.Lingen
