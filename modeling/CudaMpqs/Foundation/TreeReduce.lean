import Mathlib.Algebra.BigOperators.Intervals
import CudaMpqs.Foundation.ThreadLoops

/-! # Reductions of a thread block

The threads of a block multiply up their share of a range and then halve the number of values
round by round. With a commutative product the block ends with the product of the range. -/

namespace CudaMpqs.TreeReduce

open ThreadLoops

variable {Value : Type} (mul : Value → Value → Value)

def round (stride : Nat) (shared : Nat → Value) : Nat → Value := fun tid =>
  if tid < stride then mul (shared tid) (shared (tid + stride)) else shared tid

def rounds : Nat → Nat → (Nat → Value) → Nat → Value
  | 0, _, shared => shared
  | fuel + 1, stride, shared =>
    if 0 < stride then rounds fuel (stride / 2) (round mul stride shared) else shared

def treeReduce (blockDim : Nat) (shared : Nat → Value) : Value :=
  rounds mul blockDim (blockDim / 2) shared 0

def strideFold (blockDim stop : Nat) (start : Value) (step : Value → Nat → Value) (tid : Nat) :
    Value :=
  (loopFrom tid blockDim stop).foldl step start

variable {mul} {M : Type} [CommMonoid M] {stands : Value → M → Prop}

/-- Where a block of a power of two of threads holds values that stand for factors, the
reduction stands for the product. -/
theorem treeReduce_stands (multiplies : ∀ a b left right, stands a left → stands b right →
      stands (mul a b) (left * right)) {blockDim log : Nat} (power : blockDim = 2 ^ log)
    {shared : Nat → Value} {factor : Nat → M}
    (each : ∀ tid < blockDim, stands (shared tid) (factor tid)) :
    stands (treeReduce mul blockDim shared) (∏ tid ∈ Finset.range blockDim, factor tid) := by
  subst power
  have loop : ∀ fuel, log ≤ fuel → stands (rounds mul fuel (2 ^ log / 2) shared 0)
        (∏ tid ∈ Finset.range (2 ^ log), factor tid) := by
    induction log generalizing shared factor with
    | zero =>
      intro fuel _
      have held : rounds mul fuel (2 ^ 0 / 2) shared 0 = shared 0 := by
        cases fuel <;> rfl
      rw [held, pow_zero, Finset.prod_range_one]
      exact each 0 (by decide)
    | succ log induction =>
      intro fuel enough
      obtain ⟨fuel, rfl⟩ : ∃ fuel', fuel = fuel' + 1 := ⟨fuel - 1, by omega⟩
      have half : 2 ^ (log + 1) / 2 = 2 ^ log := by
        rw [pow_succ, Nat.mul_div_cancel _ (by decide)]
      have merged : ∀ tid < 2 ^ log, stands (round mul (2 ^ log) shared tid)
          (factor tid * factor (2 ^ log + tid)) := by
        intro tid below
        rw [round, if_pos below, Nat.add_comm tid]
        exact multiplies _ _ _ _ (each tid (by rw [pow_succ]; omega))
          (each _ (by rw [pow_succ]; omega))
      have rest := induction merged fuel (by omega)
      rw [rounds, half, if_pos (Nat.two_pow_pos log)]
      rwa [Finset.prod_mul_distrib, ← Finset.prod_range_add, ← Nat.two_mul, ← pow_succ']
        at rest
  exact loop _ Nat.lt_two_pow_self.le

private theorem foldl_stands {step : Value → Nat → Value} {factor : Nat → M} (is : List Nat)
    (each : ∀ i ∈ is, ∀ a left, stands a left → stands (step a i) (left * factor i))
    {start : Value} {before : M} (first : stands start before) :
    stands (is.foldl step start) (before * (is.map factor).prod) := by
  induction is generalizing start before with
  | nil => rwa [List.map_nil, List.prod_nil, mul_one]
  | cons i is induction =>
    rw [List.foldl_cons, List.map_cons, List.prod_cons, ← mul_assoc]
    exact induction (fun other member => each other (List.mem_cons_of_mem _ member))
      (each i List.mem_cons_self _ _ first)

/-- A block whose threads each run through a share of a range, and which reduces what they
hold, stands for the product of the range. -/
theorem treeReduce_strideFold_stands
    (multiplies : ∀ a b left right, stands a left → stands b right →
      stands (mul a b) (left * right)) {one : Value} (unit : stands one 1) {blockDim log : Nat}
    (power : blockDim = 2 ^ log) {stop : Nat} {step : Value → Nat → Value} {factor : Nat → M}
    (each : ∀ i < stop, ∀ a left, stands a left → stands (step a i) (left * factor i)) :
    stands (treeReduce mul blockDim (strideFold blockDim stop one step))
      (∏ i ∈ Finset.range stop, factor i) := by
  have positive : 0 < blockDim := power ▸ Nat.two_pow_pos log
  have shares : ∀ tid < blockDim, stands (strideFold blockDim stop one step tid)
      ((loopFrom tid blockDim stop).map factor).prod := by
    intro tid _
    have share := foldl_stands (loopFrom tid blockDim stop)
      (fun i member => each i ((mem_loopFrom positive).mp member).2.1) unit
    rwa [one_mul] at share
  have whole := treeReduce_stands multiplies power shares
  have visited : ∏ tid ∈ Finset.range blockDim, ((loopFrom tid blockDim stop).map factor).prod =
      ∏ i ∈ Finset.range stop, factor i := by
    have threads := @bind_threads 0 blockDim stop positive
    have products := congrArg (fun visits => (Multiset.map factor visits).prod) threads
    simp only [Multiset.map_bind, Multiset.prod_bind, Nat.zero_add, Multiset.map_coe,
      Multiset.prod_coe] at products
    rw [← Finset.range_eq_Ico] at products
    exact products
  rwa [visited] at whole

end CudaMpqs.TreeReduce
