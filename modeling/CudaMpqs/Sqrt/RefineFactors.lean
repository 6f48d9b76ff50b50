import Mathlib.Data.List.GetD
import CudaMpqs.Common.UInt512Gcd
import CudaMpqs.Foundation.CoprimeBase
import CudaMpqs.Foundation.DistinctSort
import CudaMpqs.Foundation.Transition

/-! # Refinement of factors

`RefineFactorsKernel` of `sqrt_step.cu`. The threads take their places in shared memory from
atomic counters, so that the factors, and the splits of a round, come in any order. -/

namespace CudaMpqs.RefineFactors

open UInt512 CoprimeBase DistinctSort Transition

def refineBlockSize : Nat := 128

def maxPool : Nat := 64

def maxRefineRounds : Nat := 8

/-! ## The first pool -/

def reporting (dFactorStatus : Nat → BitVec 32) (n : Nat) : List Nat :=
  (List.range refineBlockSize).filter fun tid => tid < n && dFactorStatus tid != 0

def nontrivial (N entry : UInt512) : Bool := !entry.isOne && !(entry == N)

/-- Phase 0 for one order of the threads. The pool is deduplicated in place; the writes never
overtake the reads. -/
def compact (N : UInt512) (dFactors : Nat → UInt512) (arrivals : List Nat) : List UInt512 :=
  distinctSort less (nontrivial N) ((arrivals.take maxPool).map dFactors)

/-! ## The splits of a round -/

structure Split where
  g : UInt512
  aDivG : UInt512
  bDivG : UInt512
deriving DecidableEq

def splitPair (a b : UInt512) : Option Split :=
  let g := a.gcd b
  if !g.isOne && !(g == a) && !(g == b) then some ⟨g, a.div g, b.div g⟩ else none

def decodeLoop (p m : Nat) : Nat → Nat → Nat → Nat × Nat
  | 0, row, acc => (row, row + 1 + (p - acc))
  | turns + 1, row, acc =>
    if acc + (m - 1 - row) ≤ p then decodeLoop p m turns (row + 1) (acc + (m - 1 - row))
    else (row, row + 1 + (p - acc))

def decodeTriangular (p m : Nat) : Nat × Nat := decodeLoop p m m 0 0

/-- Each thread takes one pair; there may be more pairs than threads. -/
def pairSplits (pool : List UInt512) : List Split :=
  let m := pool.length
  (List.range refineBlockSize).filterMap fun tid =>
    if tid < m * (m - 1) / 2 then
      let (i, j) := decodeTriangular tid m
      splitPair (pool.getD i (ofUInt32 0)) (pool.getD j (ofUInt32 0))
    else none

/-! ## The next pool -/

namespace Split

def fragments (split : Split) : List UInt512 := [split.g, split.aDivG, split.bDivG]

def involves (split : Split) (entry : UInt512) : Bool :=
  entry == split.g.mult split.aDivG || entry == split.g.mult split.bDivG

end Split

def push (tmp : List UInt512) (entry : UInt512) : List UInt512 :=
  if tmp.length < maxPool * 2 then tmp ++ [entry] else tmp

def collect (N : UInt512) (pool : List UInt512) (splits : List Split) : List UInt512 :=
  let tmp := (splits.flatMap Split.fragments).foldl
    (fun tmp entry => if nontrivial N entry then push tmp entry else tmp) []
  pool.foldl (fun tmp entry => if splits.any (·.involves entry) then tmp else push tmp entry) tmp

def turn (N : UInt512) (pool : List UInt512) (order : List Split) : List UInt512 :=
  (distinctSort less (nontrivial N) (collect N pool (order.take maxPool))).take maxPool

/-- A turn of the loop for each order; a round without splits ends it. -/
structure Rounds (N : UInt512) (left : Nat) (pool : List UInt512)
    (orders : List (List Split)) : Prop where
  arrive : Meets (turn N) (fun pool order => order ≠ [] ∧ order.Perm (pairSplits pool)) pool orders
  bound : orders.length ≤ left
  ends : orders.length = left ∨ pairSplits (Transition.run (turn N) pool orders) = []

/-- A run of the kernel. With an empty pool it returns early; the loop leaves such a pool as it
is. -/
structure Run (N : UInt512) (dFactors : Nat → UInt512) (dFactorStatus : Nat → BitVec 32)
    (n : Nat) where
  arrivals : List Nat
  orders : List (List Split)
  arrive : arrivals.Perm (reporting dFactorStatus n)
  rounds : Rounds N maxRefineRounds (compact N dFactors arrivals) orders

namespace Run

variable {N : UInt512} {dFactors : Nat → UInt512} {dFactorStatus : Nat → BitVec 32} {n : Nat}

def pool (run : Run N dFactors dFactorStatus n) : List UInt512 := compact N dFactors run.arrivals

def last (run : Run N dFactors dFactorStatus n) : List UInt512 :=
  Transition.run (turn N) run.pool run.orders

def dRefined (run : Run N dFactors dFactorStatus n) : List UInt512 := run.last

end Run

/-! ## Pairs -/

section Pairs

variable {p m i j : Nat}

def rowStart (m : Nat) : Nat → Nat
  | 0 => 0
  | row + 1 => rowStart m row + (m - 1 - row)

theorem rowStart_mono (m : Nat) : Monotone (rowStart m) :=
  monotone_nat_of_le_succ fun _ => Nat.le_add_right _ _

private theorem rowStart_double (row rest : Nat) :
    2 * rowStart (row + rest) row + row = row * (row + 2 * rest) := by
  induction row generalizing rest with
  | zero => simp [rowStart]
  | succ row induction =>
    have earlier := induction (rest + 1)
    have rows : row + (rest + 1) = row + 1 + rest := by omega
    have wide : row + 1 + rest - 1 - row = rest := by omega
    rw [rows] at earlier
    rw [rowStart, wide]
    linear_combination earlier

theorem rowStart_self (m : Nat) : rowStart m m = m * (m - 1) / 2 := by
  have double := rowStart_double m 0
  have square : m * (m - 1) + m = m * m := by
    cases m with
    | zero => rfl
    | succ m => rw [Nat.succ_sub_one, Nat.mul_succ]
  simp only [Nat.add_zero, Nat.mul_zero] at double
  omega

theorem decodeLoop_eq {turns row : Nat} (reach : row ≤ i) (enough : i ≤ row + turns)
    (starts : rowStart m i ≤ p) (ends : p < rowStart m (i + 1)) :
    decodeLoop p m turns row (rowStart m row) = (i, i + 1 + (p - rowStart m i)) := by
  induction turns generalizing row with
  | zero =>
    have last : row = i := by omega
    rw [decodeLoop, last]
  | succ turns induction =>
    rw [decodeLoop]
    by_cases last : row = i
    · subst last
      exact if_neg (Nat.not_le.mpr ends)
    · have below : rowStart m row + (m - 1 - row) ≤ p :=
        (rowStart_mono m (show row + 1 ≤ i by omega)).trans starts
      rw [if_pos below]
      exact induction (by omega) (by omega)

theorem exists_row {rows : Nat} (inside : p < rowStart m rows) :
    ∃ i < rows, rowStart m i ≤ p ∧ p < rowStart m (i + 1) := by
  induction rows with
  | zero => exact absurd inside (Nat.not_lt_zero _)
  | succ rows induction =>
    by_cases earlier : p < rowStart m rows
    · rcases induction earlier with ⟨i, below, row⟩
      exact ⟨i, by omega, row⟩
    · exact ⟨rows, by omega, by omega, inside⟩

theorem decodeTriangular_pair (inside : p < m * (m - 1) / 2) :
    ∃ i j, i < j ∧ j < m ∧ decodeTriangular p m = (i, j) ∧ p = rowStart m i + (j - (i + 1)) := by
  rw [← rowStart_self] at inside
  rcases exists_row inside with ⟨i, below, starts, ends⟩
  have row := ends
  rw [rowStart] at row
  exact ⟨i, i + 1 + (p - rowStart m i), by omega, by omega,
    decodeLoop_eq (Nat.zero_le i) (by omega) starts ends, by omega⟩

theorem decodeTriangular_rowStart (below : i < j) (inside : j < m) :
    rowStart m i + (j - (i + 1)) < m * (m - 1) / 2 ∧
      decodeTriangular (rowStart m i + (j - (i + 1))) m = (i, j) := by
  have ends : rowStart m i + (j - (i + 1)) < rowStart m (i + 1) := by
    rw [rowStart]
    omega
  constructor
  · rw [← rowStart_self]
    exact ends.trans_le (rowStart_mono m (show i + 1 ≤ m by omega))
  · have decoded := @decodeLoop_eq (rowStart m i + (j - (i + 1))) m i m 0 (Nat.zero_le i) (by omega)
      (Nat.le_add_right _ _) ends
    rw [decodeTriangular]
    refine decoded.trans (Prod.ext rfl ?_)
    simp only
    omega

end Pairs

/-! ## Splits -/

structure ProperFactor (N entry : UInt512) : Prop where
  divides : entry.toNat ∣ N.toNat
  above : 1 < entry.toNat
  below : entry.toNat < N.toNat

instance (N entry : UInt512) : Decidable (ProperFactor N entry) :=
  decidable_of_iff
    (entry.toNat ∣ N.toNat ∧ 1 < entry.toNat ∧ entry.toNat < N.toNat)
    ⟨fun ⟨divides, above, below⟩ => ⟨divides, above, below⟩,
      fun ⟨divides, above, below⟩ => ⟨divides, above, below⟩⟩

def ProperPool (N : UInt512) (pool : List UInt512) : Prop := ∀ entry ∈ pool, ProperFactor N entry

section Splits

variable {N a b entry : UInt512} {pool : List UInt512} {split : Split}

theorem ProperFactor.of_dvd (proper : ProperFactor N a) (divides : entry.toNat ∣ a.toNat)
    (more : entry.toNat ≠ 1) : ProperFactor N entry := by
  have positive : 0 < a.toNat := Nat.zero_lt_of_lt proper.above
  have entryPositive := Nat.pos_of_dvd_of_pos divides positive
  exact ⟨divides.trans proper.divides, by omega,
    (Nat.le_of_dvd positive divides).trans_lt proper.below⟩

theorem nontrivial_iff : nontrivial N entry = true ↔ entry.toNat ≠ 1 ∧ entry.toNat ≠ N.toNat := by
  rw [nontrivial, Bool.and_eq_true, Bool.not_eq_true', Bool.not_eq_true', ← Bool.not_eq_true,
    isOne_iff, beq_eq_false_iff_ne, ne_eq, ne_eq, ne_eq, toNat_inj]

theorem ProperFactor.nontrivial (proper : ProperFactor N entry) :
    RefineFactors.nontrivial N entry = true :=
  nontrivial_iff.mpr ⟨proper.above.ne', proper.below.ne⟩

theorem splitPair_eq (a b : UInt512) : splitPair a b =
    if Crosses a.toNat b.toNat then some ⟨a.gcd b, a.div (a.gcd b), b.div (a.gcd b)⟩
    else none := by
  have test : (!(a.gcd b).isOne && !(a.gcd b == a) && !(a.gcd b == b)) = true ↔
      Crosses a.toNat b.toNat := by
    rw [Crosses, ← toNat_gcd, Bool.and_eq_true, Bool.and_eq_true, Bool.not_eq_true',
      Bool.not_eq_true', Bool.not_eq_true', ← Bool.not_eq_true, isOne_iff, beq_eq_false_iff_ne,
      beq_eq_false_iff_ne, ne_eq, ne_eq, ne_eq, ne_eq, ne_eq, toNat_inj, toNat_inj, and_assoc]
  rw [splitPair]
  exact if_congr test rfl rfl

structure Splits (pool : List UInt512) (split : Split) (a b : UInt512) : Prop where
  left : a ∈ pool
  right : b ∈ pool
  crosses : Crosses a.toNat b.toNat
  eq : split = ⟨a.gcd b, a.div (a.gcd b), b.div (a.gcd b)⟩

/-- A thread that records a split has found a pair that crosses. -/
theorem pair_of_thread {tid : Nat} (found : (if tid < pool.length * (pool.length - 1) / 2 then
      let (i, j) := decodeTriangular tid pool.length
      splitPair (pool.getD i (ofUInt32 0)) (pool.getD j (ofUInt32 0))
    else none) = some split) :
    ∃ i j, ∃ (below : i < j) (inside : j < pool.length),
      tid = rowStart pool.length i + (j - (i + 1)) ∧
      decodeTriangular tid pool.length = (i, j) ∧ Splits pool split pool[i] pool[j] := by
  split at found
  · next inside =>
      rcases decodeTriangular_pair inside with ⟨i, j, pair, below, decoded, isTid⟩
      rw [decoded] at found
      dsimp only at found
      rw [splitPair_eq, List.getD_eq_getElem _ _ (pair.trans below),
        List.getD_eq_getElem _ _ below] at found
      split at found
      · next crosses =>
          exact ⟨i, j, pair, below, isTid, decoded, List.getElem_mem _, List.getElem_mem _, crosses,
            (Option.some.inj found).symm⟩
      · exact absurd found.symm (Option.some_ne_none _)
  · exact absurd found.symm (Option.some_ne_none _)

theorem splits_of_mem (member : split ∈ pairSplits pool) : ∃ a b, Splits pool split a b := by
  rcases List.mem_filterMap.mp member with ⟨tid, -, found⟩
  rcases pair_of_thread found with ⟨i, j, _, _, -, -, of⟩
  exact ⟨_, _, of⟩

/-- With at most 16 entries every pair has its thread. -/
theorem exists_split (few : pool.length ≤ 16) (left : a ∈ pool) (right : b ∈ pool)
    (crosses : Crosses a.toNat b.toNat) :
    ∃ split ∈ pairSplits pool, Splits pool split a b ∨ Splits pool split b a := by
  have found : ∀ i j : Nat, (below : i < j) → (inside : j < pool.length) →
      Crosses (pool[i]).toNat (pool[j]).toNat →
        ∃ split ∈ pairSplits pool, Splits pool split pool[i] pool[j] := by
    intro i j below inside crosses
    have decoded := decodeTriangular_rowStart below inside
    have square := Nat.mul_le_mul few (Nat.sub_le_sub_right few 1)
    refine ⟨_, List.mem_filterMap.mpr ⟨rowStart pool.length i + (j - (i + 1)),
      List.mem_range.mpr (by rw [refineBlockSize]; omega), ?_⟩,
      List.getElem_mem _, List.getElem_mem _, crosses, rfl⟩
    rw [if_pos decoded.1, decoded.2]
    simp only
    rw [splitPair_eq, List.getD_eq_getElem _ _ (below.trans inside),
      List.getD_eq_getElem _ _ inside, if_pos crosses]
  rcases List.getElem_of_mem left with ⟨i, inside, rfl⟩
  rcases List.getElem_of_mem right with ⟨j, inside', rfl⟩
  rcases Nat.lt_trichotomy i j with below | same | above
  · rcases found i j below inside' crosses with ⟨split, member, of⟩
    exact ⟨split, member, .inl of⟩
  · subst same
    exact absurd crosses (not_crosses_self _)
  · rcases found j i above inside crosses.symm with ⟨split, member, of⟩
    exact ⟨split, member, .inr of⟩

end Splits

/-! ## One round -/

def everything (pool : List UInt512) (splits : List Split) : List UInt512 :=
  splits.flatMap Split.fragments ++ pool.filter fun entry => !splits.any (·.involves entry)

structure Keeps (pool : List UInt512) (splits : List Split) : Prop where
  collected : ∀ entry ∈ everything pool splits, entry ∈ (everything pool splits).take (maxPool * 2)
  fits : (everything pool splits).dedup.length ≤ maxPool

section Round

variable {N a b entry : UInt512} {pool : List UInt512} {split : Split} {splits order : List Split}

theorem Splits.involves_iff (proper : ProperPool N pool)
    (of : Splits pool split a b) : split.involves entry = true ↔ entry = a ∨ entry = b := by
  have left := Nat.zero_lt_of_lt (proper a of.left).above
  have right := Nat.zero_lt_of_lt (proper b of.right).above
  have leftPart : (a.gcd b).toNat ∣ a.toNat := toNat_gcd a b ▸ Nat.gcd_dvd_left _ _
  have rightPart : (a.gcd b).toNat ∣ b.toNat := toNat_gcd a b ▸ Nat.gcd_dvd_right _ _
  rw [of.eq, Split.involves, mult_div a left leftPart, mult_div b right rightPart,
    Bool.or_eq_true, beq_iff_eq, beq_iff_eq]

theorem Splits.toNat (proper : ProperPool N pool)
    (of : Splits pool split a b) : split.g.toNat = a.toNat.gcd b.toNat ∧
      split.aDivG.toNat = a.toNat / a.toNat.gcd b.toNat ∧
      split.bDivG.toNat = b.toNat / a.toNat.gcd b.toNat := by
  have left := Nat.zero_lt_of_lt (proper a of.left).above
  have nonzero : (a.gcd b).toNat ≠ 0 := by
    rw [toNat_gcd]
    exact (Nat.gcd_pos_of_pos_left _ left).ne'
  rw [of.eq, toNat_div a nonzero, toNat_div b nonzero, toNat_gcd]
  exact ⟨rfl, rfl, rfl⟩

theorem mem_fragments {entry : UInt512} : entry ∈ split.fragments ↔
    entry = split.g ∨ entry = split.aDivG ∨ entry = split.bDivG := by
  rw [Split.fragments, List.mem_cons, List.mem_cons, List.mem_singleton]

theorem Splits.fragment (proper : ProperPool N pool)
    (of : Splits pool split a b) (member : entry ∈ split.fragments) :
    ProperFactor N entry ∧ ∃ whole ∈ pool, entry.toNat ∣ whole.toNat := by
  rcases of.toNat proper with ⟨g, aDivG, bDivG⟩
  have more := of.crosses.1
  have leftPart := Nat.gcd_dvd_left a.toNat b.toNat
  have rightPart := Nat.gcd_dvd_right a.toNat b.toNat
  rcases mem_fragments.mp member with rfl | rfl | rfl
  · rw [← g] at leftPart more
    exact ⟨(proper a of.left).of_dvd leftPart more, a, of.left, leftPart⟩
  · have part : split.aDivG.toNat ∣ a.toNat := aDivG ▸ Nat.div_dvd_of_dvd leftPart
    have cofactor : split.aDivG.toNat ≠ 1 := aDivG ▸ of.crosses.cofactor_ne_one
    exact ⟨(proper a of.left).of_dvd part cofactor, a, of.left, part⟩
  · have part : split.bDivG.toNat ∣ b.toNat := bDivG ▸ Nat.div_dvd_of_dvd rightPart
    have cofactor : split.bDivG.toNat ≠ 1 := by
      rw [bDivG, Nat.gcd_comm]
      exact of.crosses.symm.cofactor_ne_one
    exact ⟨(proper b of.right).of_dvd part cofactor, b, of.right, part⟩

theorem piece_of_mem_everything (proper : ProperPool N pool)
    (comes : ∀ split ∈ splits, split ∈ pairSplits pool)
    (member : entry ∈ everything pool splits) :
    ProperFactor N entry ∧ ∃ whole ∈ pool, entry.toNat ∣ whole.toNat := by
  rcases List.mem_append.mp member with found | kept
  · rcases List.mem_flatMap.mp found with ⟨split, splitMember, fragment⟩
    rcases splits_of_mem (comes split splitMember) with ⟨a, b, of⟩
    exact of.fragment proper fragment
  · have old := (List.mem_filter.mp kept).1
    exact ⟨proper entry old, entry, old, dvd_rfl⟩

private theorem foldl_push {items tmp : List UInt512} (short : tmp.length ≤ maxPool * 2) :
    items.foldl push tmp = (tmp ++ items).take (maxPool * 2) := by
  induction items generalizing tmp with
  | nil => rw [List.append_nil, List.take_of_length_le short, List.foldl_nil]
  | cons item items induction =>
    rw [List.foldl_cons, push]
    split
    · next room =>
        rw [induction (by rw [List.length_append, List.length_singleton]; omega),
          List.append_assoc, List.singleton_append]
    · next full =>
        have last : tmp.length = maxPool * 2 := by omega
        rw [induction short, List.take_append_of_le_length last.ge,
          List.take_append_of_le_length last.ge]

theorem collect_eq (proper : ProperPool N pool)
    (comes : ∀ split ∈ splits, split ∈ pairSplits pool) :
    collect N pool splits = (everything pool splits).take (maxPool * 2) := by
  have fragments : (splits.flatMap Split.fragments).filter (nontrivial N) =
      splits.flatMap Split.fragments := by
    refine List.filter_eq_self.mpr fun entry member => ?_
    exact (piece_of_mem_everything proper comes (List.mem_append_left _ member)).1.nontrivial
  have uninvolved (tmp : List UInt512) : pool.foldl
      (fun tmp entry => if splits.any (·.involves entry) then tmp else push tmp entry) tmp =
        (pool.filter fun entry => !splits.any (·.involves entry)).foldl push tmp := by
    rw [List.foldl_filter]
    congr 1
    funext tmp entry
    cases splits.any (·.involves entry) <;> rfl
  rw [collect, ← List.foldl_filter, fragments, uninvolved, ← List.foldl_append,
    foldl_push (Nat.zero_le _), List.nil_append, everything]

theorem comes_of_perm (arrive : order.Perm (pairSplits pool)) :
    ∀ split ∈ order.take maxPool, split ∈ pairSplits pool :=
  fun _ member => arrive.mem_iff.mp (List.mem_of_mem_take member)

section

variable (proper : ProperPool N pool) (arrive : order.Perm (pairSplits pool))

include proper arrive

theorem mem_everything_of_mem_turn (member : entry ∈ turn N pool order) :
    entry ∈ everything pool (order.take maxPool) := by
  have sorted := List.mem_of_mem_take member
  rw [mem_distinctSort, collect_eq proper (comes_of_perm arrive)] at sorted
  exact List.mem_of_mem_take sorted.1

theorem turn_proper : ProperPool N (turn N pool order) :=
  fun _ member => (piece_of_mem_everything proper (comes_of_perm arrive)
    (mem_everything_of_mem_turn proper arrive member)).1

theorem turn_pieces : ∀ entry ∈ turn N pool order, ∃ whole ∈ pool, entry.toNat ∣ whole.toNat :=
  fun _ member => (piece_of_mem_everything proper (comes_of_perm arrive)
    (mem_everything_of_mem_turn proper arrive member)).2

theorem mem_turn_of_keeps (keeps : Keeps pool (order.take maxPool))
    (member : entry ∈ everything pool (order.take maxPool)) : entry ∈ turn N pool order := by
  have comes := comes_of_perm arrive
  have short : (distinctSort less (nontrivial N)
      (collect N pool (order.take maxPool))).length ≤ maxPool := by
    refine (length_distinctSort_le less _ toNat_injective less_iff _).trans ?_
    rw [collect_eq proper comes]
    refine (List.Subperm.length_le ?_).trans keeps.fits
    refine List.subperm_of_subset (List.nodup_dedup _) fun entry inside => ?_
    exact List.mem_dedup.mpr (List.mem_of_mem_take (List.mem_dedup.mp inside))
  rw [turn, List.take_of_length_le short, mem_distinctSort, collect_eq proper comes]
  exact ⟨keeps.collected entry member, (piece_of_mem_everything proper comes member).1.nontrivial⟩

end

theorem pairwise_turn (pool : List UInt512) (order : List Split) :
    (turn N pool order).Pairwise (·.toNat < ·.toNat) :=
  (pairwise_distinctSort less _ toNat_injective less_iff _).sublist (List.take_sublist _ _)

theorem turn_ne_nil (proper : ProperPool N pool)
    (arrive : order.Perm (pairSplits pool)) (splits : order ≠ []) : turn N pool order ≠ [] := by
  rcases List.exists_cons_of_ne_nil splits with ⟨split, rest, rfl⟩
  have comes := comes_of_perm arrive
  have found : split.g ∈ collect N pool ((split :: rest).take maxPool) := by
    rw [collect_eq proper comes]
    exact List.mem_cons_self
  have proper := (piece_of_mem_everything proper comes (List.mem_append_left _
    (List.mem_flatMap.mpr ⟨split, List.mem_cons_self, mem_fragments.mpr (.inl rfl)⟩))).1
  intro empty
  have sorted := (mem_distinctSort less (nontrivial N)).mpr ⟨found, proper.nontrivial⟩
  rw [turn, List.take_eq_nil_iff] at empty
  rcases empty with none | empty
  · exact absurd none (by decide)
  · exact List.ne_nil_of_mem sorted empty

end Round

end CudaMpqs.RefineFactors
