import Mathlib.Algebra.BigOperators.Fin
import CudaMpqs.Lingen.InitBasis

/-! # Host and device agree on the basis

The fully reduced basis of the device and the echelon of the host leave the same residue of
every column, so both accept the same columns. -/

namespace CudaMpqs.Lingen.InitBasis

open Function PivotReduction

/-! ## Columns -/

theorem bitAt_hostColumn (S : List (List (BitVec 64))) (m n i j p : Nat) :
    bitAt (hostColumn S m n i j) p = (decide (p < m) && getBitRm (S.getD i []) n p j) := by
  induction m with
  | zero => simp [hostColumn]
  | succ m induction =>
    rw [hostColumn, List.range_succ, List.foldl_append, List.foldl_cons, List.foldl_nil,
      ← hostColumn]
    have bounds : decide (p < m + 1) = (decide (p < m) || decide (p = m)) := by
      rw [← Bool.decide_or]
      exact decide_eq_decide.mpr Nat.lt_succ_iff_lt_or_eq
    rw [bounds]
    by_cases same : p = m
    · subst same
      cases set : getBitRm (S.getD i []) n p j with
      | true => simp only [if_true, bitAt_setBit, decide_true, Bool.or_true, Bool.and_true]
      | false =>
        rw [if_neg Bool.false_ne_true, induction, set, Bool.and_false, Bool.and_false]
    · rw [decide_eq_false same, Bool.or_false, ← induction]
      split
      · rw [bitAt_setBit, decide_eq_false same, Bool.or_false]
      · rfl

theorem getD_flatten {S : List (List (BitVec 64))} {size : Nat}
    (sized : ∀ term ∈ S, term.length = size) (i : Nat) {k : Nat} (inside : k < size) :
    S.flatten.getD (i * size + k) 0 = (S.getD i []).getD k 0 := by
  induction S generalizing i with
  | nil => simp
  | cons term S induction =>
    have length := sized term List.mem_cons_self
    rw [List.flatten_cons]
    cases i with
    | zero =>
      rw [Nat.zero_mul, Nat.zero_add, List.getD_append _ _ _ _ (by omega)]
      rfl
    | succ i =>
      have offset : (i + 1) * size + k - term.length = i * size + k := by
        rw [length, Nat.succ_mul]
        omega
      rw [List.getD_append_right _ _ _ _ (by rw [length, Nat.succ_mul]; omega), offset,
        induction (fun term member => sized term (List.mem_cons_of_mem _ member))]
      rfl

section Columns

variable {S : List (List (BitVec 64))} {m n : Nat}

theorem lt_wordsFor {j : Nat} (inside : j < n) : j / 64 < wordsFor n := by
  rw [wordsFor]
  omega

theorem bitAt_deviceColumn (sized : ∀ term ∈ S, term.length = m * wordsFor n) {i c jj : Nat}
    (below : jj < 64) (inside : 64 * c + jj < n) (p : Nat) :
    bitAt (deviceColumn S.flatten m n i c jj) p =
      (decide (p < m) && getBitRm (S.getD i []) n p (64 * c + jj)) := by
  have column : (64 * c + jj) / 64 = c ∧ (64 * c + jj) % 64 = jj := by omega
  have owned : ∀ (lane : Lane) (k : Nat), lane.val + 32 * k = p →
      (ownedWord S.flatten m n i c lane k).getLsbD jj =
        (decide (p < m) && getBitRm (S.getD i []) n p (64 * c + jj)) := by
    intro lane k row
    rw [ownedWord, row]
    by_cases isRow : p < m
    · have word := lt_wordsFor inside
      rw [column.1] at word
      have place : p * wordsFor n + c < m * wordsFor n :=
        Nat.lt_of_lt_of_le (Nat.add_lt_add_left word _)
          ((Nat.succ_mul p (wordsFor n)).symm.trans_le (Nat.mul_le_mul_right _ isRow))
      rw [if_pos isRow, Nat.add_assoc, getD_flatten sized i place, getBitRm, column.1, column.2,
        decide_eq_true isRow, Bool.true_and]
    · rw [if_neg isRow, decide_eq_false isRow, Bool.false_and]
      exact BitVec.getLsbD_zero
  have word : p = 64 * (p / 64) + p % 64 := (Nat.div_add_mod p 64).symm
  have small : p % 64 < 64 := Nat.mod_lt p (by decide)
  rw [bitAt, deviceColumn]
  simp only [BitVec.getLsbD_or, BitVec.getLsbD_shiftLeft, BitVec.getLsbD_setWidth]
  by_cases low : p % 64 < 32
  · have lane := getLsbD_ballot (fun lane =>
      (ownedWord S.flatten m n i c lane (2 * (p / 64))).getLsbD jj) ⟨p % 64, low⟩
    rw [owned _ _ (by change p % 64 + 32 * (2 * (p / 64)) = p; omega)] at lane
    simp only [small, low, lane, decide_true, Bool.true_and, Bool.not_true, Bool.and_false,
      Bool.false_and, Bool.or_false]
  · have lane := getLsbD_ballot (fun lane =>
      (ownedWord S.flatten m n i c lane (2 * (p / 64) + 1)).getLsbD jj) ⟨p % 64 - 32, by omega⟩
    rw [owned _ _ (by change p % 64 - 32 + 32 * (2 * (p / 64) + 1) = p; omega)] at lane
    have above : (ballot fun lane =>
        (ownedWord S.flatten m n i c lane (2 * (p / 64))).getLsbD jj).getLsbD (p % 64) = false :=
      BitVec.getLsbD_of_ge _ _ (by omega)
    have shifted : p % 64 - 32 < 64 := by omega
    simp only [small, low, lane, above, shifted, decide_true, decide_false, Bool.true_and,
      Bool.and_true, Bool.not_false, Bool.and_false, Bool.false_or]

theorem coords_deviceColumn (sized : ∀ term ∈ S, term.length = m * wordsFor n) {i c jj : Nat}
    (below : jj < 64) (inside : 64 * c + jj < n) :
    coords (deviceColumn S.flatten m n i c jj) = coords (hostColumn S m n i (64 * c + jj)) := by
  funext p
  rw [coords, coords, bitAt_deviceColumn sized below inside, bitAt_hostColumn]

end Columns

/-! ## Residues -/

def pivotSet (m : Nat) (pivotFound : Nat → Bool) : Finset Nat :=
  (Finset.range m).filter fun p => pivotFound p

theorem mem_pivotSet {m : Nat} {pivotFound : Nat → Bool} {p : Nat} :
    p ∈ pivotSet m pivotFound ↔ p < m ∧ pivotFound p = true := by
  rw [pivotSet, Finset.mem_filter, Finset.mem_range]

/-- Subtracting a multiple is adding it where the coordinate is one. -/
theorem sub_smul_coords (v w : Words) (p : Nat) (u : Nat → ZMod 2) :
    u - coords v p • coords w = if bitAt v p then u + coords w else u := by
  rw [coords]
  split
  · rw [one_smul]
    funext position
    exact CharTwo.sub_eq_add (u position) (coords w position)
  · rw [zero_smul, sub_zero]

section Residues

variable {m mw : Nat} {host : HostState} {device : DeviceState}

private theorem coords_hostReduce (v : Words) :
    coords (hostReduce host m v) = ((List.range m).filter host.pivotFound).foldl
      (clear fun p => coords (host.basisVecs p)) (coords v) := by
  rw [hostReduce, List.foldl_filter]
  induction List.range m generalizing v with
  | nil => rfl
  | cons p rows induction =>
    rw [List.foldl_cons, List.foldl_cons, induction]
    congr 1
    split
    · rw [clear, sub_smul_coords]
      split
      · exact coords_xorWords _ _
      · rfl
    · rfl

theorem hostReduce_residue
    (echelon : Echelon (pivotSet m host.pivotFound) fun p => coords (host.basisVecs p))
    {space : Submodule (ZMod 2) (Nat → ZMod 2)}
    (inside : ∀ p ∈ pivotSet m host.pivotFound, coords (host.basisVecs p) ∈ space) (v : Words) :
    Residue (pivotSet m host.pivotFound) space (coords v) (coords (hostReduce host m v)) := by
  have members : ∀ p, p ∈ (List.range m).filter host.pivotFound ↔
      p ∈ pivotSet m host.pivotFound := by
    intro p
    rw [List.mem_filter, List.mem_range, mem_pivotSet]
  rcases echelon.residue_foldl inside (List.pairwise_lt_range.filter host.pivotFound)
    (fun p member => (members p).mp member) (coords v) with ⟨congruent, vanishes, -⟩
  rw [coords_hostReduce]
  exact ⟨congruent, fun p member => vanishes p ((members p).mpr member)⟩

theorem sum_lanes {M : Type} [AddCommMonoid M] (f : Nat → M) (slabs : Nat) :
    ∑ lane : Lane, ∑ k ∈ Finset.range slabs, f (lane.val + 32 * k) =
      ∑ p ∈ Finset.range (32 * slabs), f p := by
  rw [Finset.sum_comm]
  induction slabs with
  | zero => rfl
  | succ slabs induction =>
    rw [Finset.sum_range_succ, induction, Nat.mul_succ, Finset.sum_range_add]
    congr 1
    rw [Finset.sum_range]
    exact Finset.sum_congr rfl fun lane _ => by rw [Nat.add_comm]

theorem coords_accumulate (v : Words) (lane : Lane) (position : Nat) :
    coords (accumulate device m mw v lane) position = ∑ k ∈ Finset.range (2 * mw),
      if lane.val + 32 * k < m ∧ bitAt device.piv (lane.val + 32 * k) = true ∧
          bitAt v (lane.val + 32 * k) = true then
        coords (device.B (lane.val + 32 * k)) position else 0 := by
  have folded : ∀ slabs acc, coords (fun w => (List.range slabs).foldl (fun acc k =>
      if lane.val + 32 * k < m ∧ (device.piv (k / 2) &&& v (k / 2)).getLsbD
          (lane.val + 32 * (k % 2)) then acc ^^^ device.B (lane.val + 32 * k) w else acc) (acc w))
        position = coords acc position + ∑ k ∈ Finset.range slabs,
      if lane.val + 32 * k < m ∧ bitAt device.piv (lane.val + 32 * k) = true ∧
          bitAt v (lane.val + 32 * k) = true then
        coords (device.B (lane.val + 32 * k)) position else 0 := by
    intro slabs acc
    induction slabs with
    | zero => simp
    | succ slabs induction =>
      have row : (lane.val + 32 * slabs) / 64 = slabs / 2 ∧
          (lane.val + 32 * slabs) % 64 = lane.val + 32 * (slabs % 2) := by
        have bound := lane.isLt
        omega
      have chosen : (lane.val + 32 * slabs < m ∧ (device.piv (slabs / 2) &&&
            v (slabs / 2)).getLsbD (lane.val + 32 * (slabs % 2)) = true) ↔
          lane.val + 32 * slabs < m ∧ bitAt device.piv (lane.val + 32 * slabs) = true ∧
            bitAt v (lane.val + 32 * slabs) = true := by
        rw [BitVec.getLsbD_and, Bool.and_eq_true, bitAt, bitAt, row.1, row.2]
      rw [Finset.sum_range_succ, ← add_assoc, ← induction]
      simp only [List.range_succ, List.foldl_append, List.foldl_cons, List.foldl_nil, chosen]
      split
      · exact congrFun (coords_xorWords _ (device.B (lane.val + 32 * slabs))) position
      · rw [add_zero]
  have start : coords (fun _ => 0) position = 0 := coords_eq_zero_iff.mpr BitVec.getLsbD_zero
  refine (folded (2 * mw) fun _ => 0).trans ?_
  rw [start, zero_add]

def wordBit (b : Nat) (word : BitVec 64) : ZMod 2 := if word.getLsbD b then 1 else 0

private theorem wordBit_xor (b : Nat) (left right : BitVec 64) :
    wordBit b (left ^^^ right) = wordBit b left + wordBit b right := by
  rw [wordBit, BitVec.getLsbD_xor, ite_xor]
  rfl

/-- All lanes hold the same residue: the column without its part at the pivots. -/
theorem coords_deviceReduce (enough : m ≤ 64 * mw)
    (pivots : ∀ p, host.pivotFound p = bitAt device.piv p) (v : Words) (lane : Lane) :
    coords (deviceReduce device m mw v lane) = coords v -
      ∑ p ∈ pivotSet m host.pivotFound, coords v p • coords (device.B p) := by
  funext position
  have word : coords (fun w => butterfly (· ^^^ ·)
      (fun lane => accumulate device m mw v lane w) lane) position =
        ∑ lane, coords (accumulate device m mw v lane) position := by
    have sum := butterfly_map (wordBit_xor (position % 64))
      (fun lane => accumulate device m mw v lane (position / 64)) lane
    rw [butterfly_add] at sum
    exact sum
  have split : coords (deviceReduce device m mw v lane) position = coords v position +
      ∑ lane, coords (accumulate device m mw v lane) position := by
    rw [← word]
    exact congrFun (coords_xorWords v _) position
  have rows : ∑ lane, coords (accumulate device m mw v lane) position =
      ∑ p ∈ Finset.range (32 * (2 * mw)),
        if p < m ∧ bitAt device.piv p = true ∧ bitAt v p = true then coords (device.B p) position
        else 0 := by
    rw [← sum_lanes]
    exact Finset.sum_congr rfl fun lane _ => coords_accumulate v lane position
  have pivot : ∀ p ∈ pivotSet m host.pivotFound, (coords v p • coords (device.B p)) position =
        if p < m ∧ bitAt device.piv p = true ∧ bitAt v p = true then coords (device.B p) position
        else 0 := by
    intro p member
    rcases mem_pivotSet.mp member with ⟨isRow, isPivot⟩
    rw [pivots p] at isPivot
    rw [Pi.smul_apply, coords]
    by_cases set : bitAt v p = true
    · rw [if_pos set, if_pos ⟨isRow, isPivot, set⟩, one_smul]
    · rw [if_neg set, if_neg fun all => set all.2.2, zero_smul]
  rw [split, Pi.sub_apply, CharTwo.sub_eq_add, Finset.sum_apply, rows]
  refine congrArg (coords v position + ·) (Finset.sum_subset_zero_on_sdiff ?_ ?_ pivot).symm
  · intro p member
    have isRow := (mem_pivotSet.mp member).1
    rw [Finset.mem_range]
    omega
  · intro p outside
    rw [Finset.mem_sdiff, mem_pivotSet, pivots p] at outside
    exact if_neg fun all => outside.2 ⟨all.1, all.2.1⟩

end Residues

/-! ## Pivots -/

private theorem lowest_eq_find (mw : Nat) (r : Words) : lowest mw r =
    ((List.range mw).find? fun w => r w ≠ 0).map fun w => 64 * w + (r w).ctz.toNat := by
  rw [lowest]
  induction List.range mw with
  | nil => rfl
  | cons w words induction =>
    rw [List.foldr_cons, induction, List.find?_cons]
    by_cases nonzero : r w ≠ 0
    · rw [if_pos nonzero, decide_eq_true nonzero]
      rfl
    · rw [if_neg nonzero, decide_eq_false nonzero]

theorem lowest_spec (mw : Nat) (r : Words) : match lowest mw r with
    | none => ∀ p < 64 * mw, bitAt r p = false
    | some q => q < 64 * mw ∧ bitAt r q = true ∧ ∀ p < q, bitAt r p = false := by
  have empty : ∀ p, r (p / 64) = 0 → bitAt r p = false := by
    intro p zero
    rw [bitAt, zero]
    exact BitVec.getLsbD_zero
  rw [lowest_eq_find]
  cases found : (List.range mw).find? fun w => r w ≠ 0 with
  | none =>
    rw [List.find?_range_eq_none] at found
    intro p inside
    exact empty p (by simpa using found (p / 64) (by omega))
  | some w =>
    rw [List.find?_range_eq_some] at found
    rcases found with ⟨nonzero, inside, earlier⟩
    have nonzero : r w ≠ 0 := by simpa using nonzero
    have small : (r w).ctz.toNat < 64 := by
      simpa [BitVec.lt_def] using BitVec.ctz_lt_iff_ne_zero.mpr nonzero
    have place : (64 * w + (r w).ctz.toNat) / 64 = w ∧
        (64 * w + (r w).ctz.toNat) % 64 = (r w).ctz.toNat := by omega
    rw [List.mem_range] at inside
    refine ⟨show 64 * w + (r w).ctz.toNat < 64 * mw by omega, ?_, ?_⟩
    · change bitAt r (64 * w + (r w).ctz.toNat) = true
      rw [bitAt, place.1, place.2]
      exact BitVec.getLsbD_true_ctz_of_ne_zero nonzero
    · intro p below
      change p < 64 * w + (r w).ctz.toNat at below
      by_cases word : p / 64 = w
      · rw [bitAt, word]
        exact BitVec.getLsbD_false_of_lt_ctz (by omega)
      · exact empty p (by simpa using earlier (p / 64) (by omega))

theorem lowest_eq {m mw : Nat} (enough : m ≤ 64 * mw) {r : Words}
    (bounded : ∀ row, m ≤ row → bitAt r row = false) :
    lowest mw r = (List.range m).find? (bitAt r) := by
  have spec := lowest_spec mw r
  cases found : lowest mw r with
  | none =>
    rw [found] at spec
    rw [eq_comm, List.find?_range_eq_none]
    intro p inside
    rw [spec p (by omega)]
    rfl
  | some q =>
    rw [found] at spec
    rcases spec with ⟨-, set, earlier⟩
    have inside : q < m := by
      by_contra outside
      rw [bounded q (Nat.le_of_not_lt outside)] at set
      cases set
    rw [eq_comm, List.find?_range_eq_some]
    refine ⟨set, List.mem_range.mpr inside, ?_⟩
    intro p below
    rw [earlier p below]
    rfl

/-! ## Agreement -/

/-- The host's echelon and the reduced basis of the device have the same pivots, and the
device spans what the host stores. -/
structure Agrees (m : Nat) (host : HostState) (device : DeviceState) : Prop where
  pairs : host.pairs = device.pairs
  rank : host.rank = device.rank
  count : host.rank = host.pairs.length
  pivots : ∀ p, host.pivotFound p = bitAt device.piv p
  inside : ∀ p, host.pivotFound p = true → p < m
  echelon : Echelon (pivotSet m host.pivotFound) fun p => coords (host.basisVecs p)
  reduced : Reduced (pivotSet m host.pivotFound) fun p => coords (device.B p)
  spanned : ∀ p ∈ pivotSet m host.pivotFound, coords (host.basisVecs p) ∈
    spanOn (pivotSet m host.pivotFound) fun p => coords (device.B p)
  bounded : ∀ p ∈ pivotSet m host.pivotFound, ∀ row, m ≤ row → coords (device.B p) row = 0

theorem agrees_start (m : Nat) (shared : Nat → Words) : Agrees m .start (.start shared) := by
  have none : pivotSet m HostState.start.pivotFound = ∅ :=
    Finset.filter_false_of_mem fun _ _ => Bool.false_ne_true
  constructor
  · rfl
  · rfl
  · rfl
  · exact fun p => (bitAt_zero p).symm
  · exact fun p found => nomatch found
  · rw [none]
    exact ⟨fun _ member => absurd member (Finset.notMem_empty _),
      fun _ member => absurd member (Finset.notMem_empty _)⟩
  · rw [none]
    exact reduced_empty _
  · rw [none]
    exact fun _ member => absurd member (Finset.notMem_empty _)
  · rw [none]
    exact fun _ member => absurd member (Finset.notMem_empty _)

section Accept

variable {S : List (List (BitVec 64))} {m n mw : Nat} {host : HostState} {device : DeviceState}

theorem Agrees.residue (agrees : Agrees m host device) (enough : m ≤ 64 * mw) {v v' : Words}
    (same : coords v' = coords v) (lane : Lane) :
    coords (deviceReduce device m mw v' lane) = coords (hostReduce host m v) := by
  have formula := coords_deviceReduce enough agrees.pivots v' lane
  have residue := agrees.reduced.residue (coords v')
  rw [← formula, same] at residue
  exact agrees.reduced.residue_unique residue
    (hostReduce_residue agrees.echelon agrees.spanned v)

theorem Agrees.residue_bounded (agrees : Agrees m host device) (enough : m ≤ 64 * mw) {v : Words}
    (bounded : ∀ row, m ≤ row → bitAt v row = false) (lane : Lane) {row : Nat} (outside : m ≤ row) :
    bitAt (deviceReduce device m mw v lane) row = false := by
  have formula := congrFun (coords_deviceReduce enough agrees.pivots v lane) row
  rw [← coords_eq_zero_iff, formula, Pi.sub_apply, Finset.sum_apply,
    coords_eq_zero_iff.mpr (bounded row outside), Finset.sum_eq_zero, sub_zero]
  intro p member
  rw [Pi.smul_apply, agrees.bounded p member row outside, smul_zero]

/-- A candidate that both accept with the same residue. -/
theorem Agrees.extend (agrees : Agrees m host device) {first : Nat} {v : Words} {r : Lane → Words}
    (same : ∀ lane, coords (r lane) = coords v) (isFirst : bitAt v first = true)
    (earlier : ∀ p < first, bitAt v p = false) (inside : first < m)
    (vanishes : ∀ p ∈ pivotSet m host.pivotFound, coords v p = 0)
    (bounded : ∀ row, m ≤ row → coords v row = 0) (pair : Nat × Nat) :
    Agrees m
      ⟨update host.basisVecs first v, update host.pivotFound first true, host.pairs ++ [pair],
        host.rank + 1⟩
      ⟨deviceUpdate device m r first, setBit device.piv first, device.pairs ++ [pair],
        device.rank + 1⟩ := by
  have leads : coords v first = 1 := coords_eq_one_iff.mpr isFirst
  have fresh : first ∉ pivotSet m host.pivotFound := by
    intro member
    rw [vanishes first member] at leads
    exact zero_ne_one leads
  have grown : pivotSet m (update host.pivotFound first true) =
      insert first (pivotSet m host.pivotFound) := by
    ext p
    rw [Finset.mem_insert, mem_pivotSet, mem_pivotSet]
    by_cases isNew : p = first
    · rw [isNew, update_self]
      simp [inside]
    · rw [update_of_ne isNew]
      simp [isNew]
  have old : ∀ p ∈ pivotSet m host.pivotFound, p ≠ first :=
    fun p member isNew => fresh (isNew ▸ member)
  have rows : ∀ p ∈ insert first (pivotSet m host.pivotFound),
      coords (deviceUpdate device m r first p) =
        eliminate (fun p => coords (device.B p)) first (coords v) p := by
    intro p member
    by_cases isNew : p = first
    · rw [isNew, eliminate_self, deviceUpdate, if_pos rfl, same]
    · have isPivot := Finset.mem_of_mem_insert_of_ne member isNew
      rcases mem_pivotSet.mp isPivot with ⟨isRow, found⟩
      rw [agrees.pivots] at found
      rw [eliminate_of_ne isNew, deviceUpdate, if_neg isNew, sub_smul_coords]
      by_cases set : bitAt (device.B p) first = true
      · rw [if_pos ⟨isRow, found, set⟩, if_pos set, coords_xorWords, same]
      · rw [if_neg fun all => set all.2.2, if_neg set]
  have span := spanOn_congr rows
  have wider := @spanOn_le_eliminate _ _ _ _ (fun p => coords (device.B p)) _ _ fresh (coords v)
  constructor
  · rw [agrees.pairs]
  · rw [agrees.rank]
  · rw [List.length_append, ← agrees.count]
    rfl
  · intro p
    dsimp only
    rw [bitAt_setBit, ← agrees.pivots]
    by_cases isNew : p = first
    · rw [isNew, update_self, decide_eq_true rfl, Bool.or_true]
    · rw [update_of_ne isNew, decide_eq_false isNew, Bool.or_false]
  · intro p found
    by_cases isNew : p = first
    · exact isNew ▸ inside
    · dsimp only at found
      rw [update_of_ne isNew] at found
      exact agrees.inside p found
  · dsimp only
    rw [grown]
    constructor
    · intro p member
      rcases Finset.mem_insert.mp member with rfl | isOld
      · rw [update_self, leads]
      · rw [update_of_ne (old p isOld), agrees.echelon.one p isOld]
    · intro p member before below
      rcases Finset.mem_insert.mp member with rfl | isOld
      · rw [update_self]
        exact coords_eq_zero_iff.mpr (earlier before below)
      · rw [update_of_ne (old p isOld), agrees.echelon.zero p isOld before below]
  · dsimp only
    rw [grown]
    exact (agrees.reduced.eliminate vanishes leads).congr rows
  · dsimp only
    rw [grown, span]
    intro p member
    rcases Finset.mem_insert.mp member with rfl | isOld
    · have new := @vector_mem _ _ _ _ (eliminate (fun p => coords (device.B p)) p (coords v)) p
        (Finset.mem_insert_self p (pivotSet m host.pivotFound))
      rw [eliminate_self] at new
      rwa [update_self]
    · rw [update_of_ne (old p isOld)]
      exact wider (agrees.spanned p isOld)
  · dsimp only
    rw [grown]
    intro p member row outside
    rw [rows p member]
    by_cases isNew : p = first
    · rw [isNew, eliminate_self]
      exact bounded row outside
    · rw [eliminate_of_ne isNew, Pi.sub_apply, Pi.smul_apply, bounded row outside, smul_zero,
        agrees.bounded p (Finset.mem_of_mem_insert_of_ne member isNew) row outside, sub_zero]

theorem Agrees.accept (agrees : Agrees m host device)
    (sized : ∀ term ∈ S, term.length = m * wordsFor n) (enough : m ≤ 64 * mw) {i c jj : Nat}
    (below : jj < 64) (inside : 64 * c + jj < n) :
    Option.Rel (Agrees m) (hostAccept S m n host (i, 64 * c + jj))
      (deviceAccept S.flatten m n mw device (i, c, jj)) := by
  have columns := coords_deviceColumn sized below inside (i := i)
  have bounded : ∀ row, m ≤ row → bitAt (deviceColumn S.flatten m n i c jj) row = false := by
    intro row outside
    rw [bitAt_congr columns, bitAt_hostColumn, decide_eq_false (Nat.not_lt.mpr outside),
      Bool.false_and]
  have same := agrees.residue enough columns
  rw [hostAccept, deviceAccept]
  dsimp only
  split
  next zero =>
      have column : coords (deviceColumn S.flatten m n i c jj) = 0 := by
        funext row
        rw [Pi.zero_apply, coords_eq_zero_iff]
        by_cases outside : m ≤ row
        · exact bounded row outside
        · rw [bitAt, zero (row / 64) (by omega)]
          exact BitVec.getLsbD_zero
      have residue := coords_deviceReduce enough agrees.pivots (deviceColumn S.flatten m n i c jj) 0
      rw [same 0, column] at residue
      have none : (List.range m).find?
          (bitAt (hostReduce host m (hostColumn S m n i (64 * c + jj)))) = none := by
        rw [List.find?_range_eq_none]
        intro p _
        have clear : bitAt (hostReduce host m (hostColumn S m n i (64 * c + jj))) p = false := by
          rw [← coords_eq_zero_iff, residue]
          simp
        rw [clear]
        rfl
      rw [none]
      exact .none
  next nonzero =>
      have bits := funext (bitAt_congr (same 0))
      rw [lowest_eq enough fun row outside => agrees.residue_bounded enough bounded 0 outside, bits]
      cases found : (List.range m).find?
          (bitAt (hostReduce host m (hostColumn S m n i (64 * c + jj)))) with
      | none => exact .none
      | some first =>
        rw [List.find?_range_eq_some] at found
        rcases found with ⟨isFirst, isRow, earlier⟩
        refine .some (agrees.extend same isFirst ?_ (List.mem_range.mp isRow) ?_ ?_ _)
        · intro p before
          simpa using earlier p before
        · exact (hostReduce_residue agrees.echelon agrees.spanned _).vanishes
        · intro row outside
          rw [← same 0, coords_eq_zero_iff]
          exact agrees.residue_bounded enough bounded 0 outside

/-- The same candidates, with the column split into its word and its bit. -/
theorem scan_agrees (sized : ∀ term ∈ S, term.length = m * wordsFor n) (enough : m ≤ 64 * mw)
    {candidates : List (Nat × Nat × Nat)}
    (valid : ∀ candidate ∈ candidates, candidate.2.2 < 64 ∧ 64 * candidate.2.1 + candidate.2.2 < n)
    (agrees : Agrees m host device) :
    ∃ t0 host' device', Agrees m host' device' ∧
      scan (hostAccept S m n) (fun state => state.rank = m) Prod.fst
        (candidates.map fun candidate => (candidate.1, 64 * candidate.2.1 + candidate.2.2)) host =
          (t0, host') ∧
      scan (deviceAccept S.flatten m n mw) (fun state => state.rank = m) Prod.fst candidates
        device =
        (t0, device') := by
  induction candidates generalizing host device with
  | nil => exact ⟨none, host, device, agrees, rfl, rfl⟩
  | cons candidate candidates induction =>
    rcases candidate with ⟨i, c, jj⟩
    have own := valid _ List.mem_cons_self
    have rest := fun candidate member => valid candidate (List.mem_cons_of_mem _ member)
    have accept := agrees.accept sized enough own.1 own.2 (i := i)
    rw [List.map_cons, scan, scan]
    cases isHost : hostAccept S m n host (i, 64 * c + jj) with
    | none =>
      cases isDevice : deviceAccept S.flatten m n mw device (i, c, jj) with
      | none => exact induction rest agrees
      | some device' =>
        rw [isHost, isDevice] at accept
        cases accept
    | some host' =>
      cases isDevice : deviceAccept S.flatten m n mw device (i, c, jj) with
      | none =>
        rw [isHost, isDevice] at accept
        cases accept
      | some device' =>
        rw [isHost, isDevice, Option.rel_some_some] at accept
        dsimp only
        rw [accept.rank]
        by_cases full : device'.rank = m
        · exact ⟨some (i + 1), host', device', accept, by simp [full], by simp [full]⟩
        · simp only [full, decide_false, Bool.false_eq_true, if_false]
          exact induction rest accept

end Accept

/-! ## The search -/

private theorem flatMap_words (n words : Nat) : ((List.range words).flatMap fun c =>
    (List.range (min 64 (n - 64 * c))).map (64 * c + ·)) = List.range (min (64 * words) n) := by
  induction words with
  | zero => simp
  | succ words induction =>
    rw [List.range_succ, List.flatMap_append, List.flatMap_singleton, induction]
    rcases Nat.le_total (64 * words) n with within | beyond
    · have length : min (64 * (words + 1)) n = 64 * words + min 64 (n - 64 * words) := by omega
      rw [Nat.min_eq_left within, length, List.range_add]
    · have length : min (64 * (words + 1)) n = min (64 * words) n := by omega
      have empty : min 64 (n - 64 * words) = 0 := by omega
      rw [empty, length, List.range_zero, List.map_nil, List.append_nil]

theorem hostCandidates_eq (len n : Nat) : hostCandidates len n =
    (deviceCandidates len n).map fun candidate =>
      (candidate.1, 64 * candidate.2.1 + candidate.2.2) := by
  have columns : List.range n = (List.range (wordsFor n)).flatMap fun c =>
      (List.range (min 64 (n - 64 * c))).map (64 * c + ·) := by
    have all : min (64 * wordsFor n) n = n := by
      rw [wordsFor]
      omega
    rw [flatMap_words, all]
  rw [hostCandidates, deviceCandidates, List.map_flatMap, columns]
  simp only [List.map_flatMap, List.map_map]
  rfl

theorem mem_deviceCandidates {len n : Nat} {candidate : Nat × Nat × Nat}
    (member : candidate ∈ deviceCandidates len n) :
    candidate.2.2 < 64 ∧ 64 * candidate.2.1 + candidate.2.2 < n := by
  rw [deviceCandidates] at member
  simp only [List.mem_flatMap, List.mem_map, List.mem_range] at member
  rcases member with ⟨i, -, c, -, jj, inside, rfl⟩
  constructor <;> dsimp only <;> omega

theorem le_kernelWords {m : Nat} (small : m ≤ initBasisGpuMaxM) : m ≤ 64 * kernelWords m := by
  rw [initBasisGpuMaxM] at small
  rw [kernelWords, wordsFor]
  grind

theorem words_ext {left right : Words} (same : ∀ p, bitAt left p = bitAt right p) :
    left = right := by
  funext w
  apply BitVec.eq_of_getLsbD_eq
  intro b inside
  have place : (64 * w + b) / 64 = w ∧ (64 * w + b) % 64 = b := by omega
  have bit := same (64 * w + b)
  rwa [bitAt, bitAt, place.1, place.2] at bit

private theorem bitAt_packed (pivotFound : Nat → Bool) (m p : Nat) :
    bitAt ((List.range m).foldl (fun mask p => if pivotFound p then setBit mask p else mask)
      fun _ => 0) p = (decide (p < m) && pivotFound p) := by
  induction m with
  | zero => simp
  | succ m induction =>
    rw [List.range_succ, List.foldl_append, List.foldl_cons, List.foldl_nil]
    by_cases same : p = m
    · subst same
      cases found : pivotFound p with
      | true => rw [if_pos rfl, bitAt_setBit]; simp
      | false => rw [if_neg Bool.false_ne_true, induction, found, Bool.and_false, Bool.and_false]
    · have bounds : p < m + 1 ↔ p < m := by omega
      rw [decide_eq_decide.mpr bounds, ← induction]
      split
      · rw [bitAt_setBit, decide_eq_false same, Bool.or_false]
      · rfl

theorem Agrees.packPivots {m : Nat} {host : HostState} {device : DeviceState}
    (agrees : Agrees m host device) :
    (List.range (wordsFor m)).map device.piv = packPivots m host.pivotFound := by
  rw [InitBasis.packPivots]
  congr 1
  apply words_ext
  intro p
  rw [bitAt_packed, ← agrees.pivots]
  cases found : host.pivotFound p with
  | false => rw [Bool.and_false]
  | true => rw [decide_eq_true (agrees.inside p found), Bool.true_and]

section Search

variable {S : List (List (BitVec 64))} {m n : Nat}

theorem searches_agree (sized : ∀ term ∈ S, term.length = m * wordsFor n)
    (small : m ≤ initBasisGpuMaxM) (shared : Nat → Words) :
    (hostScan S m n).1 = (deviceScan shared S.flatten S.length m n (kernelWords m)).1 ∧
      Agrees m (hostScan S m n).2 (deviceScan shared S.flatten S.length m n (kernelWords m)).2 := by
  rcases scan_agrees sized (le_kernelWords small)
    (fun _ member => mem_deviceCandidates member) (agrees_start m shared)
    with ⟨t0, host, device, agrees, isHost, isDevice⟩
  rw [hostScan, deviceScan, hostCandidates_eq, isHost, isDevice]
  exact ⟨rfl, agrees⟩

/-- The host ends with a complete basis exactly when it ends early. -/
theorem hostScan_complete (supported : initBasisGpuSupported m n = true) :
    decide ((hostScan S m n).2.rank = m) = (hostScan S m n).1.isSome := by
  simp only [initBasisGpuSupported, decide_eq_true_eq] at supported
  exact @full_scan _ _ (hostAccept S m n) (fun state => state.rank = m) Prod.fst
    (hostCandidates S.length n) .start (decide_eq_false (Nat.ne_of_lt supported.1))

theorem le_maxM (supported : initBasisGpuSupported m n = true) : m ≤ initBasisGpuMaxM := by
  simp only [initBasisGpuSupported, decide_eq_true_eq] at supported
  exact supported.2.1

theorem findInitBasis_status (sized : ∀ term ∈ S, term.length = m * wordsFor n)
    (supported : initBasisGpuSupported m n = true) (shared : Nat → Words) :
    let device := findInitBasis shared S.flatten S.length m n (kernelWords m)
    (device.status = 0 ↔ device.rank = m) ∧ device.rank = device.pairs.length := by
  have agree := searches_agree sized (le_maxM supported) shared
  have complete := @hostScan_complete S m n supported
  rw [findInitBasis]
  rcases isDevice : deviceScan shared S.flatten S.length m n (kernelWords m) with ⟨t0, device⟩
  rw [isDevice] at agree
  rcases agree with ⟨sameEnd, agrees⟩
  rw [sameEnd, agrees.rank] at complete
  have count : device.rank = device.pairs.length := by
    rw [← agrees.rank, agrees.count, agrees.pairs]
  cases t0 with
  | none => exact ⟨iff_of_false Nat.one_ne_zero (of_decide_eq_false complete), count⟩
  | some t0 => exact ⟨iff_of_true rfl (of_decide_eq_true complete), count⟩

theorem download_findInitBasis (sized : ∀ term ∈ S, term.length = m * wordsFor n)
    (supported : initBasisGpuSupported m n = true) (shared : Nat → Words) :
    (findInitBasis shared S.flatten S.length m n (kernelWords m)).download m =
      findInitBasisCpu S m n := by
  have agree := searches_agree sized (le_maxM supported) shared
  have status := findInitBasis_status sized supported shared
  rw [findInitBasis] at status ⊢
  rw [findInitBasisCpu]
  rcases isDevice : deviceScan shared S.flatten S.length m n (kernelWords m) with ⟨t0, device⟩
  rcases isHost : hostScan S m n with ⟨t0', host⟩
  rw [isDevice, isHost] at agree
  rw [isDevice] at status
  rcases agree with ⟨rfl, agrees⟩
  cases t0' with
  | none =>
    have incomplete : device.rank ≠ m := fun complete =>
      absurd (status.1.mpr complete) Nat.one_ne_zero
    dsimp only [DeviceResult.download]
    rw [if_neg incomplete, if_pos Nat.one_ne_zero, agrees.packPivots, agrees.rank]
  | some t0 =>
    have rank : device.rank = m := status.1.mp rfl
    have count : device.rank = device.pairs.length := status.2
    have all : device.pairs.take m = device.pairs := by rw [← rank, count, List.take_length]
    dsimp only [DeviceResult.download]
    rw [if_pos rank, if_neg (by decide), all, agrees.rank, agrees.pairs]

end Search

end CudaMpqs.Lingen.InitBasis
