import Mathlib.Algebra.Field.ZMod
import Mathlib.Data.List.GetD
import Mathlib.Data.Matrix.Mul

/-! # Sparse host matrices

`HostMatrix` of `common.h` with the transpose of `MatrixGenerator`, and the GF(2)
matrix that a host matrix stands for. A column listed twice in a row cancels. -/

namespace CudaMpqs

structure HostMatrix where
  nRows : Nat
  nCols : Nat
  rows : List (List Nat)
  rows_length : rows.length = nRows
  inside : ∀ row ∈ rows, ∀ c ∈ row, c < nCols

namespace HostMatrix

def row (A : HostMatrix) (r : Nat) : List Nat := A.rows.getD r []

theorem row_inside (A : HostMatrix) {r c : Nat} (member : c ∈ A.row r) : c < A.nCols := by
  by_cases within : r < A.rows.length
  · rw [row, List.getD_eq_getElem _ _ within] at member
    exact A.inside _ (List.getElem_mem within) c member
  · rw [row, List.getD_eq_default _ _ (by omega)] at member
    cases member

theorem row_empty (A : HostMatrix) {r : Nat} (beyond : A.nRows ≤ r) : A.row r = [] :=
  List.getD_eq_default _ _ (by rw [A.rows_length]; exact beyond)

/-! ## The matrix over GF(2) -/

def entry (A : HostMatrix) (r c : Nat) : ZMod 2 := ((A.row r).count c : ZMod 2)

def matrix (A : HostMatrix) : Matrix (Fin A.nRows) (Fin A.nCols) (ZMod 2) :=
  Matrix.of fun r c => A.entry r c

theorem entry_beyond_rows (A : HostMatrix) {r c : Nat} (beyond : A.nRows ≤ r) :
    A.entry r c = 0 := by
  rw [entry, A.row_empty beyond, List.count_nil, Nat.cast_zero]

theorem entry_beyond_cols (A : HostMatrix) {r c : Nat} (beyond : A.nCols ≤ c) :
    A.entry r c = 0 := by
  have absent : c ∉ A.row r := fun member => absurd (A.row_inside member) (by omega)
  rw [entry, List.count_eq_zero_of_not_mem absent, Nat.cast_zero]

def bit (b : Bool) : ZMod 2 := if b then 1 else 0

theorem bit_eq_zero {b : Bool} : bit b = 0 ↔ b = false := by
  revert b
  decide

theorem bit_xor (a b : Bool) : bit (a ^^ b) = bit a + bit b := by
  revert a b
  decide

/-! ## The product -/

def parity (x : Nat → Bool) (row : List Nat) : Bool :=
  row.foldl (fun sum c => sum ^^ x c) false

private theorem bit_foldl_xor (x : Nat → Bool) (row : List Nat) (sum : Bool) :
    bit (row.foldl (fun sum c => sum ^^ x c) sum) = bit sum + (row.map fun c => bit (x c)).sum := by
  induction row generalizing sum with
  | nil => simp
  | cons c row induction =>
    rw [List.foldl_cons, induction, bit_xor, List.map_cons, List.sum_cons, add_assoc]

theorem bit_parity (x : Nat → Bool) {row : List Nat} {bound : Nat} (inside : ∀ c ∈ row, c < bound) :
    bit (parity x row) = ∑ c ∈ Finset.range bound, (row.count c : ZMod 2) * bit (x c) := by
  rw [parity, bit_foldl_xor]
  have start : bit false = 0 := rfl
  rw [start, zero_add]
  induction row with
  | nil => simp
  | cons d row induction =>
    have first : d ∈ Finset.range bound :=
      Finset.mem_range.mpr (inside d List.mem_cons_self)
    rw [List.map_cons, List.sum_cons,
      induction fun c member => inside c (List.mem_cons_of_mem d member),
      ← Finset.add_sum_erase _ _ first, ← Finset.add_sum_erase _ _ first]
    have others : ∑ c ∈ (Finset.range bound).erase d, ((d :: row).count c : ZMod 2) * bit (x c) =
          ∑ c ∈ (Finset.range bound).erase d, (row.count c : ZMod 2) * bit (x c) := by
      apply Finset.sum_congr rfl
      intro c member
      rw [List.count_cons_of_ne (Finset.ne_of_mem_erase member).symm]
    rw [others, List.count_cons_self]
    push_cast
    ring

def Annihilates (A : HostMatrix) (x : Nat → Bool) : Prop :=
  ∀ r < A.nRows, parity x (A.row r) = false

theorem annihilates_iff (A : HostMatrix) (x : Nat → Bool) {bound : Nat} (inside : A.nCols ≤ bound) :
    A.Annihilates x ↔ ∀ r < A.nRows, ∑ c ∈ Finset.range bound, A.entry r c * bit (x c) = 0 := by
  refine forall_congr' fun r => forall_congr' fun _ => ?_
  rw [← bit_eq_zero, bit_parity x fun c member => (A.row_inside member).trans_le inside]
  rfl

/-! ## Padding -/

def padToSquare (A : HostMatrix) : HostMatrix where
  nRows := max A.nRows A.nCols
  nCols := max A.nRows A.nCols
  rows := A.rows ++ List.replicate (max A.nRows A.nCols - A.nRows) []
  rows_length := by
    rw [List.length_append, List.length_replicate, A.rows_length]
    omega
  inside := by
    intro row member c present
    rcases List.mem_append.mp member with original | padding
    · exact (A.inside row original c present).trans_le (le_max_right _ _)
    · rw [List.eq_of_mem_replicate padding] at present
      cases present

private theorem row_padToSquare (A : HostMatrix) (r : Nat) : A.padToSquare.row r = A.row r := by
  by_cases within : r < A.rows.length
  · exact List.getD_append _ _ _ _ within
  · rw [A.row_empty (by rw [← A.rows_length]; omega), row, padToSquare,
      List.getD_append_right _ _ _ _ (by omega)]
    rw [List.getD_eq_getElem?_getD, List.getElem?_getD_replicate_default_eq]

theorem entry_padToSquare (A : HostMatrix) (r c : Nat) : A.padToSquare.entry r c = A.entry r c := by
  rw [entry, row_padToSquare, entry]

/-! ## The transpose -/

/-- The inner loop of the fill; a column outside the target is left out. -/
def pushColumns (target : List (List Nat)) (r : Nat) (row : List Nat) : List (List Nat) :=
  row.foldl (fun rows c => rows.modify c (· ++ [r])) target

@[simp] theorem length_pushColumns (target : List (List Nat)) (r : Nat) (row : List Nat) :
    (pushColumns target r row).length = target.length := by
  induction row generalizing target with
  | nil => rfl
  | cons c row induction =>
    rw [pushColumns, List.foldl_cons]
    exact (induction _).trans (List.length_modify _ _ _)

theorem count_pushColumns (target : List (List Nat)) (r : Nat) (row : List Nat) {c : Nat}
    (within : c < target.length) (r' : Nat) :
    ((pushColumns target r row).getD c []).count r' =
      (target.getD c []).count r' + if r' = r then row.count c else 0 := by
  induction row generalizing target with
  | nil => simp [pushColumns]
  | cons d row induction =>
    have step : pushColumns target r (d :: row) =
        pushColumns (target.modify d (· ++ [r])) r row := rfl
    rw [step, induction _ (by rw [List.length_modify]; exact within),
      List.getD_eq_getElem _ _ (by rw [List.length_modify]; exact within),
      List.getElem_modify, List.getD_eq_getElem _ _ within, List.count_cons]
    by_cases here : d = c
    · by_cases same : r' = r
      · simp [here, same]
        omega
      · have other : r ≠ r' := fun equal => same equal.symm
        simp [here, same, other]
    · simp [here]

def transposeRows (A : HostMatrix) : List (List Nat) :=
  (List.range A.nRows).foldl (fun target r => pushColumns target r (A.row r))
    (List.replicate A.nCols [])

theorem transposeRows_upto (A : HostMatrix) (count : Nat) :
    let target := (List.range count).foldl
      (fun target r => pushColumns target r (A.row r)) (List.replicate A.nCols [])
    target.length = A.nCols ∧ ∀ c < A.nCols, ∀ r,
      (target.getD c []).count r = if r < count then (A.row r).count c else 0 := by
  induction count with
  | zero =>
    refine ⟨List.length_replicate, fun c within r => ?_⟩
    rw [List.range_zero, List.foldl_nil, List.getD_eq_getElem?_getD,
      List.getElem?_getD_replicate_default_eq]
    simp
  | succ count induction =>
    obtain ⟨length, counts⟩ := induction
    intro target
    have split : target = pushColumns ((List.range count).foldl
        (fun target r => pushColumns target r (A.row r)) (List.replicate A.nCols []))
        count (A.row count) := by
      simp only [target, List.range_succ, List.foldl_append, List.foldl_cons, List.foldl_nil]
    rw [split]
    refine ⟨by rw [length_pushColumns, length], fun c within r => ?_⟩
    rw [count_pushColumns _ _ _ (by rw [length]; exact within), counts c within r]
    by_cases before : r < count
    · rw [if_pos before, if_neg (by omega), if_pos (by omega), Nat.add_zero]
    · by_cases here : r = count
      · rw [if_neg before, if_pos here, if_pos (by omega), Nat.zero_add, here]
      · rw [if_neg before, if_neg here, if_neg (by omega)]

theorem length_transposeRows (A : HostMatrix) : A.transposeRows.length = A.nCols :=
  (A.transposeRows_upto A.nRows).1

theorem count_transposeRows (A : HostMatrix) {c : Nat} (within : c < A.nCols) (r : Nat) :
    (A.transposeRows.getD c []).count r = (A.row r).count c := by
  rw [transposeRows, (A.transposeRows_upto A.nRows).2 c within r]
  by_cases before : r < A.nRows
  · rw [if_pos before]
  · rw [if_neg before, A.row_empty (by omega), List.count_nil]

def transpose (A : HostMatrix) : HostMatrix where
  nRows := A.nCols
  nCols := A.nRows
  rows := A.transposeRows.map fun row => row.insertionSort (· ≤ ·)
  rows_length := by rw [List.length_map, A.length_transposeRows]
  inside := by
    intro sorted member r present
    obtain ⟨row, source, same⟩ := List.mem_map.mp member
    obtain ⟨c, within, found⟩ := List.getElem_of_mem source
    rw [← same, (List.perm_insertionSort _ row).mem_iff, ← found,
      ← List.getD_eq_getElem _ [] within] at present
    have positive := List.count_pos_iff.mpr present
    rw [A.count_transposeRows (by rw [← A.length_transposeRows]; exact within)] at positive
    by_contra beyond
    rw [A.row_empty (by omega)] at positive
    exact absurd positive (by simp)

theorem entry_transpose (A : HostMatrix) (r : Nat) {c : Nat} (within : c < A.nCols) :
    A.transpose.entry c r = A.entry r c := by
  have inside : c < A.transposeRows.length := by rw [A.length_transposeRows]; exact within
  have sorted : A.transpose.row c = (A.transposeRows.getD c []).insertionSort (· ≤ ·) := by
    rw [row, transpose, List.getD_eq_getElem _ _ (by rw [List.length_map]; exact inside),
      List.getElem_map, List.getD_eq_getElem _ _ inside]
  rw [entry, sorted, (List.perm_insertionSort _ _).count_eq, A.count_transposeRows within, entry]

end HostMatrix

end CudaMpqs
