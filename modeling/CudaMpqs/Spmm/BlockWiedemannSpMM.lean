import CudaMpqs.Spmm.HostMatrix

/-! # The permuted operator

The constructor of `BlockWiedemannSpMM` permutes rows and columns by density and
keeps the maps that bring vectors back. `std::sort` is not stable, so that rows and
columns of one weight may stand in any order. -/

namespace CudaMpqs

/-! ## Permutation maps -/

def invert (size : Nat) (map : List Nat) : List Nat :=
  (List.range size).foldl (fun inv i => inv.set (map.getD i 0) i) (List.replicate size 0)

theorem invert_upto {size : Nat} {map : List Nat} (perm : map.Perm (List.range size)) :
    ∀ count ≤ size,
      let inv := (List.range count).foldl (fun inv i => inv.set (map.getD i 0) i)
        (List.replicate size 0)
      inv.length = size ∧ ∀ i < count, inv.getD (map.getD i 0) 0 = i := by
  have length : map.length = size := by rw [perm.length_eq, List.length_range]
  have nodup : map.Nodup := perm.nodup_iff.mpr List.nodup_range
  have bound : ∀ i < size, map.getD i 0 < size := by
    intro i within
    rw [List.getD_eq_getElem _ _ (by omega)]
    exact List.mem_range.mp (perm.mem_iff.mp (List.getElem_mem _))
  intro count
  induction count with
  | zero => exact fun _ => ⟨List.length_replicate, fun i below => absurd below (by omega)⟩
  | succ count induction =>
    intro fits inv
    obtain ⟨kept, inverse⟩ := induction (by omega)
    have split : inv = ((List.range count).foldl (fun inv i => inv.set (map.getD i 0) i)
        (List.replicate size 0)).set (map.getD count 0) count := by
      simp only [inv, List.range_succ, List.foldl_append, List.foldl_cons, List.foldl_nil]
    rw [split]
    refine ⟨by rw [List.length_set, kept], fun i below => ?_⟩
    have inside := bound i (by omega)
    rw [List.getD_eq_getElem _ _ (by rw [List.length_set, kept]; exact inside),
      List.getElem_set]
    by_cases last : i = count
    · rw [if_pos (by rw [last]), last]
    · have apart : map.getD count 0 ≠ map.getD i 0 := by
        intro same
        rw [List.getD_eq_getElem _ _ (by omega), List.getD_eq_getElem _ _ (by omega)] at same
        exact last ((nodup.getElem_inj_iff.mp same).symm)
      rw [if_neg apart, ← List.getD_eq_getElem _ 0 (by rw [kept]; exact inside)]
      exact inverse i (by omega)

structure PermutationMap (size : Nat) where
  map : List Nat
  inv : List Nat
  perm : map.Perm (List.range size)
  inv_length : inv.length = size
  inv_map : ∀ i < size, inv.getD (map.getD i 0) 0 = i

namespace PermutationMap

variable {size : Nat}

def identity (size : Nat) : PermutationMap size where
  map := List.range size
  inv := List.range size
  perm := List.Perm.refl _
  inv_length := List.length_range
  inv_map := by
    intro i within
    simp [List.getD_eq_getElem?_getD, within]

def ofOrder (order : List Nat) (perm : order.Perm (List.range size)) : PermutationMap size where
  map := order
  inv := invert size order
  perm := perm
  inv_length := (invert_upto perm size le_rfl).1
  inv_map := (invert_upto perm size le_rfl).2

theorem map_length (P : PermutationMap size) : P.map.length = size := by
  rw [P.perm.length_eq, List.length_range]

theorem map_lt (P : PermutationMap size) {i : Nat} (within : i < size) : P.map.getD i 0 < size := by
  rw [List.getD_eq_getElem _ _ (by rw [P.map_length]; exact within)]
  exact List.mem_range.mp (P.perm.mem_iff.mp (List.getElem_mem _))

theorem exists_map (P : PermutationMap size) {r : Nat} (within : r < size) :
    ∃ i < size, P.map.getD i 0 = r := by
  obtain ⟨i, inside, found⟩ :=
    List.getElem_of_mem (P.perm.mem_iff.mpr (List.mem_range.mpr within))
  refine ⟨i, by rw [← P.map_length]; exact inside, ?_⟩
  rw [List.getD_eq_getElem _ _ inside, found]

theorem map_inv (P : PermutationMap size) {r : Nat} (within : r < size) :
    P.map.getD (P.inv.getD r 0) 0 = r := by
  obtain ⟨i, inside, found⟩ := P.exists_map within
  rw [← found, P.inv_map i inside]

theorem inv_lt (P : PermutationMap size) {r : Nat} (within : r < size) : P.inv.getD r 0 < size := by
  obtain ⟨i, inside, found⟩ := P.exists_map within
  rw [← found, P.inv_map i inside]
  exact inside

theorem sum_inv (P : PermutationMap size) (f : Nat → ZMod 2) :
    ∑ r ∈ Finset.range size, f (P.inv.getD r 0) = ∑ i ∈ Finset.range size, f i := by
  refine Finset.sum_nbij' (fun r => P.inv.getD r 0) (fun i => P.map.getD i 0)
    ?_ ?_ ?_ ?_ fun r _ => rfl
  · exact fun r member => Finset.mem_range.mpr (P.inv_lt (Finset.mem_range.mp member))
  · exact fun i member => Finset.mem_range.mpr (P.map_lt (Finset.mem_range.mp member))
  · exact fun r member => P.map_inv (Finset.mem_range.mp member)
  · exact fun i member => P.inv_map i (Finset.mem_range.mp member)

end PermutationMap

/-- What `std::sort` may leave of the numbers below `size`, heaviest first. -/
structure DensityOrder (size : Nat) (weight : Nat → Nat) where
  order : List Nat
  perm : order.Perm (List.range size)
  descending : order.Pairwise fun a b => weight b ≤ weight a

namespace HostMatrix

def rowWeight (A : HostMatrix) (r : Nat) : Nat := (A.row r).length

def colWeight (A : HostMatrix) (c : Nat) : Nat :=
  (List.range A.nRows).foldl (fun count r => count + (A.row r).count c) 0

/-! ## Permuting a matrix -/

theorem count_map_injOn {f : Nat → Nat} {row : List Nat} {c : Nat}
    (injective : ∀ d ∈ row, f d = f c → d = c) : (row.map f).count (f c) = row.count c := by
  induction row with
  | nil => rfl
  | cons d row induction =>
    have rest := induction fun e member => injective e (List.mem_cons_of_mem d member)
    rw [List.map_cons, List.count_cons, List.count_cons, rest]
    by_cases same : d = c
    · simp [same]
    · have apart : f d ≠ f c := fun equal => same (injective d List.mem_cons_self equal)
      simp [same, apart]

variable {paddedCols : Nat}

def permutedRow (src : HostMatrix) (pRow : PermutationMap src.nRows)
    (pCol : PermutationMap paddedCols) (i : Nat) : List Nat :=
  (((src.row (pRow.map.getD i 0)).filter (· < pCol.inv.length)).map
    fun c => pCol.inv.getD c 0).insertionSort (· ≤ ·)

def applyPermutationExplicit (src : HostMatrix) (pRow : PermutationMap src.nRows)
    (pCol : PermutationMap paddedCols) : HostMatrix where
  nRows := src.nRows
  nCols := paddedCols
  rows := (List.range src.nRows).map (src.permutedRow pRow pCol)
  rows_length := by rw [List.length_map, List.length_range]
  inside := by
    intro sorted member c present
    obtain ⟨i, _, same⟩ := List.mem_map.mp member
    rw [← same, permutedRow, (List.perm_insertionSort _ _).mem_iff] at present
    obtain ⟨d, kept, image⟩ := List.mem_map.mp present
    have within := of_decide_eq_true (List.mem_filter.mp kept).2
    rw [pCol.inv_length] at within
    rw [← image]
    exact pCol.inv_lt within

/-- Position `i` holds row `map[i]`, and column `c` stands at `inv[c]`. -/
theorem entry_applyPermutationExplicit (src : HostMatrix) (pRow : PermutationMap src.nRows)
    (pCol : PermutationMap paddedCols) (fits : src.nCols ≤ paddedCols) {i c : Nat}
    (rowInside : i < src.nRows) (colInside : c < paddedCols) :
    (src.applyPermutationExplicit pRow pCol).entry i (pCol.inv.getD c 0) =
      src.entry (pRow.map.getD i 0) c := by
  have found : (src.applyPermutationExplicit pRow pCol).row i =
      src.permutedRow pRow pCol i := by
    rw [row, applyPermutationExplicit, List.getD_eq_getElem _ _ (by simpa using rowInside),
      List.getElem_map, List.getElem_range]
  have all : (src.row (pRow.map.getD i 0)).filter (· < pCol.inv.length) =
      src.row (pRow.map.getD i 0) := by
    apply List.filter_eq_self.mpr
    intro d member
    rw [pCol.inv_length]
    exact decide_eq_true ((src.row_inside member).trans_le fits)
  rw [entry, found, permutedRow, all, (List.perm_insertionSort _ _).count_eq, entry]
  refine congrArg Nat.cast (count_map_injOn (f := fun d => pCol.inv.getD d 0) ?_)
  intro d member same
  have left := pCol.map_inv ((src.row_inside member).trans_le fits)
  rw [same, pCol.map_inv colInside] at left
  exact left.symm

end HostMatrix

/-! ## The interface -/

def logicalNCols (raw : HostMatrix) (paddedNCols : Nat) : Nat :=
  if paddedNCols = 0 then raw.nCols else max raw.nCols paddedNCols

theorem nCols_le_logicalNCols (raw : HostMatrix) (paddedNCols : Nat) :
    raw.nCols ≤ logicalNCols raw paddedNCols := by
  rw [logicalNCols]
  split
  · exact le_rfl
  · exact le_max_left _ _

theorem logicalNCols_of_le {raw : HostMatrix} {paddedNCols : Nat}
    (fits : raw.nCols ≤ paddedNCols) : logicalNCols raw paddedNCols = paddedNCols := by
  rw [logicalNCols]
  split
  · omega
  · exact max_eq_right fits

structure BlockWiedemannSpMM (raw : HostMatrix) (paddedNCols : Nat)
    (sortRows sortCols : Bool) where
  rowOrder : DensityOrder raw.nRows raw.rowWeight
  colOrder : DensityOrder (logicalNCols raw paddedNCols) raw.colWeight

namespace BlockWiedemannSpMM

variable {raw : HostMatrix} {paddedNCols : Nat} {sortRows sortCols : Bool}

def pRow (spmm : BlockWiedemannSpMM raw paddedNCols sortRows sortCols) : PermutationMap raw.nRows :=
  if sortRows then .ofOrder spmm.rowOrder.order spmm.rowOrder.perm
  else .identity raw.nRows

def pCol (spmm : BlockWiedemannSpMM raw paddedNCols sortRows sortCols) :
    PermutationMap (logicalNCols raw paddedNCols) :=
  if sortCols then .ofOrder spmm.colOrder.order spmm.colOrder.perm
  else .identity (logicalNCols raw paddedNCols)

def matA (spmm : BlockWiedemannSpMM raw paddedNCols sortRows sortCols) : HostMatrix :=
  raw.applyPermutationExplicit spmm.pRow spmm.pCol

def matAT (spmm : BlockWiedemannSpMM raw paddedNCols sortRows sortCols) : HostMatrix :=
  spmm.matA.transpose

/-- The entries of `raw` read back from the permuted matrix. -/
theorem entry_matA (spmm : BlockWiedemannSpMM raw paddedNCols sortRows sortCols) {r c : Nat}
    (rowInside : r < raw.nRows) (colInside : c < logicalNCols raw paddedNCols) :
    spmm.matA.entry (spmm.pRow.inv.getD r 0) (spmm.pCol.inv.getD c 0) = raw.entry r c := by
  rw [matA, raw.entry_applyPermutationExplicit _ _ (nCols_le_logicalNCols raw paddedNCols)
    (spmm.pRow.inv_lt rowInside) colInside, spmm.pRow.map_inv rowInside]

open HostMatrix

/-- What `A` annihilates is annihilated by the rows of `raw` along `P_col.inv`. -/
theorem annihilates_matA (spmm : BlockWiedemannSpMM raw paddedNCols sortRows sortCols)
    {x : Nat → Bool} (kernel : spmm.matA.Annihilates x) {r : Nat} (inside : r < raw.nRows) :
    ∑ c ∈ Finset.range (logicalNCols raw paddedNCols),
      raw.entry r c * bit (x (spmm.pCol.inv.getD c 0)) = 0 := by
  have image := (annihilates_iff spmm.matA x le_rfl).mp kernel _ (spmm.pRow.inv_lt inside)
  calc ∑ c ∈ Finset.range (logicalNCols raw paddedNCols),
        raw.entry r c * bit (x (spmm.pCol.inv.getD c 0))
      = ∑ c ∈ Finset.range (logicalNCols raw paddedNCols),
          spmm.matA.entry (spmm.pRow.inv.getD r 0) (spmm.pCol.inv.getD c 0) *
            bit (x (spmm.pCol.inv.getD c 0)) := by
        apply Finset.sum_congr rfl
        intro c member
        rw [spmm.entry_matA inside (Finset.mem_range.mp member)]
    _ = ∑ d ∈ Finset.range (logicalNCols raw paddedNCols),
          spmm.matA.entry (spmm.pRow.inv.getD r 0) d * bit (x d) :=
        spmm.pCol.sum_inv fun d => spmm.matA.entry (spmm.pRow.inv.getD r 0) d * bit (x d)
    _ = 0 := image

/-- What `AT` annihilates is annihilated by the columns of `raw` along `P_row.inv`. -/
theorem annihilates_matAT (spmm : BlockWiedemannSpMM raw paddedNCols sortRows sortCols)
    {y : Nat → Bool} (kernel : spmm.matAT.Annihilates y) {c : Nat}
    (inside : c < logicalNCols raw paddedNCols) :
    ∑ r ∈ Finset.range raw.nRows, raw.entry r c * bit (y (spmm.pRow.inv.getD r 0)) = 0 := by
  have target := spmm.pCol.inv_lt inside
  have image := (annihilates_iff spmm.matAT y le_rfl).mp kernel _ target
  calc ∑ r ∈ Finset.range raw.nRows, raw.entry r c * bit (y (spmm.pRow.inv.getD r 0))
      = ∑ r ∈ Finset.range raw.nRows,
          spmm.matAT.entry (spmm.pCol.inv.getD c 0) (spmm.pRow.inv.getD r 0) *
            bit (y (spmm.pRow.inv.getD r 0)) := by
        apply Finset.sum_congr rfl
        intro r member
        rw [matAT, entry_transpose _ _ target, spmm.entry_matA (Finset.mem_range.mp member) inside]
    _ = ∑ i ∈ Finset.range raw.nRows,
          spmm.matAT.entry (spmm.pCol.inv.getD c 0) i * bit (y i) :=
        spmm.pRow.sum_inv fun i => spmm.matAT.entry (spmm.pCol.inv.getD c 0) i * bit (y i)
    _ = 0 := image

/-! ## Vectors -/

def applyPermutationCpu (src : List Bool) (n : Nat) (mapping : List Nat) : List Bool :=
  (List.range n).map fun i =>
    if i < mapping.length then src.getD (mapping.getD i 0) false else false

def postprocessDomainA (spmm : BlockWiedemannSpMM raw paddedNCols sortRows sortCols)
    (src : List Bool) (n : Nat) : List Bool :=
  applyPermutationCpu src n spmm.pRow.inv

def postprocessDomainAT (spmm : BlockWiedemannSpMM raw paddedNCols sortRows sortCols)
    (src : List Bool) (n : Nat) : List Bool :=
  applyPermutationCpu src n spmm.pCol.inv

@[simp] theorem length_applyPermutationCpu (src : List Bool) (n : Nat) (mapping : List Nat) :
    (applyPermutationCpu src n mapping).length = n := by
  rw [applyPermutationCpu, List.length_map, List.length_range]

theorem getD_applyPermutationCpu (src : List Bool) {n i : Nat} {mapping : List Nat}
    (inside : i < n) (mapped : i < mapping.length) :
    (applyPermutationCpu src n mapping).getD i false = src.getD (mapping.getD i 0) false := by
  rw [applyPermutationCpu, List.getD_eq_getElem _ _ (by simpa using inside), List.getElem_map,
    List.getElem_range, if_pos mapped]

end BlockWiedemannSpMM

end CudaMpqs
