import CudaMpqs.Matrix.HostMatrixCsr
import CudaMpqs.Sqrt.SquareRoot

/-! # The expanded matrix

`ExpandedMatrixBuilder::build`: the columns of the sign, of the prime two, of
the factor base and of the large primes, built in a counting and a filling pass. -/

namespace CudaMpqs

/-! ## Two-pass construction -/

namespace HostMatrixCSR

def writeAt (colIndices : List Nat) (start : Nat) (cols : List Nat) : List Nat :=
  colIndices.take start ++ cols ++ colIndices.drop (start + cols.length)

def fillFrom (rowOffsets : List Nat) (colIndices : List Nat) : Nat → List (List Nat) → List Nat
  | _, [] => colIndices
  | r, cols :: rows =>
    fillFrom rowOffsets (writeAt colIndices (rowOffsets.getD r 0) cols) (r + 1) rows

theorem writeAt_append (done rest cols : List Nat) : writeAt (done ++ rest) done.length cols =
      done ++ cols ++ rest.drop cols.length := by
  rw [writeAt, List.take_left, List.drop_append, Nat.add_sub_cancel_left,
    List.drop_of_length_le (Nat.le_add_right _ _), List.nil_append]

theorem fillFrom_append (rowOffsets colIndices : List Nat) (r : Nat)
    (left right : List (List Nat)) :
    fillFrom rowOffsets colIndices r (left ++ right) =
      fillFrom rowOffsets (fillFrom rowOffsets colIndices r left) (r + left.length)
        right := by
  induction left generalizing colIndices r with
  | nil => rfl
  | cons cols left induction =>
    rw [List.cons_append, fillFrom, fillFrom, induction, List.length_cons]
    congr 1
    omega

theorem fillFrom_eq_flatten (rowOffsets done rest : List Nat) (r : Nat) (rows : List (List Nat))
    (offsets : ∀ k < rows.length, rowOffsets.getD (r + k) 0 =
      done.length + (rows.take k).flatten.length)
    (room : rest.length = rows.flatten.length) :
    fillFrom rowOffsets (done ++ rest) r rows = done ++ rows.flatten := by
  induction rows generalizing done rest r with
  | nil =>
    rw [List.flatten_nil, List.length_nil] at room
    rw [fillFrom, List.eq_nil_of_length_eq_zero room, List.flatten_nil]
  | cons cols rows induction =>
    have first : rowOffsets.getD r 0 = done.length :=
      offsets 0 (Nat.succ_pos _)
    rw [List.flatten_cons, List.length_append] at room
    rw [fillFrom, first, writeAt_append, induction, List.flatten_cons, List.append_assoc]
    · intro k inside
      have next := offsets (k + 1) (Nat.succ_lt_succ inside)
      rw [List.take_succ_cons, List.flatten_cons, List.length_append] at next
      rw [Nat.add_right_comm, Nat.add_assoc, next, List.length_append, Nat.add_assoc]
    · rw [List.length_drop, room, Nat.add_sub_cancel_left]

private theorem getD_prefixSums (rows : List (List Nat)) {k : Nat} (inside : k ≤ rows.length) :
    ((rows.map List.length).scanl (· + ·) 0).getD k 0 = (rows.take k).flatten.length := by
  have bound : k < ((rows.map List.length).scanl (· + ·) 0).length := by
    rw [List.length_scanl, List.length_map]
    exact Nat.lt_succ_of_le inside
  rw [List.getD_eq_getElem _ _ bound, List.getElem_scanl, ← List.map_take, foldl_lengths]

theorem fillFrom_eq_ofRows (nCols : Nat) (rows : List (List Nat)) : ofRows nCols rows =
      ⟨(rows.map List.length).scanl (· + ·) 0, fillFrom ((rows.map List.length).scanl (· + ·) 0)
          (List.replicate (((rows.map List.length).scanl (· + ·) 0).getD rows.length 0) 0) 0 rows,
        rows.length, nCols⟩ := by
  rw [ofRows_eq, getD_prefixSums rows le_rfl, List.take_length,
    ← List.nil_append (List.replicate _ _), fillFrom_eq_flatten, List.nil_append]
  · intro k inside
    rw [Nat.zero_add, getD_prefixSums rows inside.le, List.length_nil, Nat.zero_add]
  · exact List.length_replicate

end HostMatrixCSR

open HostMatrixCSR SquareRoot

namespace ExpandedMatrixBuilder

/-! ## The builder -/

structure LpColumns where
  lpColMap : List (BitVec 64 × Nat)
  nextLpCol : Nat
deriving DecidableEq

def LpColumns.emplace (columns : LpColumns) (lp : BitVec 64) : LpColumns :=
  match columns.lpColMap.lookup lp with
  | some _ => columns
  | none => ⟨columns.lpColMap ++ [(lp, columns.nextLpCol)], columns.nextLpCol + 1⟩

def LpColumns.column (columns : LpColumns) (lp : BitVec 64) : Nat :=
  (columns.lpColMap.lookup lp).getD 0

def lpKey (row : Relation) : BitVec 64 := row.largePrime.setWidth 64

def assignLpColumns (partials : HostRelationBatch) (fbSize : Nat) : LpColumns :=
  (partials.relations.map lpKey).foldl LpColumns.emplace ⟨[], fbSize + 2⟩

def oddBit {width : Nat} (exponent : BitVec width) : Bool := exponent &&& 1 != 0

def countRowCols (row : Relation) (lpCol : Option Nat) : Nat :=
  (if row.sign != 1 then 1 else 0) + (if oddBit row.val2Exp then 1 else 0) +
    row.factors.countP (fun factor => oddBit factor.2) +
    (if lpCol.isSome then 1 else 0)

def fillRowCols (row : Relation) (lpCol : Option Nat) : List Nat :=
  (if row.sign != 1 then [0] else []) ++ (if oddBit row.val2Exp then [1] else []) ++
    ((row.factors.filter fun factor => oddBit factor.2).map
      fun factor => factor.1 + 2).insertionSort (· ≤ ·) ++
    lpCol.toList

structure ExpandedMatrixResult where
  matrix : HostMatrixCSR
  lpColMap : List (BitVec 64 × Nat)
  numLpCols : Nat
deriving DecidableEq

def build (smooths partials : HostRelationBatch) (fbSize : Nat) : ExpandedMatrixResult :=
  let columns := assignLpColumns partials fbSize
  let numLpCols := columns.nextLpCol - (fbSize + 2)
  let lpCol (row : Relation) := some (columns.column (lpKey row))
  let totalRows := smooths.numRelations + partials.numRelations
  let counts := smooths.relations.map (countRowCols · none) ++
    partials.relations.map fun row => countRowCols row (lpCol row)
  let rowOffsets := counts.scanl (· + ·) 0
  let totalNnz := rowOffsets.getD totalRows 0
  let smoothCols := fillFrom rowOffsets (List.replicate totalNnz 0) 0
    (smooths.relations.map (fillRowCols · none))
  let colIndices := fillFrom rowOffsets smoothCols smooths.numRelations
    (partials.relations.map fun row => fillRowCols row (lpCol row))
  let csr : HostMatrixCSR := ⟨rowOffsets, colIndices, totalRows, fbSize + 2 + numLpCols⟩
  if csr.WellFormed then ⟨csr, columns.lpColMap, numLpCols⟩ else ⟨⟨[], [], 0, 0⟩, [], 0⟩

/-! ## Large-prime columns -/

structure LpColumns.Assigned (columns : LpColumns) (first : Nat)
    (seen : List (BitVec 64)) : Prop where
  next : first ≤ columns.nextLpCol
  found : ∀ lp ∈ seen, ∃ col, columns.lpColMap.lookup lp = some col
  inside : ∀ lp col, columns.lpColMap.lookup lp = some col → first ≤ col ∧ col < columns.nextLpCol
  injective : ∀ lp lp' col, columns.lpColMap.lookup lp = some col →
    columns.lpColMap.lookup lp' = some col → lp = lp'

theorem LpColumns.assigned_start (first : Nat) : LpColumns.Assigned ⟨[], first⟩ first [] where
  next := le_rfl
  found := by simp
  inside := by simp
  injective := by simp

variable {columns : LpColumns} {first : Nat} {seen : List (BitVec 64)}

theorem LpColumns.Assigned.emplace (assigned : columns.Assigned first seen) (lp : BitVec 64) :
    (columns.emplace lp).Assigned first (seen ++ [lp]) := by
  unfold LpColumns.emplace
  cases known : columns.lpColMap.lookup lp with
  | some col =>
    refine ⟨assigned.next, ?_, assigned.inside, assigned.injective⟩
    intro key member
    rcases List.mem_append.mp member with member | member
    · exact assigned.found key member
    · rw [List.mem_singleton.mp member]
      exact ⟨col, known⟩
  | none =>
    have lookup (key : BitVec 64) :
        (columns.lpColMap ++ [(lp, columns.nextLpCol)]).lookup key =
          if key = lp then some columns.nextLpCol else columns.lpColMap.lookup key := by
      rw [List.lookup_append]
      by_cases same : key = lp
      · rw [same, known, if_pos rfl, Option.none_or, List.lookup_cons_self]
      · rw [if_neg same, List.lookup_cons, beq_eq_false_iff_ne.mpr same,
          List.lookup_nil, Option.or_none]
    refine ⟨assigned.next.trans (Nat.le_succ _), ?_, ?_, ?_⟩
    · intro key member
      rw [lookup]
      by_cases same : key = lp
      · exact ⟨_, if_pos same⟩
      · rw [if_neg same]
        rcases List.mem_append.mp member with member | member
        · exact assigned.found key member
        · exact absurd (List.mem_singleton.mp member) same
    · intro key col
      rw [lookup]
      by_cases same : key = lp
      · rw [if_pos same]
        rintro ⟨⟩
        exact ⟨assigned.next, Nat.lt_succ_self _⟩
      · rw [if_neg same]
        intro present
        exact ⟨(assigned.inside key col present).1,
          (assigned.inside key col present).2.trans (Nat.lt_succ_self _)⟩
    · intro key key' col
      rw [lookup, lookup]
      by_cases same : key = lp
      · by_cases same' : key' = lp
        · intro _ _
          rw [same, same']
        · rw [if_pos same, if_neg same']
          rintro ⟨⟩ present
          exact absurd (assigned.inside key' _ present).2 (lt_irrefl _)
      · by_cases same' : key' = lp
        · rw [if_neg same, if_pos same']
          rintro present ⟨⟩
          exact absurd (assigned.inside key _ present).2 (lt_irrefl _)
        · rw [if_neg same, if_neg same']
          exact assigned.injective key key' col

theorem LpColumns.Assigned.foldl (assigned : columns.Assigned first seen)
    (keys : List (BitVec 64)) :
    (keys.foldl LpColumns.emplace columns).Assigned first (seen ++ keys) := by
  induction keys generalizing columns seen with
  | nil => rwa [List.append_nil]
  | cons lp keys induction =>
    have rest := induction (assigned.emplace lp)
    rwa [List.append_assoc, List.singleton_append] at rest

theorem assigned_assignLpColumns (partials : HostRelationBatch) (fbSize : Nat) :
    (assignLpColumns partials fbSize).Assigned (fbSize + 2) (partials.relations.map lpKey) := by
  have assigned := (LpColumns.assigned_start (fbSize + 2)).foldl
    (partials.relations.map lpKey)
  rwa [List.nil_append] at assigned

theorem LpColumns.Assigned.column_inside (assigned : columns.Assigned first seen) {lp : BitVec 64}
    (member : lp ∈ seen) : first ≤ columns.column lp ∧ columns.column lp < columns.nextLpCol := by
  obtain ⟨col, found⟩ := assigned.found lp member
  rw [LpColumns.column, found]
  exact assigned.inside lp col found

theorem LpColumns.Assigned.column_injective (assigned : columns.Assigned first seen)
    {lp lp' : BitVec 64} (member : lp ∈ seen) (member' : lp' ∈ seen) :
    columns.column lp = columns.column lp' ↔ lp = lp' := by
  constructor
  · obtain ⟨col, found⟩ := assigned.found lp member
    obtain ⟨col', found'⟩ := assigned.found lp' member'
    rw [LpColumns.column, LpColumns.column, found, found', Option.getD_some, Option.getD_some]
    rintro rfl
    exact assigned.injective lp lp' col found found'
  · exact congrArg _

/-! ## One row -/

theorem oddBit_iff {width : Nat} (positive : 0 < width) (exponent : BitVec width) :
    oddBit exponent = true ↔ Odd exponent.toNat := by
  have one : (1 : BitVec width).toNat = 1 :=
    Nat.mod_eq_of_lt (Nat.one_lt_two_pow positive.ne')
  have zero : (0 : BitVec width).toNat = 0 := BitVec.toNat_zero
  rw [oddBit, bne_iff_ne, ne_eq, ← BitVec.toNat_inj, BitVec.toNat_and, one,
    Nat.and_one_is_mod, zero, Nat.odd_iff]
  omega

theorem length_fillRowCols (row : Relation) (lpCol : Option Nat) :
    (fillRowCols row lpCol).length = countRowCols row lpCol := by
  rw [fillRowCols, countRowCols, List.length_append, List.length_append,
    List.length_append, List.length_insertionSort, List.length_map,
    List.countP_eq_length_filter]
  congr 1
  · congr 2
    · cases row.sign != 1 <;> rfl
    · cases oddBit row.val2Exp <;> rfl
  · cases lpCol <;> rfl

structure OverFactorBase (fbSize : Nat) (row : Relation) : Prop where
  distinct : (row.factors.map Prod.fst).Nodup
  inside : ∀ factor ∈ row.factors, factor.1 < fbSize

instance (fbSize : Nat) (row : Relation) : Decidable (OverFactorBase fbSize row) :=
  decidable_of_iff ((row.factors.map Prod.fst).Nodup ∧ ∀ factor ∈ row.factors, factor.1 < fbSize)
    ⟨fun ⟨distinct, inside⟩ => ⟨distinct, inside⟩, fun ⟨distinct, inside⟩ => ⟨distinct, inside⟩⟩

theorem mem_fillRowCols {row : Relation} {lpCol : Option Nat} {c : Nat} :
    c ∈ fillRowCols row lpCol ↔ (row.sign != 1) = true ∧ c = 0 ∨ oddBit row.val2Exp = true ∧ c = 1 ∨
        (∃ factor ∈ row.factors, oddBit factor.2 = true ∧ factor.1 + 2 = c) ∨
        lpCol = some c := by
  rw [fillRowCols, List.mem_append, List.mem_append, List.mem_append,
    List.mem_insertionSort, List.mem_map, Option.mem_toList, or_assoc, or_assoc]
  have bit (b : Bool) (k : Nat) : c ∈ (if b = true then [k] else []) ↔ b = true ∧ c = k := by
    cases b <;> simp
  rw [bit, bit]
  simp only [List.mem_filter, and_assoc]

/-- A row is ascending when its large-prime column lies after the factor base. -/
theorem ascending_fillRowCols {fbSize : Nat} {row : Relation}
    (inBase : OverFactorBase fbSize row) {lpCol : Option Nat}
    (after : ∀ col, lpCol = some col → fbSize + 2 ≤ col) :
    (fillRowCols row lpCol).Pairwise (· < ·) := by
  have distinct : ((row.factors.filter fun factor => oddBit factor.2).map
      fun factor => factor.1 + 2).Nodup := by
    have shifted : (((row.factors.filter fun factor => oddBit factor.2).map
        Prod.fst).map (· + 2)).Nodup :=
      (inBase.distinct.sublist (List.filter_sublist.map _)).map (add_left_injective 2)
    rwa [List.map_map] at shifted
  have sorted : (((row.factors.filter fun factor => oddBit factor.2).map
      fun factor => factor.1 + 2).insertionSort (· ≤ ·)).Pairwise (· < ·) := by
    have ordered := List.pairwise_insertionSort (· ≤ ·)
      ((row.factors.filter fun factor => oddBit factor.2).map fun factor => factor.1 + 2)
    have apart := (List.perm_insertionSort (· ≤ ·)
      ((row.factors.filter fun factor => oddBit factor.2).map
        fun factor => factor.1 + 2)).nodup_iff.mpr distinct
    exact (ordered.and apart).imp fun ⟨le, ne⟩ => lt_of_le_of_ne le ne
  rw [fillRowCols, List.pairwise_append, List.pairwise_append, List.pairwise_append]
  have factorColumn : ∀ c ∈ (((row.factors.filter fun factor => oddBit factor.2).map
      fun factor => factor.1 + 2).insertionSort (· ≤ ·)), 2 ≤ c ∧ c < fbSize + 2 := by
    intro c member
    rw [List.mem_insertionSort, List.mem_map] at member
    obtain ⟨factor, present, rfl⟩ := member
    exact ⟨Nat.le_add_left _ _,
      Nat.add_lt_add_right (inBase.inside factor (List.mem_filter.mp present).1) 2⟩
  have front : ∀ c ∈ (if row.sign != 1 then [0] else []), c = 0 := by
    cases row.sign != 1 <;> simp
  have second : ∀ c ∈ (if oddBit row.val2Exp then [1] else []), c = 1 := by
    cases oddBit row.val2Exp <;> simp
  refine ⟨⟨⟨?_, ?_, ?_⟩, sorted, ?_⟩, ?_, ?_⟩
  · cases row.sign != 1 <;> simp
  · cases oddBit row.val2Exp <;> simp
  · intro a left b right
    rw [front a left, second b right]
    exact Nat.zero_lt_one
  · intro a left b right
    have low : a ≤ 1 := by
      rcases List.mem_append.mp left with left | left
      · exact (front a left).le.trans (Nat.zero_le 1)
      · exact (second a left).le
    exact lt_of_le_of_lt low (factorColumn b right).1
  · cases lpCol <;> simp
  · intro a left b right
    have stop := after b (Option.mem_toList.mp right)
    have low : a < fbSize + 2 := by
      rcases List.mem_append.mp left with left | left
      · rcases List.mem_append.mp left with left | left
        · rw [front a left]
          exact Nat.succ_pos _
        · rw [second a left]
          exact Nat.succ_lt_succ (Nat.succ_pos _)
      · exact (factorColumn a left).2
    exact lt_of_lt_of_le low stop

/-! ## The whole matrix -/

/-- What the assertions and the callers of `build` promise of its batches. -/
structure Admissible (smooths partials : HostRelationBatch) (fbSize : Nat) : Prop where
  smooth : ∀ row ∈ smooths.relations, row.largePrime = 1
  onePrime : ∀ row ∈ partials.relations, 1 < row.largePrime ∧ row.largePrime < 2 ^ 48
  factors : ∀ row ∈ smooths.relations ++ partials.relations, OverFactorBase fbSize row

def lpColOf (columns : LpColumns) (row : Relation) : Option Nat :=
  if row.largePrime = 1 then none else some (columns.column (lpKey row))

def expandedRows (columns : LpColumns) (smooths partials : HostRelationBatch) : List (List Nat) :=
  smooths.relations.map (fillRowCols · none) ++
    partials.relations.map fun row => fillRowCols row (some (columns.column (lpKey row)))

section Whole

variable {smooths partials : HostRelationBatch} {fbSize : Nat}

theorem length_relations (batch : HostRelationBatch) :
    batch.relations.length = batch.numRelations := by
  rw [HostRelationBatch.relations, List.length_map, List.length_range]

theorem Admissible.expandedRows_eq (admissible : Admissible smooths partials fbSize)
    (columns : LpColumns) :
    expandedRows columns smooths partials = (smooths.relations ++ partials.relations).map
        fun row => fillRowCols row (lpColOf columns row) := by
  rw [expandedRows, List.map_append]
  congr 1
  · apply List.map_congr_left
    intro row member
    rw [lpColOf, if_pos (admissible.smooth row member)]
  · apply List.map_congr_left
    intro row member
    have large : row.largePrime ≠ 1 := 
      (BitVec.ne_of_lt (admissible.onePrime row member).1).symm
    rw [lpColOf, if_neg large]

variable {row : Relation}

section

variable (admissible : Admissible smooths partials fbSize)
  (member : row ∈ smooths.relations ++ partials.relations)

include admissible member

theorem Admissible.mem_partials (large : row.largePrime ≠ 1) : row ∈ partials.relations := by
  rcases List.mem_append.mp member with member | member
  · exact absurd (admissible.smooth row member) large
  · exact member

theorem Admissible.lpColOf_inside {col : Nat}
    (has : lpColOf (assignLpColumns partials fbSize) row = some col) :
    fbSize + 2 ≤ col ∧ col < (assignLpColumns partials fbSize).nextLpCol := by
  unfold lpColOf at has
  by_cases small : row.largePrime = 1
  · rw [if_pos small] at has
    cases has
  · rw [if_neg small] at has
    cases has
    exact (assigned_assignLpColumns partials fbSize).column_inside
      (List.mem_map_of_mem (admissible.mem_partials member small))

theorem Admissible.fillRowCols_lt {c : Nat}
    (present : c ∈ fillRowCols row (lpColOf (assignLpColumns partials fbSize) row)) :
    c < (assignLpColumns partials fbSize).nextLpCol := by
  have next := (assigned_assignLpColumns partials fbSize).next
  rcases mem_fillRowCols.mp present with ⟨-, rfl⟩ | ⟨-, rfl⟩ | ⟨factor, inside, -, rfl⟩ | has
  · omega
  · omega
  · have bound := (admissible.factors row member).inside factor inside
    omega
  · exact (admissible.lpColOf_inside member has).2

end

theorem length_expandedRows (columns : LpColumns) : (expandedRows columns smooths partials).length =
      smooths.numRelations + partials.numRelations := by
  rw [expandedRows, List.length_append, List.length_map, List.length_map,
    length_relations, length_relations]

/-- The builder returns the matrix of the expanded rows. -/
theorem Admissible.matrix_build (admissible : Admissible smooths partials fbSize) :
    (build smooths partials fbSize).matrix = ofRows (assignLpColumns partials fbSize).nextLpCol
          (expandedRows (assignLpColumns partials fbSize) smooths partials) ∧
      (ofRows (assignLpColumns partials fbSize).nextLpCol
        (expandedRows (assignLpColumns partials fbSize) smooths partials)).WellFormed := by
  have next := (assigned_assignLpColumns partials fbSize).next
  have valid : (ofRows (assignLpColumns partials fbSize).nextLpCol
      (expandedRows (assignLpColumns partials fbSize) smooths partials)).WellFormed := by
    rw [admissible.expandedRows_eq]
    apply wellFormed_ofRows
    · intro cols member c present
      obtain ⟨row, inside, rfl⟩ := List.mem_map.mp member
      exact admissible.fillRowCols_lt inside present
    · intro cols member
      obtain ⟨row, inside, rfl⟩ := List.mem_map.mp member
      exact ascending_fillRowCols (admissible.factors row inside)
        fun col has => (admissible.lpColOf_inside inside has).1
  refine ⟨?_, valid⟩
  have counts : smooths.relations.map (countRowCols · none) ++ (partials.relations.map fun row =>
        countRowCols row (some ((assignLpColumns partials fbSize).column (lpKey row)))) =
      (expandedRows (assignLpColumns partials fbSize) smooths partials).map List.length := by
    rw [expandedRows, List.map_append, List.map_map, List.map_map]
    simp only [Function.comp_def, length_fillRowCols]
  have csr := fillFrom_eq_ofRows (assignLpColumns partials fbSize).nextLpCol
    (expandedRows (assignLpColumns partials fbSize) smooths partials)
  have passes (offsets cells : List Nat) :
      fillFrom offsets cells 0 (expandedRows (assignLpColumns partials fbSize) smooths partials) =
        fillFrom offsets
          (fillFrom offsets cells 0 (smooths.relations.map (fillRowCols · none)))
          smooths.numRelations
          (partials.relations.map fun row =>
            fillRowCols row (some ((assignLpColumns partials fbSize).column (lpKey row)))) := by
    rw [expandedRows, fillFrom_append, List.length_map, length_relations, Nat.zero_add]
  rw [passes, length_expandedRows, ← counts] at csr
  rw [csr] at valid
  rw [csr]
  simp only [build]
  rw [Nat.add_sub_cancel' next, if_pos valid]

/-! ## Sums of rows -/

def chosenRelations (chosen : Nat → Bool) (rows : List Relation) : List Relation :=
  (rows.zipIdx.filter fun entry => chosen entry.2).map Prod.fst

structure EvenProduct (fbSize : Nat) (rows : List Relation) : Prop where
  sign : Even (signTotal rows)
  val2 : Even (val2Total rows)
  exponent : ∀ idx < fbSize, Even (exponentTotal (allFactors rows) idx)
  largePrime : ∀ lp, 1 < lp → Even (rows.countP (·.largePrime == lp))

theorem chosenRelations_subset (chosen : Nat → Bool) (rows : List Relation) :
    ∀ row ∈ chosenRelations chosen rows, row ∈ rows := by
  intro row member
  obtain ⟨entry, inside, rfl⟩ := List.mem_map.mp member
  exact List.fst_mem_of_mem_zipIdx (List.mem_filter.mp inside).1

theorem card_chosen (chosen : Nat → Bool) (rows : List Relation)
    (cols : Relation → List Nat) (rowAt : Nat → List Nat)
    (same : ∀ r row, rows[r]? = some row → rowAt r = cols row) (c : Nat) :
    ((Finset.range rows.length).filter fun r => chosen r ∧ c ∈ rowAt r).card =
      (chosenRelations chosen rows).countP (fun row => c ∈ cols row) := by
  have positions : List.range rows.length = rows.zipIdx.map Prod.snd := by
    rw [List.zipIdx_map_snd, List.range_eq_range']
  have card : ((Finset.range rows.length).filter fun r => chosen r ∧ c ∈ rowAt r).card =
      (List.range rows.length).countP fun r => decide (chosen r ∧ c ∈ rowAt r) := by
    rw [List.countP_eq_length_filter]
    rfl
  rw [card, positions, List.countP_map, chosenRelations, List.countP_map, List.countP_filter]
  apply List.countP_congr
  rintro ⟨row, r⟩ member
  have place := same r row (List.mem_zipIdx_iff_getElem?.mp member)
  simp [place, and_comm]

theorem even_sum_iff {α : Type} (items : List α) (amount : α → Nat) :
    Even (items.map amount).sum ↔ Even (items.countP fun item => Odd (amount item)) := by
  induction items with
  | nil => rfl
  | cons item items induction =>
    rw [List.map_cons, List.sum_cons, List.countP_cons, Nat.even_add, induction, Nat.even_add]
    by_cases odd : Odd (amount item)
    · simp [odd, Nat.not_even_iff_odd.mpr odd, Nat.not_even_iff_odd]
    · simp [odd, Nat.not_odd_iff_even.mp odd]

private theorem exponentTotal_append (left right : List Factor) (idx : Nat) :
    exponentTotal (left ++ right) idx = exponentTotal left idx + exponentTotal right idx := by
  rw [exponentTotal, List.map_append, List.sum_append, exponentTotal, exponentTotal]

theorem exponentTotal_allFactors (rows : List Relation) (idx : Nat) :
    exponentTotal (allFactors rows) idx =
      (rows.map fun row => exponentTotal row.factors idx).sum := by
  induction rows with
  | nil => rfl
  | cons row rows induction =>
    rw [List.map_cons, List.sum_cons, ← induction, ← exponentTotal_append]
    rfl

theorem odd_exponentTotal (factors : List Factor)
    (distinct : (factors.map Prod.fst).Nodup) (idx : Nat) :
    Odd (exponentTotal factors idx) ↔
      ∃ factor ∈ factors, oddBit factor.2 = true ∧ factor.1 = idx := by
  induction factors with
  | nil => simp [exponentTotal]
  | cons factor factors induction =>
    rw [List.map_cons, List.nodup_cons] at distinct
    have split : exponentTotal (factor :: factors) idx =
        (if factor.1 = idx then factor.2.toNat else 0) + exponentTotal factors idx := rfl
    by_cases here : factor.1 = idx
    · have absent : exponentTotal factors idx = 0 := by
        apply List.sum_eq_zero
        intro amount member
        obtain ⟨other, inside, rfl⟩ := List.mem_map.mp member
        refine if_neg fun same => distinct.1 ?_
        rw [here, ← same]
        exact List.mem_map_of_mem inside
      rw [split, if_pos here, absent, Nat.add_zero, ← oddBit_iff (by decide)]
      constructor
      · intro odd
        exact ⟨factor, List.mem_cons_self, odd, here⟩
      · rintro ⟨other, member, odd, same⟩
        rcases List.mem_cons.mp member with rfl | member
        · exact odd
        · refine absurd ?_ distinct.1
          rw [here, ← same]
          exact List.mem_map_of_mem member
    · rw [split, if_neg here, Nat.zero_add, induction distinct.2]
      simp [here]

def rowCols (columns : LpColumns) (row : Relation) : List Nat :=
  fillRowCols row (lpColOf columns row)

section

variable (admissible : Admissible smooths partials fbSize)
  (member : row ∈ smooths.relations ++ partials.relations)

include admissible member

theorem Admissible.sign_mem :
    0 ∈ rowCols (assignLpColumns partials fbSize) row ↔ (row.sign != 1) = true := by
  rw [rowCols, mem_fillRowCols]
  constructor
  · rintro (⟨negative, -⟩ | ⟨-, absurdity⟩ | ⟨factor, -, -, absurdity⟩ | has)
    · exact negative
    · cases absurdity
    · cases absurdity
    · have after := (admissible.lpColOf_inside member has).1
      omega
  · intro negative
    exact .inl ⟨negative, rfl⟩

theorem Admissible.val2_mem :
    1 ∈ rowCols (assignLpColumns partials fbSize) row ↔ Odd row.val2Exp.toNat := by
  rw [rowCols, mem_fillRowCols, ← oddBit_iff (by decide)]
  constructor
  · rintro (⟨-, absurdity⟩ | ⟨odd, -⟩ | ⟨factor, -, -, absurdity⟩ | has)
    · cases absurdity
    · exact odd
    · omega
    · have after := (admissible.lpColOf_inside member has).1
      omega
  · intro odd
    exact .inr (.inl ⟨odd, rfl⟩)

theorem Admissible.factor_mem {idx : Nat} (inside : idx < fbSize) :
    idx + 2 ∈ rowCols (assignLpColumns partials fbSize) row ↔
      Odd (exponentTotal row.factors idx) := by
  rw [rowCols, mem_fillRowCols,
    odd_exponentTotal row.factors (admissible.factors row member).distinct]
  constructor
  · rintro (⟨-, absurdity⟩ | ⟨-, absurdity⟩ | ⟨factor, present, odd, same⟩ | has)
    · cases absurdity
    · omega
    · exact ⟨factor, present, odd, Nat.add_right_cancel same⟩
    · have after := (admissible.lpColOf_inside member has).1
      omega
  · rintro ⟨factor, present, odd, same⟩
    exact .inr (.inr (.inl ⟨factor, present, odd, congrArg (· + 2) same⟩))

theorem Admissible.lp_mem {c : Nat} (after : fbSize + 2 ≤ c) :
    c ∈ rowCols (assignLpColumns partials fbSize) row ↔
      lpColOf (assignLpColumns partials fbSize) row = some c := by
  rw [rowCols, mem_fillRowCols]
  constructor
  · rintro (⟨-, absurdity⟩ | ⟨-, absurdity⟩ | ⟨factor, present, odd, same⟩ | has)
    · omega
    · omega
    · have bound := (admissible.factors row member).inside factor present
      omega
    · exact has
  · intro has
    exact .inr (.inr (.inr has))

end

private theorem lpKey_injective {row row' : Relation} (small : row.largePrime < 2 ^ 48)
    (small' : row'.largePrime < 2 ^ 48) :
    lpKey row = lpKey row' ↔ row.largePrime = row'.largePrime := by
  have narrow {lp : BitVec 128} (small : lp < 2 ^ 48) : lp.toNat < 2 ^ 64 :=
    lt_trans (BitVec.lt_def.mp small) (by decide)
  rw [lpKey, lpKey, ← BitVec.toNat_inj, ← BitVec.toNat_inj, BitVec.toNat_setWidth,
    BitVec.toNat_setWidth, Nat.mod_eq_of_lt (narrow small), Nat.mod_eq_of_lt (narrow small')]

theorem Admissible.lpColOf_iff (admissible : Admissible smooths partials fbSize)
    {row row' : Relation} (member : row ∈ smooths.relations ++ partials.relations)
    (member' : row' ∈ smooths.relations ++ partials.relations)
    (large' : row'.largePrime ≠ 1) :
    lpColOf (assignLpColumns partials fbSize) row = lpColOf (assignLpColumns partials fbSize) row' ↔
      row.largePrime = row'.largePrime := by
  have onePrime' := admissible.mem_partials member' large'
  by_cases small : row.largePrime = 1
  · rw [lpColOf, lpColOf, if_pos small, if_neg large', small]
    exact iff_of_false (Option.some_ne_none _).symm large'.symm
  · have onePrime := admissible.mem_partials member small
    rw [lpColOf, lpColOf, if_neg small, if_neg large', Option.some_inj,
      (assigned_assignLpColumns partials fbSize).column_injective
        (List.mem_map_of_mem onePrime) (List.mem_map_of_mem onePrime'),
      lpKey_injective (admissible.onePrime row onePrime).2
        (admissible.onePrime row' onePrime').2]

theorem Admissible.countP_lp (admissible : Admissible smooths partials fbSize)
    {rows : List Relation}
    (subset : ∀ row ∈ rows, row ∈ smooths.relations ++ partials.relations)
    {row' : Relation} (member' : row' ∈ rows) (large' : row'.largePrime ≠ 1) {c : Nat}
    (has : lpColOf (assignLpColumns partials fbSize) row' = some c) :
    rows.countP (fun row => c ∈ rowCols (assignLpColumns partials fbSize) row) =
      rows.countP (·.largePrime == row'.largePrime) := by
  have after := (admissible.lpColOf_inside (subset row' member') has).1
  apply List.countP_congr
  intro row member
  rw [decide_eq_true_iff, admissible.lp_mem (subset row member) after, ← has,
    admissible.lpColOf_iff (subset row member) (subset row' member') large', beq_iff_eq]

/-- The columns of some rows cancel when their product is a square. -/
theorem Admissible.even_columns_iff (admissible : Admissible smooths partials fbSize)
    {rows : List Relation}
    (subset : ∀ row ∈ rows, row ∈ smooths.relations ++ partials.relations) :
    (∀ c, Even (rows.countP fun row =>
        c ∈ rowCols (assignLpColumns partials fbSize) row)) ↔
      EvenProduct fbSize rows := by
  have sign : rows.countP (fun row =>
      0 ∈ rowCols (assignLpColumns partials fbSize) row) = signTotal rows := by
    apply List.countP_congr
    intro row member
    rw [decide_eq_true_iff, admissible.sign_mem (subset row member)]
  have val2 : Even (rows.countP fun row =>
      1 ∈ rowCols (assignLpColumns partials fbSize) row) ↔ Even (val2Total rows) := by
    rw [val2Total, even_sum_iff]
    refine iff_of_eq (congrArg Even (List.countP_congr ?_))
    intro row member
    rw [decide_eq_true_iff, admissible.val2_mem (subset row member), decide_eq_true_iff]
  have exponent (idx : Nat) (inside : idx < fbSize) : Even (rows.countP fun row =>
      idx + 2 ∈ rowCols (assignLpColumns partials fbSize) row) ↔
        Even (exponentTotal (allFactors rows) idx) := by
    rw [exponentTotal_allFactors, even_sum_iff]
    refine iff_of_eq (congrArg Even (List.countP_congr ?_))
    intro row member
    rw [decide_eq_true_iff, admissible.factor_mem (subset row member) inside, decide_eq_true_iff]
  constructor
  · intro even
    refine ⟨sign ▸ even 0, val2.mp (even 1),
      fun idx inside => (exponent idx inside).mp (even (idx + 2)), ?_⟩
    intro lp large
    by_cases occurs : ∃ row ∈ rows, row.largePrime = lp
    · obtain ⟨row, member, rfl⟩ := occurs
      have large' : row.largePrime ≠ 1 := (BitVec.ne_of_lt large).symm
      rw [← admissible.countP_lp subset member large' (if_neg large')]
      exact even _
    · rw [List.countP_eq_zero.mpr]
      · exact Even.zero
      · intro row member same
        exact occurs ⟨row, member, beq_iff_eq.mp same⟩
  · rintro even c
    rcases c with _ | _ | idx
    · exact sign ▸ even.sign
    · exact val2.mpr even.val2
    · by_cases inside : idx < fbSize
      · exact (exponent idx inside).mpr (even.exponent idx inside)
      · have after : fbSize + 2 ≤ idx + 2 := Nat.add_le_add_right (not_lt.mp inside) 2
        by_cases occurs : ∃ row ∈ rows,
            lpColOf (assignLpColumns partials fbSize) row = some (idx + 2)
        · obtain ⟨row, member, has⟩ := occurs
          have large : row.largePrime ≠ 1 := by
            intro small
            rw [lpColOf, if_pos small] at has
            cases has
          rw [admissible.countP_lp subset member large has]
          exact even.largePrime _
            (admissible.onePrime row (admissible.mem_partials (subset row member) large)).1
        · rw [List.countP_eq_zero.mpr]
          · exact Even.zero
          · intro row member present
            exact occurs ⟨row, member,
              (admissible.lp_mem (subset row member) after).mp (of_decide_eq_true present)⟩

end Whole

/-! ## The builder's contract -/

structure Expands (smooths partials : HostRelationBatch) (fbSize : Nat)
    (matrix : HostMatrixCSR) : Prop where
  wellFormed : matrix.WellFormed
  filled : matrix.rowList = smooths.relations.map (fillRowCols · none) ++
    partials.relations.map fun row =>
      fillRowCols row (some ((assignLpColumns partials fbSize).column (lpKey row)))
  counted : matrix.rowList.map List.length =
    smooths.relations.map (countRowCols · none) ++ partials.relations.map fun row =>
      countRowCols row (some ((assignLpColumns partials fbSize).column (lpKey row)))
  kernel : ∀ chosen, matrix.InLeftKernel chosen ↔ EvenProduct fbSize
    (chosenRelations chosen (smooths.relations ++ partials.relations))

theorem build_spec (smooths partials : HostRelationBatch) (fbSize : Nat)
    (admissible : Admissible smooths partials fbSize) :
    Expands smooths partials fbSize (build smooths partials fbSize).matrix := by
  obtain ⟨matrix, valid⟩ := admissible.matrix_build
  rw [matrix]
  refine ⟨valid, rowList_ofRows _ _, ?_, ?_⟩
  · rw [rowList_ofRows, expandedRows, List.map_append, List.map_map, List.map_map]
    simp only [Function.comp_def, length_fillRowCols]
  · intro chosen
    rw [← admissible.even_columns_iff
      (chosenRelations_subset chosen (smooths.relations ++ partials.relations))]
    apply forall_congr'
    intro c
    rw [nRows_ofRows, length_expandedRows, ← length_relations smooths,
      ← length_relations partials, ← List.length_append,
      card_chosen chosen _ (rowCols (assignLpColumns partials fbSize))]
    intro r row place
    obtain ⟨inside, value⟩ := List.getElem?_eq_some_iff.mp place
    have within : r < (expandedRows (assignLpColumns partials fbSize) smooths
        partials).length := by
      rw [admissible.expandedRows_eq, List.length_map]
      exact inside
    rw [row_ofRows _ _ within, List.getD_eq_getElem _ _ within]
    simp only [admissible.expandedRows_eq, List.getElem_map, value]
    rfl

def smallSmooths : HostRelationBatch :=
  HostRelationBatch.empty.push ⟨UInt512.ofUInt32 5, 0xFF, 3, 1, 0, [(2, 1), (0, 2)]⟩

def smallPartials : HostRelationBatch :=
  (HostRelationBatch.empty.push ⟨UInt512.ofUInt32 7, 1, 2, 101, 0, [(1, 3)]⟩).push
    ⟨UInt512.ofUInt32 9, 1, 4, 101, 0, [(1, 1), (0, 4)]⟩

theorem build_spec_small :
    Expands smallSmooths smallPartials 3 (build smallSmooths smallPartials 3).matrix :=
  build_spec smallSmooths smallPartials 3 ⟨by decide, by decide, by decide⟩

example : (build smallSmooths smallPartials 3).matrix =
    ⟨[0, 3, 5, 7], [0, 1, 4, 3, 5, 3, 5], 3, 6⟩ := by
  decide

end ExpandedMatrixBuilder

end CudaMpqs
