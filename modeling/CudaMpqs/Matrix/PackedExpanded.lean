import CudaMpqs.Foundation.SortedKeys
import CudaMpqs.Matrix.ExpandedMatrix
import CudaMpqs.Matrix.PackedMatrix

/-! # The packed expanded matrix

`gpuBuildPackedMatrix` counts and fills one row for each smooth and each partial
relation, with full exponents: the sign, the prime two, the factor base, and the large
prime in the column of its key. -/

namespace CudaMpqs.GpuPackedExpanded

open ExpandedMatrixBuilder SortedKeys StreamCompaction

/-! ## Kernels -/

def makePacked (col : Nat) (exp : BitVec 8) : PackedEntry := (col % 2 ^ 24, exp)

structure RowSource where
  isSmooth : Bool
  relation : Relation

def lpKeyOf (relation : Relation) : Nat := (lpKey relation).toNat

def RowSource.hasLp (source : RowSource) : Bool :=
  if source.isSmooth then 1 < lpKeyOf source.relation else true

def countRowNnz (source : RowSource) : Nat :=
  (if source.relation.sign ≠ 1 then 1 else 0) + (if source.relation.val2Exp ≠ 0 then 1 else 0) +
    source.relation.factors.countP (fun factor => factor.2 ≠ 0) +
    (if source.hasLp then 1 else 0)

def factorEntries (relation : Relation) : List PackedEntry :=
  ((relation.factors.filter fun factor => factor.2 ≠ 0).map
    fun factor => makePacked (factor.1 + 2) factor.2).insertionSort fun left right =>
      left.1 ≤ right.1

def lpCol (keys : List Nat) (fbSize : Nat) (relation : Relation) : Nat :=
  fbSize + 2 + lowerBound keys (lpKeyOf relation)

def lpEntry (keys : List Nat) (fbSize : Nat) (source : RowSource) : PackedEntry :=
  makePacked (lpCol keys fbSize source.relation) (if source.isSmooth then 2 else 1)

def fillRow (keys : List Nat) (fbSize : Nat) (source : RowSource) : List PackedEntry :=
  (if source.relation.sign ≠ 1 then [makePacked 0 1] else []) ++
    (if source.relation.val2Exp ≠ 0 then
      [makePacked 1 (source.relation.val2Exp.setWidth 8)] else []) ++
    factorEntries source.relation ++
    (if source.hasLp then [lpEntry keys fbSize source] else [])

/-! ## Host -/

def rowSources (smooths partials : HostRelationBatch) : List RowSource :=
  smooths.relations.map (RowSource.mk true) ++ partials.relations.map (RowSource.mk false)

/-- The distinct keys in order. They are collected only if there are partial relations. -/
def lpSortKeys (smooths partials : HostRelationBatch) : List Nat :=
  if partials.numRelations = 0 then []
  else sortUnique (partials.relations.map lpKeyOf ++ (smooths.relations.map lpKeyOf).filter (1 < ·))

structure PackedExpandedResult where
  csr : DevicePackedCsr
  nLpCols : Nat
deriving DecidableEq

/-- Without partial relations `d_smooth_lp_col_offset` is a null pointer, and the thread of
a combined smooth row reads it. The row offsets and `total_nnz` have 32 bits in the source. -/
def gpuBuildPackedMatrix (smooths partials : HostRelationBatch) (fbSize : Nat)
    (buffer : Nat → PackedEntry) : Option PackedExpandedResult :=
  if partials.numRelations = 0 ∧ (smooths.relations.any fun relation => 1 < lpKeyOf relation) then
    none
  else
    let keys := lpSortKeys smooths partials
    let nUniqueLp := keys.length
    let sources := rowSources smooths partials
    let rowNnz := fun r : Nat => (sources[r]?.map countRowNnz).getD 0
    let rowOffsets := exclusiveScan rowNnz
    let entries := writeRows rowOffsets
      (fun r : Nat => (sources[r]?.map (fillRow keys fbSize)).getD []) sources.length buffer
    some {
      csr := {
        rows := sources.zipIdx.map fun source => {
          entries := (List.range' (rowOffsets source.2)
            (rowOffsets (source.2 + 1) - rowOffsets source.2)).map entries
          sqrtQ := source.1.relation.sqrtQ
          sign := source.1.relation.sign
          val2Exp := source.1.relation.val2Exp
          charBits := source.1.relation.charBits }
        nCols := fbSize + 2 + nUniqueLp }
      nLpCols := nUniqueLp }

/-! ## The rows -/

def packRow (keys : List Nat) (fbSize : Nat) (source : RowSource) : PackedRow where
  entries := fillRow keys fbSize source
  sqrtQ := source.relation.sqrtQ
  sign := source.relation.sign
  val2Exp := source.relation.val2Exp
  charBits := source.relation.charBits

theorem length_fillRow (keys : List Nat) (fbSize : Nat) (source : RowSource) :
    (fillRow keys fbSize source).length = countRowNnz source := by
  rw [fillRow, countRowNnz, factorEntries, List.length_append, List.length_append,
    List.length_append, List.length_insertionSort, List.length_map,
    List.countP_eq_length_filter]
  congr 1
  · congr 2 <;> split <;> rfl
  · split <;> rfl

variable {smooths partials : HostRelationBatch} {fbSize : Nat}
variable {result : PackedExpandedResult}

theorem gpuBuildPackedMatrix_eq (buffer : Nat → PackedEntry)
    (built : gpuBuildPackedMatrix smooths partials fbSize buffer = some result) :
    result = ⟨⟨(rowSources smooths partials).map (packRow (lpSortKeys smooths partials) fbSize),
      fbSize + 2 + (lpSortKeys smooths partials).length⟩,
        (lpSortKeys smooths partials).length⟩ := by
  have counted : (fun r : Nat => ((rowSources smooths partials)[r]?.map countRowNnz).getD 0) =
      fun r : Nat => (((rowSources smooths partials)[r]?.map
        (fillRow (lpSortKeys smooths partials) fbSize)).getD []).length := by
    funext r
    cases (rowSources smooths partials)[r]? with
    | none => rfl
    | some source => exact (length_fillRow _ _ source).symm
  unfold gpuBuildPackedMatrix at built
  split at built
  · cases built
  simp only [counted, exclusiveScan_succ, Nat.add_sub_cancel_left] at built
  rw [← Option.some.inj built]
  congr 2
  apply List.ext_getElem
  · simp
  intro r inside _
  have bound : r < (rowSources smooths partials).length := by simpa using inside
  rw [List.getElem_map, List.getElem_zipIdx, List.getElem_map, packRow, Nat.zero_add,
    readRow_writeRows_scan _ _ _ bound, List.getElem?_eq_getElem bound]
  rfl

/-! ## Large primes -/

/-- What the callers promise: factor lists over a factor base whose columns fit 24 bits, and
large primes of 64 bits in all partial relations. -/
structure Admissible (smooths partials : HostRelationBatch) (fbSize : Nat) : Prop where
  factors : ∀ row ∈ smooths.relations ++ partials.relations, OverFactorBase fbSize row
  primes : ∀ row ∈ smooths.relations ++ partials.relations, row.largePrime.toNat < 2 ^ 64
  onePrime : ∀ row ∈ partials.relations, 1 < row.largePrime
  base : fbSize + 2 ≤ 2 ^ 24

instance (smooths partials : HostRelationBatch) (fbSize : Nat) :
    Decidable (Admissible smooths partials fbSize) :=
  decidable_of_iff ((∀ row ∈ smooths.relations ++ partials.relations, OverFactorBase fbSize row) ∧
      (∀ row ∈ smooths.relations ++ partials.relations, row.largePrime.toNat < 2 ^ 64) ∧
      (∀ row ∈ partials.relations, 1 < row.largePrime) ∧ fbSize + 2 ≤ 2 ^ 24)
    ⟨fun ⟨factors, primes, onePrime, base⟩ => ⟨factors, primes, onePrime, base⟩,
      fun ⟨factors, primes, onePrime, base⟩ => ⟨factors, primes, onePrime, base⟩⟩

def largePrimes (smooths partials : HostRelationBatch) : Finset (BitVec 128) :=
  (((smooths.relations ++ partials.relations).map Relation.largePrime).filter (1 < ·)).toFinset

theorem mem_largePrimes {lp : BitVec 128} : lp ∈ largePrimes smooths partials ↔
    1 < lp ∧ ∃ row ∈ smooths.relations ++ partials.relations, row.largePrime = lp := by
  rw [largePrimes, List.mem_toFinset, List.mem_filter, List.mem_map, decide_eq_true_eq]
  exact and_comm

variable {source : RowSource}

theorem relation_mem (isSource : source ∈ rowSources smooths partials) :
    source.relation ∈ smooths.relations ++ partials.relations := by
  rcases List.mem_append.mp isSource with isSmooth | isPartial
  · rcases List.mem_map.mp isSmooth with ⟨relation, member, rfl⟩
    exact List.mem_append_left _ member
  · rcases List.mem_map.mp isPartial with ⟨relation, member, rfl⟩
    exact List.mem_append_right _ member

theorem exists_source {row : Relation} (isRow : row ∈ smooths.relations ++ partials.relations) :
    ∃ source ∈ rowSources smooths partials, source.relation = row := by
  rcases List.mem_append.mp isRow with isSmooth | isPartial
  · exact ⟨_, List.mem_append_left _ (List.mem_map_of_mem isSmooth), rfl⟩
  · exact ⟨_, List.mem_append_right _ (List.mem_map_of_mem isPartial), rfl⟩

theorem ascending_lpSortKeys : (lpSortKeys smooths partials).Pairwise (· < ·) := by
  rw [lpSortKeys]
  split
  · exact .nil
  · exact ascending_sortUnique _

namespace Admissible

variable (admissible : Admissible smooths partials fbSize)

include admissible

theorem lpKeyOf_eq {row : Relation} (isRow : row ∈ smooths.relations ++ partials.relations) :
    lpKeyOf row = row.largePrime.toNat := by
  rw [lpKeyOf, lpKey, BitVec.toNat_setWidth]
  exact Nat.mod_eq_of_lt (admissible.primes row isRow)

theorem hasLp_iff {source : RowSource} (isSource : source ∈ rowSources smooths partials) :
    source.hasLp = true ↔ 1 < source.relation.largePrime := by
  rw [RowSource.hasLp, admissible.lpKeyOf_eq (relation_mem isSource), BitVec.lt_def]
  rcases List.mem_append.mp isSource with isSmooth | isPartial
  · rcases List.mem_map.mp isSmooth with ⟨relation, member, rfl⟩
    exact decide_eq_true_iff
  · rcases List.mem_map.mp isPartial with ⟨relation, member, rfl⟩
    exact iff_of_true rfl (BitVec.lt_def.mp (admissible.onePrime relation member))

theorem mem_lpSortKeys (reads : partials.numRelations = 0 → largePrimes smooths partials = ∅)
    {key : Nat} : key ∈ lpSortKeys smooths partials ↔
      ∃ lp ∈ largePrimes smooths partials, lp.toNat = key := by
  rw [lpSortKeys]
  split
  next none => simp [reads none]
  next some =>
      rw [mem_sortUnique, List.mem_append, List.mem_filter]
      simp only [mem_largePrimes, List.mem_map, decide_eq_true_eq]
      constructor
      · rintro (⟨row, isRow, rfl⟩ | ⟨⟨row, isRow, rfl⟩, combined⟩)
        · have member := List.mem_append_right smooths.relations isRow
          exact ⟨_, ⟨admissible.onePrime row isRow, row, member, rfl⟩,
            (admissible.lpKeyOf_eq member).symm⟩
        · have member := List.mem_append_left partials.relations isRow
          rw [admissible.lpKeyOf_eq member] at combined ⊢
          exact ⟨_, ⟨BitVec.lt_def.mpr combined, row, member, rfl⟩, rfl⟩
      · rintro ⟨lp, ⟨large, row, isRow, rfl⟩, rfl⟩
        rw [← admissible.lpKeyOf_eq isRow]
        rcases List.mem_append.mp isRow with isSmooth | isPartial
        · refine Or.inr ⟨⟨row, isSmooth, rfl⟩, ?_⟩
          rw [admissible.lpKeyOf_eq isRow]
          exact BitVec.lt_def.mp large
        · exact Or.inl ⟨row, isPartial, rfl⟩

theorem length_lpSortKeys (reads : partials.numRelations = 0 → largePrimes smooths partials = ∅) :
    (lpSortKeys smooths partials).length = (largePrimes smooths partials).card := by
  have nodup : (lpSortKeys smooths partials).Nodup := ascending_lpSortKeys.imp fun less => less.ne
  rw [← List.toFinset_card_of_nodup nodup,
    ← Finset.card_image_of_injective (largePrimes smooths partials)
      fun left right => BitVec.eq_of_toNat_eq]
  congr 1
  ext key
  rw [List.mem_toFinset, admissible.mem_lpSortKeys reads, Finset.mem_image]

end Admissible

/-! ## Columns -/

theorem makePacked_eq {col : Nat} (small : col < 2 ^ 24) (exp : BitVec 8) :
    makePacked col exp = (col, exp) := by
  rw [makePacked, Nat.mod_eq_of_lt small]

/-- The columns of a row: the sign, the prime two, the factor base, the large prime. -/
theorem mem_fillRow {keys : List Nat} {entry : PackedEntry} : entry ∈ fillRow keys fbSize source ↔
      source.relation.sign ≠ 1 ∧ entry = makePacked 0 1 ∨
      source.relation.val2Exp ≠ 0 ∧ entry = makePacked 1 (source.relation.val2Exp.setWidth 8) ∨
      (∃ factor ∈ source.relation.factors, factor.2 ≠ 0 ∧
        makePacked (factor.1 + 2) factor.2 = entry) ∨
      source.hasLp = true ∧ entry = lpEntry keys fbSize source := by
  have guarded (p : Prop) [Decidable p] (item : PackedEntry) :
      entry ∈ (if p then [item] else []) ↔ p ∧ entry = item := by
    split <;> simp [*]
  rw [fillRow, factorEntries, List.mem_append, List.mem_append, List.mem_append,
    List.mem_insertionSort, List.mem_map, or_assoc, or_assoc, guarded, guarded, guarded]
  simp only [List.mem_filter, decide_eq_true_eq, and_assoc]

theorem fillRow_lt {keys : List Nat} {entry : PackedEntry}
    (member : entry ∈ fillRow keys fbSize source) : entry.1 < 2 ^ 24 := by
  have masked : ∀ (col : Nat) (exp : BitVec 8), (makePacked col exp).1 < 2 ^ 24 :=
    fun col _ => Nat.mod_lt col (by decide)
  rcases mem_fillRow.mp member with ⟨-, rfl⟩ | ⟨-, rfl⟩ | ⟨factor, -, -, rfl⟩ | ⟨-, rfl⟩
  all_goals exact masked _ _

section Row

variable {keys : List Nat}

structure InColumns (keys : List Nat) (fbSize : Nat) (source : RowSource) : Prop where
  base : OverFactorBase fbSize source.relation
  lp : source.hasLp = true → lpCol keys fbSize source.relation < fbSize + 2 + keys.length
  small : fbSize + 2 + keys.length ≤ 2 ^ 24

variable {entry : PackedEntry}

section

variable (inside : InColumns keys fbSize source)

include inside

theorem InColumns.mem_factorEntries : entry ∈ factorEntries source.relation ↔
      ∃ factor ∈ source.relation.factors, factor.2 ≠ 0 ∧ (factor.1 + 2, factor.2) = entry := by
  have small := inside.small
  rw [factorEntries, List.mem_insertionSort, List.mem_map]
  simp only [List.mem_filter, decide_eq_true_eq, and_assoc]
  refine exists_congr fun factor => and_congr_right fun member => and_congr_right fun _ => ?_
  have bound := inside.base.inside factor member
  rw [makePacked_eq (by omega)]

theorem InColumns.ascending_factorEntries :
    SortedMerge.Ascending (factorEntries source.relation) := by
  have small := inside.small
  have sorted := List.pairwise_insertionSort (fun left right : PackedEntry => left.1 ≤ right.1)
    ((source.relation.factors.filter fun factor => factor.2 ≠ 0).map
      fun factor => makePacked (factor.1 + 2) factor.2)
  have distinct : ((source.relation.factors.filter fun factor => factor.2 ≠ 0).map
      fun factor => makePacked (factor.1 + 2) factor.2).Pairwise fun left right =>
        left.1 ≠ right.1 := by
    apply List.pairwise_map.mpr
    have base := List.pairwise_map.mp inside.base.distinct
    refine (base.filter _).imp_of_mem ?_
    intro factor factor' member member' different
    have bound := inside.base.inside factor (List.mem_of_mem_filter member)
    have bound' := inside.base.inside factor' (List.mem_of_mem_filter member')
    rw [makePacked_eq (by omega), makePacked_eq (by omega)]
    exact fun same => different (Nat.add_right_cancel same)
  have apart := (List.perm_insertionSort (fun left right : PackedEntry => left.1 ≤ right.1)
    _).symm.pairwise distinct fun same => same.symm
  exact (sorted.and apart).imp fun both => lt_of_le_of_ne both.1 both.2

theorem InColumns.lpEntry_eq (hasLp : source.hasLp = true) : lpEntry keys fbSize source =
      (lpCol keys fbSize source.relation, if source.isSmooth then 2 else 1) := by
  have bound := inside.lp hasLp
  have small := inside.small
  rw [lpEntry, makePacked_eq (by omega)]

theorem InColumns.front_lt
    (member : entry ∈ (if source.relation.sign ≠ 1 then [makePacked 0 1] else []) ++
      (if source.relation.val2Exp ≠ 0 then
        [makePacked 1 (source.relation.val2Exp.setWidth 8)] else []) ++
      factorEntries source.relation) : entry.1 < fbSize + 2 := by
  have low : ∀ (p : Prop) [Decidable p] (col : Nat) (exp : BitVec 8), col ≤ 1 →
      entry ∈ (if p then [makePacked col exp] else []) → entry.1 < fbSize + 2 := by
    intro p _ col exp le isEntry
    split at isEntry
    · rw [List.mem_singleton.mp isEntry, makePacked_eq (by omega)]
      exact Nat.lt_of_le_of_lt le (Nat.lt_add_left _ (by decide))
    · cases isEntry
  rcases List.mem_append.mp member with isFront | isFactor
  · rcases List.mem_append.mp isFront with isSign | isTwo
    · exact low _ 0 1 (Nat.zero_le 1) isSign
    · exact low _ 1 _ le_rfl isTwo
  · rcases inside.mem_factorEntries.mp isFactor with ⟨factor, inFactors, -, rfl⟩
    exact Nat.add_lt_add_right (inside.base.inside factor inFactors) 2

theorem InColumns.ascending : SortedMerge.Ascending (fillRow keys fbSize source) := by
  have sign : ∀ entry ∈ (if source.relation.sign ≠ 1 then [makePacked 0 1] else []),
      entry.1 = 0 := by
    split <;> simp [makePacked]
  have two : ∀ entry ∈ (if source.relation.val2Exp ≠ 0 then
      [makePacked 1 (source.relation.val2Exp.setWidth 8)] else []), entry.1 = 1 := by
    split <;> simp [makePacked]
  have factors : ∀ entry ∈ factorEntries source.relation, 2 ≤ entry.1 := by
    intro entry member
    rcases inside.mem_factorEntries.mp member with ⟨factor, -, -, rfl⟩
    exact Nat.le_add_left _ _
  rw [fillRow, SortedMerge.Ascending, List.pairwise_append, List.pairwise_append,
    List.pairwise_append]
  refine ⟨⟨⟨?_, ?_, ?_⟩, inside.ascending_factorEntries, ?_⟩, ?_, ?_⟩
  · split <;> simp
  · split <;> simp
  · intro left isLeft right isRight
    have first := sign left isLeft
    have second := two right isRight
    omega
  · intro left isLeft right isRight
    have second := factors right isRight
    rcases List.mem_append.mp isLeft with isLeft | isLeft
    · have first := sign left isLeft
      omega
    · have first := two left isLeft
      omega
  · split <;> simp
  · intro left isLeft right isRight
    have before := inside.front_lt isLeft
    split at isRight
    · rename_i hasLp
      rw [List.mem_singleton.mp isRight, inside.lpEntry_eq hasLp]
      exact Nat.lt_of_lt_of_le before (Nat.le_add_right _ _)
    · cases isRight

theorem InColumns.lpCols : ((fillRow keys fbSize source).map Prod.fst).filter (fbSize + 2 ≤ ·) =
      if source.hasLp then [lpCol keys fbSize source.relation] else [] := by
  rw [fillRow, List.map_append, List.filter_append, List.filter_eq_nil_iff.mpr, List.nil_append]
  · split
    next hasLp =>
        rw [inside.lpEntry_eq hasLp]
        simp [lpCol]
    next => rfl
  · intro col member
    rcases List.mem_map.mp member with ⟨entry, isEntry, rfl⟩
    have before := inside.front_lt isEntry
    simpa using before

end

end Row

/-! ## The matrix -/

/-- Every large prime has a column of its own behind the factor base, each row has the one
of its large prime, as many entries as were counted, and ascending columns. -/
structure LaysOut (smooths partials : HostRelationBatch) (fbSize : Nat)
    (result : PackedExpandedResult) : Prop where
  column : ∃ colOf : BitVec 128 → Nat, Set.InjOn colOf (largePrimes smooths partials) ∧
    (∀ lp ∈ largePrimes smooths partials, fbSize + 2 ≤ colOf lp ∧ colOf lp < result.csr.nCols) ∧
    ∀ {r : Nat} {source : RowSource}, (rowSources smooths partials)[r]? = some source →
      (result.csr.rowAt r).cols.filter (fbSize + 2 ≤ ·) =
        if 1 < source.relation.largePrime then [colOf source.relation.largePrime] else []
  counted : ∀ {r : Nat} {source : RowSource}, (rowSources smooths partials)[r]? = some source →
    (result.csr.rowAt r).entries.length = countRowNnz source
  ascending : ∀ row ∈ result.csr.rows, row.Ascending

theorem getElem?_rowSources {buffer : Nat → PackedEntry}
    (built : gpuBuildPackedMatrix smooths partials fbSize buffer = some result) {r : Nat}
    (isSource : (rowSources smooths partials)[r]? = some source) :
    result.csr.rowAt r = packRow (lpSortKeys smooths partials) fbSize source := by
  rw [gpuBuildPackedMatrix_eq buffer built, DevicePackedCsr.rowAt, List.getD_eq_getElem?_getD,
    List.getElem?_map, isSource]
  rfl

section Admissible

variable (admissible : Admissible smooths partials fbSize)

include admissible

theorem Admissible.isSome_iff (buffer : Nat → PackedEntry) :
    (gpuBuildPackedMatrix smooths partials fbSize buffer).isSome ↔
      (partials.numRelations = 0 → largePrimes smooths partials = ∅) := by
  have combined : (smooths.relations.any fun relation => 1 < lpKeyOf relation) = true ↔
      ∃ row ∈ smooths.relations, 1 < row.largePrime := by
    rw [List.any_eq_true]
    refine exists_congr fun row => and_congr_right fun isRow => ?_
    rw [admissible.lpKeyOf_eq (List.mem_append_left _ isRow), decide_eq_true_eq, BitVec.lt_def]
    rfl
  have empty : partials.numRelations = 0 →
      (largePrimes smooths partials = ∅ ↔ ¬ ∃ row ∈ smooths.relations, 1 < row.largePrime) := by
    intro none
    have noPartials : partials.relations = [] := by
      rw [← List.length_eq_zero_iff, length_relations, none]
    rw [Finset.eq_empty_iff_forall_notMem]
    constructor
    · rintro absent ⟨row, isRow, large⟩
      exact absent _ (mem_largePrimes.mpr ⟨large, row, List.mem_append_left _ isRow, rfl⟩)
    · intro absent lp member
      rcases mem_largePrimes.mp member with ⟨large, row, isRow, rfl⟩
      rw [noPartials, List.append_nil] at isRow
      exact absent ⟨row, isRow, large⟩
  unfold gpuBuildPackedMatrix
  split
  next null =>
      refine iff_of_false (by simp) fun reads => ?_
      exact (empty null.1).mp (reads null.1) (combined.mp null.2)
  next safe =>
      refine iff_of_true rfl fun none => (empty none).mpr fun some => ?_
      exact safe ⟨none, combined.mpr some⟩

theorem Admissible.inColumns (reads : partials.numRelations = 0 → largePrimes smooths partials = ∅)
    (columns : fbSize + 2 + (largePrimes smooths partials).card ≤ 2 ^ 24) {source : RowSource}
    (isSource : source ∈ rowSources smooths partials) :
    InColumns (lpSortKeys smooths partials) fbSize source := by
  refine ⟨admissible.factors _ (relation_mem isSource), fun hasLp => ?_, ?_⟩
  · have present : lpKeyOf source.relation ∈ lpSortKeys smooths partials := by
      rw [admissible.mem_lpSortKeys reads, admissible.lpKeyOf_eq (relation_mem isSource)]
      exact ⟨_, mem_largePrimes.mpr ⟨(admissible.hasLp_iff isSource).mp hasLp, _,
        relation_mem isSource, rfl⟩, rfl⟩
    exact Nat.add_lt_add_left (lowerBound_lt ascending_lpSortKeys present) _
  · rwa [admissible.length_lpSortKeys reads]

theorem Admissible.laysOut (columns : fbSize + 2 + (largePrimes smooths partials).card ≤ 2 ^ 24)
    {buffer : Nat → PackedEntry} {result : PackedExpandedResult}
    (built : gpuBuildPackedMatrix smooths partials fbSize buffer = some result) :
    LaysOut smooths partials fbSize result := by
  have reads := (admissible.isSome_iff buffer).mp (Option.isSome_of_eq_some built)
  have nCols : result.csr.nCols = fbSize + 2 + (lpSortKeys smooths partials).length := by
    rw [gpuBuildPackedMatrix_eq buffer built]
  have found : ∀ lp ∈ largePrimes smooths partials, (lpSortKeys smooths partials)[
      lowerBound (lpSortKeys smooths partials) lp.toNat]? = some lp.toNat := fun lp member =>
    getElem?_lowerBound ascending_lpSortKeys
      ((admissible.mem_lpSortKeys reads).mpr ⟨lp, member, rfl⟩)
  constructor
  · refine ⟨fun lp => fbSize + 2 + lowerBound (lpSortKeys smooths partials) lp.toNat, ?_, ?_, ?_⟩
    · intro lp member lp' member' same
      have place := Nat.add_left_cancel same
      have equal := found lp member
      rw [place, found lp' member'] at equal
      exact BitVec.eq_of_toNat_eq (Option.some.inj equal).symm
    · intro lp member
      have inside := (List.getElem?_eq_some_iff.mp (found lp member)).1
      rw [nCols]
      exact ⟨Nat.le_add_right _ _, Nat.add_lt_add_left inside _⟩
    · intro r source isSource
      have member := List.mem_of_getElem? isSource
      have inside := admissible.inColumns reads columns member
      rw [getElem?_rowSources built isSource, PackedRow.cols, packRow, inside.lpCols, lpCol,
        admissible.lpKeyOf_eq (relation_mem member)]
      simp only [admissible.hasLp_iff member]
  · intro r source isSource
    rw [getElem?_rowSources built isSource]
    exact length_fillRow _ _ _
  · intro row isRow
    rw [gpuBuildPackedMatrix_eq buffer built] at isRow
    rcases List.mem_map.mp isRow with ⟨source, isSource, rfl⟩
    exact (admissible.inColumns reads columns isSource).ascending

end Admissible

theorem LaysOut.card_le (laysOut : LaysOut smooths partials fbSize result)
    {buffer : Nat → PackedEntry}
    (built : gpuBuildPackedMatrix smooths partials fbSize buffer = some result) :
    (largePrimes smooths partials).card ≤ 2 ^ 24 - (fbSize + 2) := by
  rcases laysOut.column with ⟨colOf, injective, range, row⟩
  rw [← Nat.card_Ico]
  refine Finset.card_le_card_of_injOn colOf ?_ injective
  intro lp member
  rcases mem_largePrimes.mp member with ⟨large, relation, isRow, rfl⟩
  rcases exists_source isRow with ⟨source, isSource, rfl⟩
  rcases List.getElem_of_mem isSource with ⟨r, inside, isPlace⟩
  have isSource := List.getElem?_eq_some_iff.mpr ⟨inside, isPlace⟩
  have cols := row isSource
  rw [if_pos large, getElem?_rowSources built isSource] at cols
  have present : colOf source.relation.largePrime ∈
      (packRow (lpSortKeys smooths partials) fbSize source).cols :=
    List.mem_of_mem_filter (cols ▸ List.mem_singleton_self _)
  rcases List.mem_map.mp present with ⟨entry, isEntry, isCol⟩
  rw [Finset.coe_Ico, Set.mem_Ico, ← isCol]
  exact ⟨isCol ▸ (range _ member).1, fillRow_lt isEntry⟩

/-- The matrix is built as it should be if and only if its large primes come with a partial
relation and all columns fit 24 bits. -/
theorem gpuBuildPackedMatrix_laysOut_iff (admissible : Admissible smooths partials fbSize)
    (buffer : Nat → PackedEntry) :
    (∃ result, gpuBuildPackedMatrix smooths partials fbSize buffer = some result ∧
        LaysOut smooths partials fbSize result) ↔
      (partials.numRelations = 0 → largePrimes smooths partials = ∅) ∧
        fbSize + 2 + (largePrimes smooths partials).card ≤ 2 ^ 24 := by
  constructor
  · rintro ⟨result, built, laysOut⟩
    have fits := laysOut.card_le built
    have base := admissible.base
    exact ⟨(admissible.isSome_iff buffer).mp (Option.isSome_of_eq_some built), by omega⟩
  · rintro ⟨reads, columns⟩
    rcases Option.isSome_iff_exists.mp ((admissible.isSome_iff buffer).mpr reads) with
      ⟨result, built⟩
    exact ⟨result, built, admissible.laysOut columns built⟩

def combinedSmooths : HostRelationBatch :=
  HostRelationBatch.empty.push ⟨UInt512.ofUInt32 5, 0xFF, 3, 101, 0, [(2, 1), (0, 2)]⟩

def noEntries (_ : Nat) : PackedEntry := (0, 0)

theorem gpuBuildPackedMatrix_laysOut_iff_combined :
    (∃ result, gpuBuildPackedMatrix combinedSmooths smallPartials 3 noEntries = some result ∧
        LaysOut combinedSmooths smallPartials 3 result) ↔
      (smallPartials.numRelations = 0 → largePrimes combinedSmooths smallPartials = ∅) ∧
        3 + 2 + (largePrimes combinedSmooths smallPartials).card ≤ 2 ^ 24 :=
  gpuBuildPackedMatrix_laysOut_iff (by decide +kernel) noEntries

/-- Without partial relations its thread reads a null pointer. -/
theorem gpuBuildPackedMatrix_readsNull : Admissible combinedSmooths HostRelationBatch.empty 3 ∧
      gpuBuildPackedMatrix combinedSmooths HostRelationBatch.empty 3 noEntries = none ∧
      ¬ ∃ result, gpuBuildPackedMatrix combinedSmooths HostRelationBatch.empty 3 noEntries =
          some result ∧ LaysOut combinedSmooths HostRelationBatch.empty 3 result := by
  have null : gpuBuildPackedMatrix combinedSmooths HostRelationBatch.empty 3 noEntries = none := by
    decide +kernel
  refine ⟨by decide +kernel, null, ?_⟩
  rintro ⟨result, built, -⟩
  cases null.symm.trans built

end CudaMpqs.GpuPackedExpanded
