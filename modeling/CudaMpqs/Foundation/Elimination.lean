import Mathlib.Algebra.BigOperators.Ring.Finset
import Mathlib.Tactic.Ring

/-! # Row elimination and left kernels

Rows are functions on columns. Adding rows to one another and deleting a row
with a column of its own loses no left kernel vector, as long as each row
records which combination of the original rows it is. -/

namespace CudaMpqs.Elimination

variable {R ι κ leaf : Type} [CommRing R]

def combine (alive : Finset ι) (vectors : ι → κ → R) (x : ι → R) (j : κ) : R :=
  ∑ row ∈ alive, x row * vectors row j

def Kernel (alive : Finset ι) (rows : ι → κ → R) : Set (ι → R) :=
  {x | (∀ row, row ∉ alive → x row = 0) ∧ ∀ j, combine alive rows x j = 0}

def Expands (alive : Finset ι) (rows : ι → κ → R) (record : ι → leaf → R)
    (target : Set (leaf → R)) : Prop :=
  Set.BijOn (combine alive record) (Kernel alive rows) target

private theorem combine_congr {alive : Finset ι} {vectors vectors' : ι → κ → R}
    (same : ∀ row ∈ alive, vectors row = vectors' row) (x : ι → R) :
    combine alive vectors x = combine alive vectors' x := by
  funext j
  apply Finset.sum_congr rfl
  intro row member
  rw [same row member]

theorem Expands.congr {alive : Finset ι} {rows rows' : ι → κ → R}
    {record record' : ι → leaf → R} {target : Set (leaf → R)}
    (expands : Expands alive rows record target)
    (sameRows : ∀ row ∈ alive, rows row = rows' row)
    (sameRecord : ∀ row ∈ alive, record row = record' row) :
    Expands alive rows' record' target := by
  have kernel : Kernel alive rows = Kernel alive rows' := by
    ext x
    simp only [Kernel, combine_congr sameRows]
  rw [Expands, kernel] at expands
  exact expands.congr fun x _ => combine_congr sameRecord x

/-- The kernel of some of the rows is the part of the kernel supported on them. -/
theorem kernel_subset {alive alive' : Finset ι} (subset : alive' ⊆ alive) (rows : ι → κ → R) :
    Kernel alive' rows = {x ∈ Kernel alive rows | ∀ row, row ∉ alive' → x row = 0} := by
  have agree : ∀ x : ι → R, (∀ row, row ∉ alive' → x row = 0) → ∀ j,
      combine alive' rows x j = combine alive rows x j := by
    intro x support j
    apply Finset.sum_subset subset
    intro row _ outside
    rw [support row outside, zero_mul]
  ext x
  constructor
  · rintro ⟨support, cancels⟩
    refine ⟨⟨fun row dead => support row fun inside => dead (subset inside), ?_⟩, support⟩
    intro j
    rw [← agree x support, cancels]
  · rintro ⟨⟨_, cancels⟩, support⟩
    refine ⟨support, fun j => ?_⟩
    rw [agree x support, cancels]

/-! ## Row operations -/

section RowOperations

variable [DecidableEq ι] {alive : Finset ι} {rows rows' : ι → κ → R}
  {record record' : ι → leaf → R} {target : Set (leaf → R)}

/-- Deleting a row with a column of its own forgets no kernel vector. -/
theorem Expands.deleteRow {pivot : ι} {column : κ}
    (expands : Expands alive rows record target) (member : pivot ∈ alive)
    (entry : rows pivot column = 1)
    (others : ∀ row ∈ alive.erase pivot, rows row column = 0) :
    Expands (alive.erase pivot) rows record target := by
  have agree {β : Type} (vectors : ι → β → R) {x : ι → R} (zero : x pivot = 0) :
      combine alive vectors x = combine (alive.erase pivot) vectors x := by
    funext j
    rw [combine, ← Finset.add_sum_erase alive _ member, zero, zero_mul, zero_add, combine]
  have kernel : Kernel (alive.erase pivot) rows = Kernel alive rows := by
    ext x
    constructor
    · rintro ⟨support, cancels⟩
      have zero := support pivot (Finset.notMem_erase _ _)
      refine ⟨fun row dead => support row fun inside =>
        dead (Finset.mem_of_mem_erase inside), ?_⟩
      rwa [agree rows zero]
    · rintro ⟨support, cancels⟩
      have zero : x pivot = 0 := by
        have column := cancels column
        rw [combine, ← Finset.add_sum_erase alive _ member, entry, mul_one,
          Finset.sum_eq_zero, add_zero] at column
        · exact column
        · intro row inside
          rw [others row inside, mul_zero]
      refine ⟨?_, by rwa [← agree rows zero]⟩
      intro row dead
      by_cases isPivot : row = pivot
      · rw [isPivot, zero]
      · exact support row fun inside =>
          dead (Finset.mem_erase.mpr ⟨isPivot, inside⟩)
  rw [Expands, kernel]
  refine Set.BijOn.congr expands ?_
  intro x inKernel
  rw [← kernel] at inKernel
  exact agree record (inKernel.1 pivot (Finset.notMem_erase _ _))

def undoAdd (source destination : ι) (x : ι → R) : ι → R :=
  Function.update x source (x source + x destination)

theorem combine_undoAdd {β : Type} {vectors vectors' : ι → β → R}
    {source destination : ι} (sourceAlive : source ∈ alive)
    (destinationAlive : destination ∈ alive)
    (added : ∀ row ∈ alive, ∀ j, vectors' row j =
      vectors row j + if row = destination then vectors source j else 0)
    (x : ι → R) (j : β) :
    combine alive vectors (undoAdd source destination x) j = combine alive vectors' x j := by
  have left : combine alive vectors (undoAdd source destination x) j =
      combine alive vectors x j + x destination * vectors source j := by
    have split : ∀ row ∈ alive, undoAdd source destination x row * vectors row j =
        x row * vectors row j +
          if row = source then x destination * vectors source j else 0 := by
      intro row _
      rw [undoAdd, Function.update_apply]
      by_cases isSource : row = source
      · rw [if_pos isSource, if_pos isSource, isSource]
        ring
      · rw [if_neg isSource, if_neg isSource, add_zero]
    rw [combine, Finset.sum_congr rfl split, Finset.sum_add_distrib,
      Finset.sum_ite_eq_of_mem' _ _ _ sourceAlive, combine]
  have right : combine alive vectors' x j =
      combine alive vectors x j + x destination * vectors source j := by
    have split : ∀ row ∈ alive, x row * vectors' row j = x row * vectors row j +
        if row = destination then x row * vectors source j else 0 := by
      intro row inside
      rw [added row inside j]
      by_cases isDestination : row = destination
      · rw [if_pos isDestination, if_pos isDestination]
        ring
      · rw [if_neg isDestination, if_neg isDestination, add_zero, add_zero]
    rw [combine, Finset.sum_congr rfl split, Finset.sum_add_distrib,
      Finset.sum_ite_eq_of_mem' _ _ _ destinationAlive, combine]
  rw [left, right]

theorem Expands.addRow {source destination : ι}
    (expands : Expands alive rows record target) (sourceAlive : source ∈ alive)
    (destinationAlive : destination ∈ alive) (different : source ≠ destination)
    (addedRows : ∀ row ∈ alive, ∀ j, rows' row j =
      rows row j + if row = destination then rows source j else 0)
    (addedRecord : ∀ row ∈ alive, ∀ j, record' row j =
      record row j + if row = destination then record source j else 0) :
    Expands alive rows' record' target := by
  have cancels := combine_undoAdd sourceAlive destinationAlive addedRows
  have undo : Set.BijOn (undoAdd source destination) (Kernel alive rows')
      (Kernel alive rows) := by
    refine ⟨?_, ?_, ?_⟩
    · rintro x ⟨support, kernel⟩
      constructor
      · intro row dead
        have notSource : row ≠ source := by
          rintro rfl
          exact dead sourceAlive
        rw [undoAdd, Function.update_of_ne notSource]
        exact support row dead
      · intro j
        rw [cancels, kernel]
    · rintro x - y - equal
      have elsewhere : ∀ row, row ≠ source → x row = y row := by
        intro row notSource
        have same := congrFun equal row
        rwa [undoAdd, undoAdd, Function.update_of_ne notSource,
          Function.update_of_ne notSource] at same
      funext row
      by_cases isSource : row = source
      · have same := congrFun equal source
        rw [undoAdd, undoAdd, Function.update_self, Function.update_self,
          elsewhere destination different.symm] at same
        rw [isSource]
        exact add_right_cancel same
      · exact elsewhere row isSource
    · rintro x ⟨support, kernel⟩
      let y := Function.update x source (x source - x destination)
      have undone : undoAdd source destination y = x := by
        have atSource : y source = x source - x destination :=
          Function.update_self _ _ _
        have atDestination : y destination = x destination :=
          Function.update_of_ne different.symm _ _
        rw [undoAdd, atSource, atDestination, sub_add_cancel]
        exact (Function.update_idem _ _ _).trans (Function.update_eq_self _ _)
      refine ⟨y, ⟨?_, ?_⟩, undone⟩
      · intro row dead
        have notSource : row ≠ source := by
          rintro rfl
          exact dead sourceAlive
        exact (Function.update_of_ne notSource _ _).trans (support row dead)
      · intro j
        rw [← cancels, undone, kernel]
  refine (expands.comp undo).congr ?_
  intro x _
  funext j
  exact combine_undoAdd sourceAlive destinationAlive addedRecord x j

end RowOperations

/-! ## Compaction -/

section Compaction

variable {ι' κ' : Type} {rows : ι → κ → R}
  {record : ι → leaf → R} {target : Set (leaf → R)}

structure Compacts (alive' : Finset ι') (place : ι' → ι) (rows : ι → κ → R)
    (rows' : ι' → κ' → R) : Prop where
  injective : Set.InjOn place alive'
  kept : ∀ j, (∀ row ∈ alive', rows (place row) j = 0) ∨
    ∃ j', ∀ row ∈ alive', rows (place row) j = rows' row j'
  origin : ∀ j', (∀ row ∈ alive', rows' row j' = 0) ∨
    ∃ j, ∀ row ∈ alive', rows (place row) j = rows' row j'

variable {alive' : Finset ι'} {place : ι' → ι} {rows' : ι' → κ' → R}

theorem Compacts.cancels_iff (compacts : Compacts alive' place rows rows') (x : ι' → R) :
    (∀ j, combine alive' (fun row => rows (place row)) x j = 0) ↔
      ∀ j', combine alive' rows' x j' = 0 := by
  constructor
  · intro cancels j'
    rcases compacts.origin j' with empty | ⟨j, same⟩
    · apply Finset.sum_eq_zero
      intro row member
      rw [empty row member, mul_zero]
    · rw [← cancels j]
      apply Finset.sum_congr rfl
      intro row member
      simp only [same row member]
  · intro cancels j
    rcases compacts.kept j with empty | ⟨j', same⟩
    · apply Finset.sum_eq_zero
      intro row member
      simp only [empty row member, mul_zero]
    · rw [← cancels j']
      apply Finset.sum_congr rfl
      intro row member
      simp only [same row member]

variable [DecidableEq ι]

/-- Coefficients of the renamed rows, from those of the rows. -/
theorem combine_place (injective : Set.InjOn place alive') {β : Type}
    (vectors : ι → β → R) (x : ι → R) (j : β) :
    combine (alive'.image place) vectors x j =
      combine alive' (fun row => vectors (place row)) (fun row => x (place row))
        j := by
  rw [combine, Finset.sum_image injective, combine]

def scatter (alive' : Finset ι') (place : ι' → ι) (x : ι' → R) (row : ι) : R :=
  ∑ row' ∈ alive' with place row' = row, x row'

theorem scatter_place (injective : Set.InjOn place alive') (x : ι' → R)
    {row : ι'} (member : row ∈ alive') :
    scatter alive' place x (place row) = x row := by
  have single : alive'.filter (place · = place row) = {row} := by
    ext other
    rw [Finset.mem_filter, Finset.mem_singleton]
    constructor
    · rintro ⟨inside, equal⟩
      exact injective inside member equal
    · rintro rfl
      exact ⟨member, rfl⟩
  rw [scatter, single, Finset.sum_singleton]

theorem combine_scatter (injective : Set.InjOn place alive') {β : Type}
    (vectors : ι → β → R) (x : ι' → R) (j : β) :
    combine (alive'.image place) vectors (scatter alive' place x) j =
      combine alive' (fun row => vectors (place row)) x j := by
  rw [combine_place injective]
  apply Finset.sum_congr rfl
  intro row member
  simp only [scatter_place injective x member]

theorem Compacts.scatter_bijOn (compacts : Compacts alive' place rows rows') :
    Set.BijOn (scatter alive' place) (Kernel alive' rows') (Kernel (alive'.image place) rows) := by
  refine ⟨?_, ?_, ?_⟩
  · rintro x ⟨support, cancels⟩
    constructor
    · intro row dead
      apply Finset.sum_eq_zero
      intro row' inside
      rcases Finset.mem_filter.mp inside with ⟨member, rfl⟩
      exact absurd (Finset.mem_image_of_mem place member) dead
    · intro j
      rw [combine_scatter compacts.injective]
      exact (compacts.cancels_iff x).mpr cancels j
  · rintro x ⟨xSupport, -⟩ y ⟨ySupport, -⟩ equal
    funext row
    by_cases member : row ∈ alive'
    · have same := congrFun equal (place row)
      rwa [scatter_place compacts.injective x member,
        scatter_place compacts.injective y member] at same
    · rw [xSupport row member, ySupport row member]
  · rintro x ⟨support, cancels⟩
    classical
    let gathered : ι' → R := fun row => if row ∈ alive' then x (place row) else 0
    have scattered : scatter alive' place gathered = x := by
      funext row
      by_cases member : row ∈ alive'.image place
      · rcases Finset.mem_image.mp member with ⟨row', inside, rfl⟩
        rw [scatter_place compacts.injective _ inside]
        exact if_pos inside
      · rw [support row member]
        apply Finset.sum_eq_zero
        intro row' inside
        rcases Finset.mem_filter.mp inside with ⟨row'Member, rfl⟩
        exact absurd (Finset.mem_image_of_mem place row'Member) member
    refine ⟨gathered, ⟨?_, ?_⟩, scattered⟩
    · intro row dead
      exact if_neg dead
    · apply (compacts.cancels_iff gathered).mp
      intro j
      rw [← combine_scatter compacts.injective rows gathered, scattered, cancels]

/-- Renaming rows and dropping empty columns keeps the expansion. -/
theorem Compacts.expands (compacts : Compacts alive' place rows rows')
    (expands : Expands (alive'.image place) rows record target) :
    Expands alive' rows' (fun row => record (place row)) target := by
  refine (expands.comp compacts.scatter_bijOn).congr ?_
  intro x _
  funext j
  exact combine_scatter compacts.injective record x j

end Compaction

end CudaMpqs.Elimination
