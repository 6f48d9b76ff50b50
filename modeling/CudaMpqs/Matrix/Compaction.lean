import CudaMpqs.Matrix.KernelBijection

/-! # Compaction

Every pass of `merge_filter.cpp` ends by renumbering the columns of positive
weight and rebuilding the CSR matrix from the alive rows. -/

namespace CudaMpqs

open Elimination

def assignColumn (colWeight : Nat → Nat) (columns : (Nat → Nat) × Nat) (c : Nat) :
    (Nat → Nat) × Nat :=
  if 0 < colWeight c then
    (Function.update columns.1 c columns.2, columns.2 + 1)
  else columns

def compactColumns (nCols : Nat) (colWeight : Nat → Nat) : (Nat → Nat) × Nat :=
  (List.range nCols).foldl (assignColumn colWeight) (fun _ => 0xFFFFFFFF, 0)

def aliveRows (nRows : Nat) (rowAlive : Nat → Bool) : List Nat :=
  (List.range nRows).filter rowAlive

def compactRows (nRows nCols : Nat) (colWeight : Nat → Nat)
    (rowAlive : Nat → Bool) (rows : Nat → List Nat) : HostMatrixCSR :=
  HostMatrixCSR.ofRows (compactColumns nCols colWeight).2
    ((aliveRows nRows rowAlive).map fun r =>
      (rows r).map (compactColumns nCols colWeight).1)

/-! ## Columns -/

def keptBelow (colWeight : Nat → Nat) (c : Nat) : Nat :=
  (List.range c).countP (0 < colWeight ·)

theorem keptBelow_succ (colWeight : Nat → Nat) (c : Nat) : keptBelow colWeight (c + 1) =
      keptBelow colWeight c + if 0 < colWeight c then 1 else 0 := by
  rw [keptBelow, List.range_succ, List.countP_append, List.countP_singleton, keptBelow]
  simp

theorem keptBelow_lt {colWeight : Nat → Nat} {c c' : Nat} (less : c < c')
    (kept : 0 < colWeight c) : keptBelow colWeight c < keptBelow colWeight c' := by
  have next := keptBelow_succ colWeight c
  rw [if_pos kept] at next
  have sublist : (List.range (c + 1)).Sublist (List.range c') :=
    List.range_sublist.mpr less
  have monotone : keptBelow colWeight (c + 1) ≤ keptBelow colWeight c' :=
    sublist.countP_le
  omega

theorem compactColumns_eq (colWeight : Nat → Nat) (nCols : Nat) :
    (compactColumns nCols colWeight).2 = keptBelow colWeight nCols ∧ ∀ c < nCols, 0 < colWeight c →
        (compactColumns nCols colWeight).1 c = keptBelow colWeight c := by
  induction nCols with
  | zero => exact ⟨rfl, fun c inside => absurd inside (Nat.not_lt_zero c)⟩
  | succ nCols induction =>
    rcases induction with ⟨count, assigned⟩
    have step : compactColumns (nCols + 1) colWeight =
        assignColumn colWeight (compactColumns nCols colWeight) nCols := by
      rw [compactColumns, List.range_succ, List.foldl_append]
      rfl
    rw [step, assignColumn, keptBelow_succ]
    by_cases kept : 0 < colWeight nCols
    · rw [if_pos kept, if_pos kept]
      refine ⟨by rw [count], ?_⟩
      intro c inside cKept
      rcases Nat.lt_succ_iff_lt_or_eq.mp inside with inside | rfl
      · simp only [Function.update_of_ne inside.ne]
        exact assigned c inside cKept
      · simp only [Function.update_self]
        exact count
    · rw [if_neg kept, if_neg kept]
      refine ⟨count, ?_⟩
      intro c inside cKept
      rcases Nat.lt_succ_iff_lt_or_eq.mp inside with inside | rfl
      · exact assigned c inside cKept
      · exact absurd cKept kept

theorem exists_keptBelow_eq {colWeight : Nat → Nat} {nCols newCol : Nat}
    (inside : newCol < keptBelow colWeight nCols) :
    ∃ c < nCols, 0 < colWeight c ∧ keptBelow colWeight c = newCol := by
  induction nCols with
  | zero => exact absurd inside (Nat.not_lt_zero _)
  | succ nCols induction =>
    rw [keptBelow_succ] at inside
    by_cases earlier : newCol < keptBelow colWeight nCols
    · rcases induction earlier with ⟨c, below, kept, place⟩
      exact ⟨c, Nat.lt_succ_of_lt below, kept, place⟩
    · split at inside
      · next kept => exact ⟨nCols, Nat.lt_succ_self _, kept, by omega⟩
      · omega

structure Covers (nRows nCols : Nat) (colWeight : Nat → Nat)
    (rowAlive : Nat → Bool) (rows : Nat → List Nat) : Prop where
  bound : ∀ r < nRows, rowAlive r → ∀ c ∈ rows r, c < nCols
  kept : ∀ r < nRows, rowAlive r → ∀ c ∈ rows r, 0 < colWeight c
  ascending : ∀ r < nRows, rowAlive r → (rows r).Pairwise (· < ·)

section Compaction

variable {nRows nCols : Nat} {colWeight : Nat → Nat} {rowAlive : Nat → Bool}
  {rows : Nat → List Nat}

theorem compactColumns_lt {c c' : Nat} (cInside : c < nCols)
    (cKept : 0 < colWeight c) (c'Inside : c' < nCols) (c'Kept : 0 < colWeight c')
    (less : c < c') :
    (compactColumns nCols colWeight).1 c < (compactColumns nCols colWeight).1 c' := by
  have assigned := (compactColumns_eq colWeight nCols).2
  rw [assigned c cInside cKept, assigned c' c'Inside c'Kept]
  exact keptBelow_lt less cKept

theorem compactColumns_injective {c c' : Nat} (cInside : c < nCols)
    (cKept : 0 < colWeight c) (c'Inside : c' < nCols) (c'Kept : 0 < colWeight c')
    (equal : (compactColumns nCols colWeight).1 c =
      (compactColumns nCols colWeight).1 c') : c = c' := by
  rcases lt_trichotomy c c' with less | same | greater
  · have := compactColumns_lt cInside cKept c'Inside c'Kept less
    omega
  · exact same
  · have := compactColumns_lt c'Inside c'Kept cInside cKept greater
    omega

theorem mem_aliveRows {r : Nat} : r ∈ aliveRows nRows rowAlive ↔ r < nRows ∧ rowAlive r := by
  rw [aliveRows, List.mem_filter, List.mem_range]

theorem length_aliveRows_update {r : Nat} (inside : r < nRows) (alive : rowAlive r = true) :
    (aliveRows nRows (Function.update rowAlive r false)).length + 1 =
      (aliveRows nRows rowAlive).length := by
  have member : r ∈ aliveRows nRows rowAlive := mem_aliveRows.mpr ⟨inside, alive⟩
  have nodup : (aliveRows nRows rowAlive).Nodup := List.nodup_range.filter _
  have erased : aliveRows nRows (Function.update rowAlive r false) =
      (aliveRows nRows rowAlive).erase r := by
    rw [nodup.erase_eq_filter, aliveRows, aliveRows, List.filter_filter]
    apply List.filter_congr
    intro other _
    by_cases same : other = r
    · simp [same]
    · simp [same]
  rw [erased, List.length_erase_of_mem member, Nat.sub_add_cancel (List.length_pos_of_mem member)]

def placeOf (nRows : Nat) (rowAlive : Nat → Bool) (i : Nat) : Nat :=
  (aliveRows nRows rowAlive).getD i 0

theorem placeOf_mem {i : Nat} (inside : i < (aliveRows nRows rowAlive).length) :
    placeOf nRows rowAlive i ∈ aliveRows nRows rowAlive := by
  rw [placeOf, List.getD_eq_getElem _ _ inside]
  exact List.getElem_mem inside

theorem placeOf_injOn : Set.InjOn (placeOf nRows rowAlive)
    (Finset.range (aliveRows nRows rowAlive).length) := by
  intro i iInside j jInside equal
  have nodup : (aliveRows nRows rowAlive).Nodup := List.nodup_range.filter _
  have iInside : i < (aliveRows nRows rowAlive).length := by simpa using iInside
  have jInside : j < (aliveRows nRows rowAlive).length := by simpa using jInside
  rw [placeOf, placeOf, List.getD_eq_getElem _ _ iInside, List.getD_eq_getElem _ _ jInside] at equal
  exact (nodup.getElem_inj_iff).mp equal

theorem image_placeOf : (Finset.range (aliveRows nRows rowAlive).length).image
      (placeOf nRows rowAlive) = (Finset.range nRows).filter (rowAlive ·) := by
  ext r
  rw [Finset.mem_image, Finset.mem_filter, Finset.mem_range]
  constructor
  · rintro ⟨i, inside, rfl⟩
    exact mem_aliveRows.mp (placeOf_mem (Finset.mem_range.mp inside))
  · intro alive
    rcases List.mem_iff_getElem.mp (mem_aliveRows.mpr alive) with ⟨i, inside, rfl⟩
    exact ⟨i, Finset.mem_range.mpr inside, List.getD_eq_getElem _ _ inside⟩

theorem nRows_compactRows : (compactRows nRows nCols colWeight rowAlive rows).nRows =
      (aliveRows nRows rowAlive).length := by
  rw [compactRows, HostMatrixCSR.nRows_ofRows, List.length_map]

theorem row_compactRows {i : Nat} (inside : i < (aliveRows nRows rowAlive).length) :
    (compactRows nRows nCols colWeight rowAlive rows).row i =
      (rows (placeOf nRows rowAlive i)).map (compactColumns nCols colWeight).1 := by
  have bound : i < ((aliveRows nRows rowAlive).map fun r =>
      (rows r).map (compactColumns nCols colWeight).1).length := by
    rwa [List.length_map]
  rw [compactRows, HostMatrixCSR.row_ofRows _ _ bound,
    List.getD_eq_getElem _ _ bound, List.getElem_map, placeOf,
    List.getD_eq_getElem _ _ inside]

section

variable (covers : Covers nRows nCols colWeight rowAlive rows)

include covers

theorem Covers.wellFormed : (compactRows nRows nCols colWeight rowAlive rows).WellFormed := by
  apply HostMatrixCSR.wellFormed_ofRows
  · intro cols member newCol present
    rcases List.mem_map.mp member with ⟨r, alive, rfl⟩
    rcases List.mem_map.mp present with ⟨c, inRow, rfl⟩
    rcases mem_aliveRows.mp alive with ⟨inside, alive⟩
    have bound := covers.bound r inside alive c inRow
    have kept := covers.kept r inside alive c inRow
    rw [(compactColumns_eq colWeight nCols).1, (compactColumns_eq colWeight nCols).2 c bound kept]
    exact keptBelow_lt bound kept
  · intro cols member
    rcases List.mem_map.mp member with ⟨r, alive, rfl⟩
    rcases mem_aliveRows.mp alive with ⟨inside, alive⟩
    apply List.pairwise_map.mpr
    refine (covers.ascending r inside alive).imp_of_mem ?_
    intro c c' cInRow c'InRow less
    exact compactColumns_lt (covers.bound r inside alive c cInRow)
      (covers.kept r inside alive c cInRow)
      (covers.bound r inside alive c' c'InRow)
      (covers.kept r inside alive c' c'InRow) less

theorem Covers.entry_compactRows {c : Nat} (inside : c < nCols) (kept : 0 < colWeight c) {i : Nat}
    (iInside : i < (aliveRows nRows rowAlive).length) :
    HostMatrixCSR.entry (rows (placeOf nRows rowAlive i)) c =
      HostMatrixCSR.entry ((compactRows nRows nCols colWeight rowAlive rows).row i)
        ((compactColumns nCols colWeight).1 c) := by
  rcases mem_aliveRows.mp (placeOf_mem iInside) with ⟨rInside, alive⟩
  rw [row_compactRows iInside, HostMatrixCSR.entry, HostMatrixCSR.entry]
  apply if_congr _ rfl rfl
  constructor
  · exact fun present => List.mem_map_of_mem present
  · intro present
    rcases List.mem_map.mp present with ⟨c', c'InRow, equal⟩
    have same := compactColumns_injective (covers.bound _ rInside alive c' c'InRow)
      (covers.kept _ rInside alive c' c'InRow) inside kept equal
    rwa [← same]

theorem Covers.compacts : Compacts (Finset.range (aliveRows nRows rowAlive).length)
      (placeOf nRows rowAlive) (fun r => HostMatrixCSR.entry (rows r))
      fun i => HostMatrixCSR.entry ((compactRows nRows nCols colWeight rowAlive rows).row i) where
  injective := placeOf_injOn
  kept := by
    intro c
    by_cases kept : c < nCols ∧ 0 < colWeight c
    · refine .inr ⟨(compactColumns nCols colWeight).1 c, ?_⟩
      intro i member
      exact covers.entry_compactRows kept.1 kept.2 (Finset.mem_range.mp member)
    · refine .inl ?_
      intro i member
      rcases mem_aliveRows.mp (placeOf_mem (Finset.mem_range.mp member)) with
        ⟨inside, alive⟩
      apply if_neg
      intro present
      exact kept ⟨covers.bound _ inside alive c present,
        covers.kept _ inside alive c present⟩
  origin := by
    intro newCol
    by_cases assigned : ∃ c < nCols, 0 < colWeight c ∧ (compactColumns nCols colWeight).1 c = newCol
    · rcases assigned with ⟨c, inside, kept, rfl⟩
      refine .inr ⟨c, ?_⟩
      intro i member
      exact covers.entry_compactRows inside kept (Finset.mem_range.mp member)
    · refine .inl ?_
      intro i member
      have iInside := Finset.mem_range.mp member
      rcases mem_aliveRows.mp (placeOf_mem iInside) with ⟨inside, alive⟩
      rw [row_compactRows iInside]
      apply if_neg
      intro present
      rcases List.mem_map.mp present with ⟨c, inRow, equal⟩
      exact assigned ⟨c, covers.bound _ inside alive c inRow,
        covers.kept _ inside alive c inRow, equal⟩

theorem Covers.expands {record : Nat → Nat → ZMod 2} {target : Set (Nat → ZMod 2)}
    (expands : Expands ((Finset.range nRows).filter (rowAlive ·))
      (fun r => HostMatrixCSR.entry (rows r)) record target) :
    Expands (Finset.range (compactRows nRows nCols colWeight rowAlive rows).nRows)
      (fun i => HostMatrixCSR.entry ((compactRows nRows nCols colWeight rowAlive rows).row i))
      (fun i => record (placeOf nRows rowAlive i)) target := by
  rw [nRows_compactRows]
  rw [← image_placeOf] at expands
  exact covers.compacts.expands expands

theorem Covers.columnWeight_compactRows {c : Nat} (inside : c < nCols) (kept : 0 < colWeight c) :
    (compactRows nRows nCols colWeight rowAlive rows).columnWeight
        ((compactColumns nCols colWeight).1 c) =
      (List.range nRows).countP fun r => c ∈ rows r ∧ rowAlive r := by
  have same : ∀ r ∈ aliveRows nRows rowAlive, (compactColumns nCols colWeight).1 c ∈
          (rows r).map (compactColumns nCols colWeight).1 ↔ c ∈ rows r := by
    intro r member
    rcases mem_aliveRows.mp member with ⟨rInside, alive⟩
    constructor
    · intro present
      rcases List.mem_map.mp present with ⟨c', c'InRow, equal⟩
      rwa [← compactColumns_injective (covers.bound r rInside alive c' c'InRow)
        (covers.kept r rInside alive c' c'InRow) inside kept equal]
    · exact List.mem_map_of_mem
  rw [HostMatrixCSR.columnWeight, compactRows, HostMatrixCSR.rowList_ofRows, List.countP_map]
  calc _ = (aliveRows nRows rowAlive).countP (c ∈ rows ·) :=
        List.countP_congr fun r member => by simp [same r member]
    _ = _ := by
        rw [aliveRows, List.countP_filter]
        apply List.countP_congr
        simp

theorem Covers.forall_columnWeight
    (weight : ∀ c, colWeight c = (List.range nRows).countP fun r => c ∈ rows r ∧ rowAlive r)
    (good : Nat → Prop) :
    (∀ c < (compactRows nRows nCols colWeight rowAlive rows).nCols,
        good ((compactRows nRows nCols colWeight rowAlive rows).columnWeight c)) ↔
      ∀ c < nCols, 0 < colWeight c → good (colWeight c) := by
  have size : (compactRows nRows nCols colWeight rowAlive rows).nCols =
      keptBelow colWeight nCols := by
    rw [compactRows, HostMatrixCSR.nCols_ofRows, (compactColumns_eq colWeight nCols).1]
  have assigned := (compactColumns_eq colWeight nCols).2
  rw [size]
  constructor
  · intro every c inside kept
    have bound := keptBelow_lt inside kept
    rw [← assigned c inside kept] at bound
    have new := every _ bound
    rwa [covers.columnWeight_compactRows inside kept, ← weight] at new
  · intro every newCol bound
    rcases exists_keptBelow_eq bound with ⟨c, inside, kept, rfl⟩
    rw [← assigned c inside kept, covers.columnWeight_compactRows inside kept, ← weight]
    exact every c inside kept

end

theorem getD_rowMap (label : Nat → Nat) {i : Nat} (inside : i < (aliveRows nRows rowAlive).length) :
    ((aliveRows nRows rowAlive).map label).getD i 0 = label (placeOf nRows rowAlive i) := by
  rw [List.getD_eq_getElem _ _ (by simpa using inside), List.getElem_map, placeOf,
    List.getD_eq_getElem _ _ inside]

end Compaction

end CudaMpqs
