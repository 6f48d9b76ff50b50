import CudaMpqs.Matrix.MergeHistory
import CudaMpqs.Matrix.PackedExpanded

/-! # The congruence of merged rows

Each row of the packed matrix stands for a congruence between its square root, its sign,
its power of two and its exponents. A merge multiplies two of them, as long as the 8-bit
exponents and the 32-bit power of two can hold the sums. -/

namespace CudaMpqs.BatchMerge

open Combine Function GpuPackedExpanded PackedRow Relation RowJoin Slice SortedKeys
  SortedMerge StreamCompaction

/-! ## The congruence -/

section Law

variable {N : UInt512} (odd : N.toNat % 2 = 1)

def two : (ZMod N.toNat)ˣ :=
  ZMod.unitOfCoprime 2 (Nat.coprime_two_left.mpr (Nat.odd_iff.mpr odd))

def Holds (sqrtQ : UInt512) (sign : BitVec 8) (val2Exp : BitVec 32) (product : Nat) : Prop :=
  (sqrtQ.toNat : ZMod N.toNat) ^ 2 =
    (signValue sign : Int) * (two odd ^ val2Exp.toInt : (ZMod N.toNat)ˣ) * product

def primeProduct (prime : Nat → Nat) (entries : List PackedEntry) : Nat :=
  (entries.map fun entry => prime entry.1 ^ entry.2.toNat).prod

def RowHolds (prime : Nat → Nat) (row : PackedRow) : Prop :=
  Holds odd row.sqrtQ row.sign row.val2Exp (primeProduct prime row.entries)

def RelationHolds (factorBase : Nat → Nat) (source : RowSource) : Prop :=
  Holds odd source.relation.sqrtQ source.relation.sign source.relation.val2Exp
    (factorProduct factorBase source.relation.factors *
      if source.hasLp then source.relation.largePrime.toNat ^ (if source.isSmooth then 2 else 1)
      else 1)

structure ExactSums (left right : PackedRow) : Prop where
  exponents : ∀ c exp exp', (c, exp) ∈ left.entries → (c, exp') ∈ right.entries →
    exp.toNat + exp'.toNat < 2 ^ 8
  val2Exp_ge : -2 ^ 31 ≤ left.val2Exp.toInt + right.val2Exp.toInt
  val2Exp_lt : left.val2Exp.toInt + right.val2Exp.toInt < 2 ^ 31

theorem toInt_add_of_fits {left right : BitVec 32} (above : -2 ^ 31 ≤ left.toInt + right.toInt)
    (below : left.toInt + right.toInt < 2 ^ 31) :
    (left + right).toInt = left.toInt + right.toInt := by
  rw [BitVec.toInt_add]
  exact Int.bmod_eq_of_le (by omega) (by omega)

variable {odd}

private theorem primeProduct_remap (prime newCol : Nat → Nat) (row : PackedRow) :
    primeProduct prime (row.remap newCol).entries =
      primeProduct (fun c => prime (newCol c)) row.entries := by
  rw [primeProduct, PackedRow.remap, List.map_map]
  rfl

theorem rowHolds_remap (prime newCol : Nat → Nat) (row : PackedRow) :
    RowHolds odd prime (row.remap newCol) ↔ RowHolds odd (fun c => prime (newCol c)) row := by
  rw [RowHolds, RowHolds, primeProduct_remap]
  rfl

theorem ExactSums.primeProduct_join {left right : PackedRow} (exact : ExactSums left right)
    (mont : Montgomery) (prime : Nat → Nat) :
    primeProduct prime (join mont left right).entries =
      primeProduct prime left.entries * primeProduct prime right.entries := by
  apply prod_merge
  intro c exp exp' isLeft isRight
  rw [BitVec.toNat_add_of_lt (exact.exponents c exp exp' isLeft isRight), Nat.pow_add]

theorem sqrtQ_join (odd : N.toNat % 2 = 1) (left right : PackedRow) :
    (((join (Montgomery.ofModulus N) left right).sqrtQ.toNat : Nat) : ZMod N.toNat) =
      left.sqrtQ.toNat * right.sqrtQ.toNat := by
  have valid := Montgomery.ofModulus_valid odd
  exact ((valid.represents_transform left.sqrtQ).mul valid
    (valid.represents_transform right.sqrtQ)).reduce valid

theorem rowHolds_join {prime : Nat → Nat} {left right : PackedRow} (exact : ExactSums left right)
    (leftHolds : RowHolds odd prime left) (rightHolds : RowHolds odd prime right) :
    RowHolds odd prime (join (Montgomery.ofModulus N) left right) := by
  have sign : signValue (join (Montgomery.ofModulus N) left right).sign =
      signValue left.sign * signValue right.sign := signValue_combineSign _ _
  have power : two odd ^ (join (Montgomery.ofModulus N) left right).val2Exp.toInt =
      two odd ^ left.val2Exp.toInt * two odd ^ right.val2Exp.toInt := by
    rw [← zpow_add, ← toInt_add_of_fits exact.val2Exp_ge exact.val2Exp_lt]
    rfl
  unfold RowHolds Holds at leftHolds rightHolds ⊢
  rw [sqrtQ_join odd, sign, power, exact.primeProduct_join, mul_pow, leftHolds, rightHolds]
  push_cast
  ring

/-! ## Original rows -/

def columnPrime (factorBase : Nat → Nat) (fbSize : Nat) (keys : List Nat) (c : Nat) : Nat :=
  if c < 2 then 1
  else if c < fbSize + 2 then factorBase (c - 2)
  else keys.getD (c - (fbSize + 2)) 0

theorem primeProduct_append (prime : Nat → Nat) (left right : List PackedEntry) :
    primeProduct prime (left ++ right) = primeProduct prime left * primeProduct prime right := by
  rw [primeProduct, List.map_append, List.prod_append, primeProduct, primeProduct]

section Fill

variable {factorBase : Nat → Nat} {fbSize : Nat} {keys : List Nat} {source : RowSource}

private theorem primeProduct_factorEntries (inside : InColumns keys fbSize source) :
    primeProduct (columnPrime factorBase fbSize keys) (factorEntries source.relation) =
      factorProduct factorBase source.relation.factors := by
  have small := inside.small
  rw [primeProduct, factorEntries,
    ((List.perm_insertionSort (fun left right : PackedEntry => left.1 ≤ right.1) _).map _).prod_eq,
    List.map_map, factorProduct]
  have bound := inside.base.inside
  generalize source.relation.factors = factors at bound ⊢
  induction factors with
  | nil => rfl
  | cons factor factors induction =>
    have rest := induction fun other member => bound other (List.mem_cons_of_mem _ member)
    have below := bound factor List.mem_cons_self
    rw [List.map_cons, List.prod_cons, ← rest]
    by_cases some : factor.2 ≠ 0
    · have prime : columnPrime factorBase fbSize keys (factor.1 + 2) = factorBase factor.1 := by
        rw [columnPrime, if_neg (by omega), if_pos (by omega), Nat.add_sub_cancel]
      rw [List.filter_cons_of_pos (by simpa using some), List.map_cons, List.prod_cons,
        Function.comp_apply, makePacked_eq (by omega), prime]
    · have zero : factor.2.toNat = 0 := by rw [not_not.mp some]; rfl
      rw [List.filter_cons_of_neg (by simpa using some), zero, Nat.pow_zero, Nat.one_mul]

theorem primeProduct_fillRow (inside : InColumns keys fbSize source)
    (found : source.hasLp = true → keys.getD (lowerBound keys (lpKeyOf source.relation)) 0 =
      source.relation.largePrime.toNat) :
    primeProduct (columnPrime factorBase fbSize keys) (fillRow keys fbSize source) =
      factorProduct factorBase source.relation.factors * if source.hasLp then
          source.relation.largePrime.toNat ^ (if source.isSmooth then 2 else 1)
        else 1 := by
  have guarded : ∀ (p : Prop) [Decidable p] (col : Nat) (exp : BitVec 8), col ≤ 1 →
      primeProduct (columnPrime factorBase fbSize keys)
        (if p then [makePacked col exp] else []) = 1 := by
    intro p _ col exp le
    split
    · rw [makePacked_eq (by omega), primeProduct, List.map_singleton, List.prod_singleton,
        columnPrime, if_pos (by omega), Nat.one_pow]
    · rfl
  have lp : primeProduct (columnPrime factorBase fbSize keys)
      (if source.hasLp then [lpEntry keys fbSize source] else []) = if source.hasLp then
          source.relation.largePrime.toNat ^ (if source.isSmooth then 2 else 1)
        else 1 := by
    split
    next hasLp =>
        rw [inside.lpEntry_eq hasLp, primeProduct, List.map_singleton, List.prod_singleton,
          columnPrime, if_neg (by rw [lpCol]; omega), if_neg (by rw [lpCol]; omega), lpCol,
          Nat.add_sub_cancel_left, found hasLp]
        cases source.isSmooth <;> rfl
    next => rfl
  rw [fillRow, primeProduct_append, primeProduct_append, primeProduct_append,
    guarded _ 0 1 (Nat.zero_le 1), guarded _ 1 _ le_rfl, primeProduct_factorEntries inside, lp,
    Nat.one_mul]

end Fill

section Built

variable {smooths partials : HostRelationBatch} {fbSize : Nat} {factorBase : Nat → Nat}

theorem rowHolds_packRow (admissible : Admissible smooths partials fbSize)
    (reads : partials.numRelations = 0 → largePrimes smooths partials = ∅)
    (columns : fbSize + 2 + (largePrimes smooths partials).card ≤ 2 ^ 24) {source : RowSource}
    (isSource : source ∈ rowSources smooths partials)
    (holds : RelationHolds odd factorBase source) :
    RowHolds odd (columnPrime factorBase fbSize (lpSortKeys smooths partials))
      (packRow (lpSortKeys smooths partials) fbSize source) := by
  have inside := admissible.inColumns reads columns isSource
  have product := @primeProduct_fillRow factorBase fbSize _ source inside ?_
  · unfold RowHolds packRow
    rw [product]
    exact holds
  · intro hasLp
    have key := admissible.lpKeyOf_eq (relation_mem isSource)
    have member := mem_largePrimes.mpr ⟨(admissible.hasLp_iff isSource).mp hasLp, _,
      relation_mem isSource, rfl⟩
    have present := (admissible.mem_lpSortKeys reads).mpr ⟨_, member, rfl⟩
    rw [List.getD_eq_getElem?_getD, key, getElem?_lowerBound ascending_lpSortKeys present]
    rfl

end Built

/-! ## Download -/

structure MergedRows where
  sqrtQ : List UInt512
  signs : List (BitVec 8)
  val2Exps : List (BitVec 32)
  factorOffsets : List Nat
  factorIndices : List Nat
  factorExponents : List (BitVec 8)
deriving DecidableEq

def downloadMerged {rows : Nat} (matrix : PackedCsr rows) (device : Device rows)
    (rowMap : List Nat) : MergedRows :=
  let source := fun i => sourceRow matrix.toContext device (rowMap.getD i 0)
  { sqrtQ := (List.range rowMap.length).map fun i => (source i).sqrtQ
    signs := (List.range rowMap.length).map fun i => (source i).sign
    val2Exps := (List.range rowMap.length).map fun i => (source i).val2Exp
    factorOffsets := (List.range (rowMap.length + 1)).map
      (exclusiveScan fun i => (source i).entries.length)
    factorIndices := (List.range rowMap.length).flatMap fun i => (source i).cols
    factorExponents := (List.range rowMap.length).flatMap fun i => (source i).entries.map Prod.snd }

namespace MergedRows

variable (odd) (merged : MergedRows)

def entries (i : Nat) : List PackedEntry :=
  (slice merged.factorIndices (merged.factorOffsets.getD i 0)
      (merged.factorOffsets.getD (i + 1) 0)).zip
    (slice merged.factorExponents (merged.factorOffsets.getD i 0)
      (merged.factorOffsets.getD (i + 1) 0))

def RowHolds (prime : Nat → Nat) (colMap : List Nat) (i : Nat) : Prop :=
  Holds odd (merged.sqrtQ.getD i (UInt512.ofUInt32 0)) (merged.signs.getD i 0)
    (merged.val2Exps.getD i 0) (primeProduct (fun c => prime (colMap.getD c 0)) (merged.entries i))

end MergedRows

private theorem entries_downloadMerged {rows : Nat} (matrix : PackedCsr rows) (device : Device rows)
    (rowMap : List Nat) {i : Nat} (inside : i < rowMap.length) :
    (downloadMerged matrix device rowMap).entries i =
      (sourceRow matrix.toContext device (rowMap.getD i 0)).entries := by
  have cols := slice_flatMap_scan
    (fun i => (sourceRow matrix.toContext device (rowMap.getD i 0)).cols) rowMap.length inside
  have exponents := slice_flatMap_scan
    (fun i => (sourceRow matrix.toContext device (rowMap.getD i 0)).entries.map Prod.snd)
    rowMap.length inside
  simp only [PackedRow.cols, List.length_map] at cols exponents
  have offset : ∀ k ≤ rowMap.length, (downloadMerged matrix device rowMap).factorOffsets.getD k 0 =
      exclusiveScan (fun i =>
        (sourceRow matrix.toContext device (rowMap.getD i 0)).entries.length) k := by
    intro k bound
    have place : k < rowMap.length + 1 := Nat.lt_succ_of_le bound
    rw [downloadMerged, List.getD_eq_getElem _ _ (by simpa using place), List.getElem_map,
      List.getElem_range]
  rw [MergedRows.entries, offset i inside.le, offset (i + 1) inside]
  refine (congrArg₂ List.zip cols exponents).trans ?_
  exact (List.zip_of_prod rfl rfl).symm

theorem rowHolds_downloadMerged {rows : Nat} (matrix : PackedCsr rows) (device : Device rows)
    (rowMap : List Nat) (prime : Nat → Nat) (colMap : List Nat) {i : Nat}
    (inside : i < rowMap.length) :
    (downloadMerged matrix device rowMap).RowHolds odd prime colMap i ↔
      RowHolds odd (fun c => prime (colMap.getD c 0))
        (sourceRow matrix.toContext device (rowMap.getD i 0)) := by
  unfold MergedRows.RowHolds
  rw [entries_downloadMerged _ _ _ inside, downloadMerged,
    List.getD_eq_getElem _ _ (by simpa using inside),
    List.getD_eq_getElem _ _ (by simpa using inside),
    List.getD_eq_getElem _ _ (by simpa using inside), List.getElem_map, List.getElem_map,
    List.getElem_map, List.getElem_range]
  rfl

/-- The rows of the final matrix satisfy their congruences. -/
theorem downloadMerged_holds {smooths partials : HostRelationBatch} {fbSize : Nat}
    {factorBase : Nat → Nat} (admissible : Admissible smooths partials fbSize)
    (columns : fbSize + 2 + (largePrimes smooths partials).card ≤ 2 ^ 24)
    (relations : ∀ source ∈ rowSources smooths partials, RelationHolds odd factorBase source)
    {buffer : Nat → PackedEntry} {result : PackedExpandedResult}
    (built : gpuBuildPackedMatrix smooths partials fbSize buffer = some result)
    {originals : Nat} {first : PackedCsr originals}
    (stores : first.Stores (Montgomery.ofModulus N) result.csr) {history : History originals}
    (histories : Histories first (RoundMeets ExactSums) history) {rowMap : List Nat}
    (alive : ∀ r ∈ rowMap, ∃ inside : r < history.rows,
      (history.device.rowPtr ⟨r, inside⟩).isSome) {i : Nat} (inside : i < rowMap.length) :
    (downloadMerged history.matrix history.device rowMap).RowHolds odd
      (columnPrime factorBase fbSize (lpSortKeys smooths partials)) history.colMap i := by
  have reads := (admissible.isSome_iff buffer).mp (Option.isSome_of_eq_some built)
  have start : ∀ row, RowHolds odd (columnPrime factorBase fbSize (lpSortKeys smooths partials))
      (first.csr row) := by
    intro row
    have isRow := DevicePackedCsr.rowAt_mem (row.isLt.trans_eq stores.count)
    rw [stores.row]
    have isPacked := isRow
    rw [gpuBuildPackedMatrix_eq buffer built] at isPacked
    rcases List.mem_map.mp isPacked with ⟨source, isSource, packed⟩
    have same : result.csr.rowAt row = packRow (lpSortKeys smooths partials) fbSize source := by
      rw [packed, gpuBuildPackedMatrix_eq buffer built]
    rw [same]
    exact rowHolds_packRow admissible reads columns isSource (relations source isSource)
  have isRow : rowMap.getD i 0 ∈ rowMap := by
    rw [List.getD_eq_getElem _ _ inside]
    exact List.getElem_mem inside
  rcases alive _ isRow with ⟨isInside, isAlive⟩
  have original := histories.forall_original start ?_ (table_sourceRow isInside isAlive)
  · rw [History.original, rowHolds_remap] at original
    exact (rowHolds_downloadMerged _ _ _ _ _ inside).mpr original
  · intro newCol left right exact leftHolds rightHolds
    rw [stores.mont]
    rw [rowHolds_remap] at leftHolds rightHolds ⊢
    exact rowHolds_join exact leftHolds rightHolds

theorem holds_positive (sqrtQ : UInt512) (product : Nat) :
    Holds odd sqrtQ 1 0 product ↔ sqrtQ.toNat ^ 2 ≡ product [MOD N.toNat] := by
  have power : two odd ^ (0 : BitVec 32).toInt = 1 := zpow_zero _
  rw [Holds, power, ← ZMod.natCast_eq_natCast_iff]
  simp [signValue]

/-! ## Two relations -/

end Law

def powerSmooths (exp : BitVec 8) : HostRelationBatch :=
  (HostRelationBatch.empty.push ⟨UInt512.ofUInt32 3, 1, 0, 1, 0, [(0, exp), (1, 1)]⟩).push
    ⟨UInt512.ofUInt32 4, 1, 0, 1, 0, [(0, exp), (1, 1)]⟩

def powerBase (position : Nat) : Nat := if position = 0 then 3 else 29

def powerModulus : UInt512 := UInt512.ofUInt32 7

theorem powerModulus_odd : powerModulus.toNat % 2 = 1 := by decide +kernel

def powerCsr (exp : BitVec 8) : DevicePackedCsr where
  rows := [⟨[(2, exp), (3, 1)], UInt512.ofUInt32 3, 1, 0, 0⟩,
    ⟨[(2, exp), (3, 1)], UInt512.ofUInt32 4, 1, 0, 0⟩]
  nCols := 4

theorem powerCsr_wellFormed (exp : BitVec 8) : (powerCsr exp).WellFormed := by
  constructor
  · simp [powerCsr, PackedRow.Ascending, SortedMerge.Ascending]
  · intro row isRow entry member
    have isEntry : entry = (2, exp) ∨ entry = (3, 1) := by
      rcases List.mem_pair.mp isRow with rfl | rfl <;> exact List.mem_pair.mp member
    rcases isEntry with rfl | rfl
    · exact show 2 < 4 by decide
    · exact show 3 < 4 by decide

def powerFirst (exp : BitVec 8) : PackedCsr 2 :=
  sizedCsr exactFloats (Montgomery.ofModulus powerModulus) (powerCsr exp) (powerCsr_wellFormed exp)
    two_lt_rows

def powerDevice (exp : BitVec 8) : Device 2 := freshDevice (powerFirst exp).toContext emptyWorkspace

def powerLaunch (exp : BitVec 8) : Launch 2 :=
  ⟨(powerFirst exp).toContext, powerDevice exp,
    planWeight2Merges (powerFirst exp) (powerDevice exp)⟩

def powerStart (exp : BitVec 8) : History 2 := .start (powerFirst exp) emptyWorkspace

theorem powerStores (exp : BitVec 8) :
    (powerFirst exp).Stores (Montgomery.ofModulus powerModulus) (powerCsr exp) :=
  ⟨rfl, fun _ => rfl, rfl, rfl⟩

theorem relationHolds_positive {smooths partials : HostRelationBatch} {factorBase : Nat → Nat}
    {N : UInt512} (odd : N.toNat % 2 = 1)
    (checked : ∀ source ∈ rowSources smooths partials, source.relation.sign = 1 ∧
      source.relation.val2Exp = 0 ∧ source.relation.sqrtQ.toNat ^ 2 % N.toNat =
        (factorProduct factorBase source.relation.factors * if source.hasLp then
            source.relation.largePrime.toNat ^ (if source.isSmooth then 2 else 1)
          else 1) % N.toNat) :
    ∀ source ∈ rowSources smooths partials, RelationHolds odd factorBase source := by
  intro source isSource
  rcases checked source isSource with ⟨sign, val2Exp, congruent⟩
  rw [RelationHolds, sign, val2Exp, holds_positive]
  exact congruent

def lowTurns : List (powerLaunch 2).Thread := List.replicate 40 ⟨0, by decide +kernel⟩

theorem lowTurns_finished : (runKernel (powerLaunch 2) lowTurns).Finished := by decide +kernel

theorem powerRound_exact : RoundMeets ExactSums (powerStart 2) (powerLaunch 2).candidates := by
  refine ⟨.weight2, ?_⟩
  intro candidate _ _ left right mergeable
  have few : ∀ row : Fin 2, ((powerFirst 2).csr row).val2Exp = 0 ∧
      ∀ entry ∈ ((powerFirst 2).csr row).entries, entry.2.toNat ≤ 2 := by decide +kernel
  have small : ∀ row packed, (powerDevice 2).table (powerFirst 2).toContext row = some packed →
      packed.val2Exp = 0 ∧ ∀ entry ∈ packed.entries, entry.2.toNat ≤ 2 := by
    intro row packed isRow
    injection isRow with equal
    exact equal ▸ few row
  have isLeft := small _ _ mergeable.first
  have isRight := small _ _ mergeable.second
  refine ⟨fun c exp exp' inLeft inRight => ?_, ?_, ?_⟩
  · have first := isLeft.2 _ inLeft
    have second := isRight.2 _ inRight
    exact Nat.lt_of_le_of_lt (Nat.add_le_add first second) (by decide)
  · rw [isLeft.1, isRight.1]
    decide
  · rw [isLeft.1, isRight.1]
    decide

def lowHistory : History 2 :=
  (powerStart 2).launched (powerLaunch 2).candidates lowTurns lowTurns_finished

theorem downloadMerged_holds_low : Histories (powerFirst 2) (RoundMeets ExactSums) lowHistory ∧
      (downloadMerged lowHistory.matrix lowHistory.device [0]).RowHolds powerModulus_odd
        (columnPrime powerBase 2 (lpSortKeys (powerSmooths 2) HostRelationBatch.empty))
        lowHistory.colMap 0 := by
  have histories : Histories (powerFirst 2) (RoundMeets ExactSums) lowHistory :=
    .launch (.start emptyWorkspace) powerRound_exact lowTurns lowTurns_finished
  have built : gpuBuildPackedMatrix (powerSmooths 2) HostRelationBatch.empty 2 noEntries =
      some ⟨powerCsr 2, 0⟩ := by decide +kernel
  refine ⟨histories, ?_⟩
  exact downloadMerged_holds (by decide +kernel) (by decide +kernel)
    (relationHolds_positive powerModulus_odd (by decide +kernel)) built (powerStores 2) histories
    (by decide +kernel) (by decide)

def highTurns : List (powerLaunch 128).Thread := List.replicate 40 ⟨0, by decide +kernel⟩

theorem highTurns_finished : (runKernel (powerLaunch 128) highTurns).Finished := by decide +kernel

def highHistory : History 2 :=
  (powerStart 128).launched (powerLaunch 128).candidates highTurns highTurns_finished

theorem highHistory_table : highHistory.device.table (powerFirst 128).toContext 0 =
    some (join (Montgomery.ofModulus powerModulus) ((powerCsr 128).rowAt 0)
      ((powerCsr 128).rowAt 1)) := by
  let thread : (powerLaunch 128).Thread := ⟨0, by decide +kernel⟩
  have only : ∀ other : (powerLaunch 128).Thread, other = thread := by decide +kernel
  have pair : ((powerLaunch 128).candidate thread).pair = (0, 1) := by decide +kernel
  have executes : (((runKernel (powerLaunch 128) highTurns).threads thread).job).isSome := by
    decide +kernel
  rcases executeMerges_launched (powerLaunch 128) (.fresh emptyWorkspace) highTurns
    highTurns_finished with ⟨order, launched⟩
  have isOrder : order = [thread] := by
    have member := (launched.executed thread).mpr executes
    have nodup := launched.nodup
    cases order with
    | nil => cases member
    | cons first rest =>
      rw [only first]
      cases rest with
      | nil => rfl
      | cons second rest =>
        rw [only first, only second] at nodup
        exact absurd List.mem_cons_self (List.nodup_cons.mp nodup).1
  have table := congrFun launched.table 0
  rw [isOrder, serial, List.map_singleton, pair] at table
  refine table.trans ?_
  rw [← List.nil_append [((0, 1) : Fin 2 × Fin 2)], replay_concat,
    @joinPair_eq _ _ _ _ _ (0, 1) ((powerCsr 128).rowAt 0) ((powerCsr 128).rowAt 1) rfl rfl]
  rfl

/-- The exponents 128 and 128 add up to 0. -/
theorem downloadMerged_losesExponent :
    (∀ source ∈ rowSources (powerSmooths 128) HostRelationBatch.empty,
        RelationHolds powerModulus_odd powerBase source) ∧
      gpuBuildPackedMatrix (powerSmooths 128) HostRelationBatch.empty 2 noEntries =
        some ⟨powerCsr 128, 0⟩ ∧
      Histories (powerFirst 128) (fun history => history.Planned) highHistory ∧
      (highHistory.device.rowPtr ⟨0, by decide⟩).isSome ∧
      ¬ (downloadMerged highHistory.matrix highHistory.device [0]).RowHolds powerModulus_odd
        (columnPrime powerBase 2 (lpSortKeys (powerSmooths 128) HostRelationBatch.empty))
        highHistory.colMap 0 := by
  have alive : (highHistory.device.rowPtr ⟨0, by decide⟩).isSome := by decide +kernel
  refine ⟨relationHolds_positive powerModulus_odd (by decide +kernel), by decide +kernel,
    .launch (.start emptyWorkspace) .weight2 highTurns highTurns_finished, alive, ?_⟩
  have isSource : sourceRow highHistory.matrix.toContext highHistory.device 0 =
      join (Montgomery.ofModulus powerModulus) ((powerCsr 128).rowAt 0) ((powerCsr 128).rowAt 1) :=
    Option.some.inj ((table_sourceRow (by decide) alive).symm.trans highHistory_table)
  intro holds
  have law := (rowHolds_downloadMerged _ _ _ _ _ Nat.one_pos).mp holds
  rw [List.getD_cons_zero, isSource, RowHolds] at law
  have sign : (join (Montgomery.ofModulus powerModulus) ((powerCsr 128).rowAt 0)
      ((powerCsr 128).rowAt 1)).sign = 1 := by
    decide +kernel
  have val2Exp : (join (Montgomery.ofModulus powerModulus) ((powerCsr 128).rowAt 0)
      ((powerCsr 128).rowAt 1)).val2Exp = 0 := by
    decide +kernel
  have product : primeProduct (fun c => columnPrime powerBase 2
      (lpSortKeys (powerSmooths 128) HostRelationBatch.empty) (highHistory.colMap.getD c 0))
        (join (Montgomery.ofModulus powerModulus) ((powerCsr 128).rowAt 0)
          ((powerCsr 128).rowAt 1)).entries = 841 := by
    decide +kernel
  rw [sign, val2Exp, product, holds_positive, ← ZMod.natCast_eq_natCast_iff, Nat.cast_pow,
    sqrtQ_join powerModulus_odd, ← Nat.cast_mul, ← Nat.cast_pow,
    ZMod.natCast_eq_natCast_iff] at law
  revert law
  decide +kernel

end CudaMpqs.BatchMerge
