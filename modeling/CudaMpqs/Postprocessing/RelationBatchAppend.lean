import CudaMpqs.Foundation.SortedKeys
import CudaMpqs.Postprocessing.AppendToSoa

/-! # Appending one relation batch to another

The host reads the two counters, cuts the source off where the relations or the
factors are full, copies the arrays, rebases the offsets in a kernel, and writes
the counters back. -/

namespace CudaMpqs

open SortedKeys

def SoaCell.Within (capRels capFactors : Nat) : SoaCell → Prop
  | .sqrtQ i | .signs i | .val2Exps i | .largePrimes i | .charBits i => i < capRels
  | .factorOffsets i => i ≤ capRels
  | .factorIndices k | .factorCounts k => k < capFactors

structure RelationBatch where
  memory : SoaMemory
  capRels : Nat
  capFactors : Nat
  globalCount : Nat
  globalFactor : Nat
  capRels_lt : capRels < 2 ^ 64
  capFactors_lt : capFactors < 2 ^ 64

namespace RelationBatch

/-! ## The code -/

def sqrtQ (batch : RelationBatch) (i : Nat) : Option UInt512 := batch.memory (.sqrtQ i)

def signs (batch : RelationBatch) (i : Nat) : Option (BitVec 8) := batch.memory (.signs i)

def val2Exps (batch : RelationBatch) (i : Nat) : Option (BitVec 32) := batch.memory (.val2Exps i)

def largePrimes (batch : RelationBatch) (i : Nat) : Option (BitVec 128) :=
  batch.memory (.largePrimes i)

def charBits (batch : RelationBatch) (i : Nat) : Option (BitVec 32) := batch.memory (.charBits i)

def factorOffsets (batch : RelationBatch) (i : Nat) : Option Nat :=
  batch.memory (.factorOffsets i)

def factorIndices (batch : RelationBatch) (k : Nat) : Option Nat :=
  batch.memory (.factorIndices k)

def factorCounts (batch : RelationBatch) (k : Nat) : Option (BitVec 8) :=
  batch.memory (.factorCounts k)

def factorOffset (batch : RelationBatch) (i : Nat) : Nat := (batch.factorOffsets i).getD 0

/-- How many relations of `other` fit, out of the candidates, and their factors. -/
def cutOff (batch other : RelationBatch) (candidateRels : Nat) : Nat × Nat :=
  let availFactors := batch.capFactors - batch.globalFactor
  let factorsNeeded := other.factorOffset candidateRels
  if availFactors < factorsNeeded then
    let idx := upperBound ((List.range (candidateRels + 1)).map other.factorOffset) availFactors
    let actualRelsToAdd := if 0 < idx then idx - 1 else 0
    (actualRelsToAdd, if 0 < actualRelsToAdd then other.factorOffset actualRelsToAdd else 0)
  else
    (candidateRels, factorsNeeded)

def copyWords {α : Type} (dst src : Nat → Option α) (start count : Nat) (i : Nat) : Option α :=
  if start ≤ i ∧ i < start + count then src (i - start) else dst i

/-- The launch of `rebase_kernel`: the number of offsets and the number of blocks
are 32-bit words. -/
def rebaseKernel (dst src : Nat → Option Nat) (first base actualRelsToAdd : Nat) (i : Nat) :
    Option Nat :=
  let numOffsetsToCopy := actualRelsToAdd % 2 ^ 32
  let blocks := (numOffsetsToCopy + 255) % 2 ^ 32 / 256
  if first ≤ i ∧ i - first < blocks * 256 ∧ i - first < numOffsetsToCopy then
    (src (i - first + 1)).map fun offset => (offset + base) % 2 ^ 64
  else
    dst i

def appendedMemory (batch other : RelationBatch) (rels factors : Nat) : SoaMemory
  | .sqrtQ i => copyWords batch.sqrtQ other.sqrtQ batch.globalCount rels i
  | .signs i => copyWords batch.signs other.signs batch.globalCount rels i
  | .val2Exps i => copyWords batch.val2Exps other.val2Exps batch.globalCount rels i
  | .largePrimes i => copyWords batch.largePrimes other.largePrimes batch.globalCount rels i
  | .charBits i => copyWords batch.charBits other.charBits batch.globalCount rels i
  | .factorOffsets i => rebaseKernel batch.factorOffsets other.factorOffsets
      (batch.globalCount + 1) batch.globalFactor rels i
  | .factorIndices k =>
    copyWords batch.factorIndices other.factorIndices batch.globalFactor factors k
  | .factorCounts k =>
    copyWords batch.factorCounts other.factorCounts batch.globalFactor factors k

def appendCut (batch other : RelationBatch) (cut : Nat × Nat) : RelationBatch :=
  { batch with
    memory := appendedMemory batch other cut.1 cut.2
    globalCount := (batch.globalCount + cut.1) % 2 ^ 64
    globalFactor := (batch.globalFactor + cut.2) % 2 ^ 64 }

def append (batch other : RelationBatch) (otherCountRels : Nat) : RelationBatch :=
  if otherCountRels = 0 then batch
  else
    let candidateRels := min otherCountRels (batch.capRels - batch.globalCount)
    if candidateRels = 0 then batch
    else if (cutOff batch other candidateRels).1 = 0 then batch
    else appendCut batch other (cutOff batch other candidateRels)

/-! ## The batches that hold rows -/

structure Holds (batch : RelationBatch) (rows : List Relation) : Prop where
  relations : batch.globalCount = rows.length
  factors : batch.globalFactor = factorTotal rows
  relationCapacity : rows.length ≤ batch.capRels
  factorCapacity : factorTotal rows ≤ batch.capFactors
  content : ∀ (cell : SoaCell) (value : cell.Value),
    soaContent rows cell = some value → batch.memory cell = some value

theorem factorTotal_take_mono (rows : List Relation) :
    Monotone fun k => factorTotal (rows.take k) := by
  intro less more order
  exact factorTotal_mono (List.take_prefix_take_left order)

def Fits (capRels capFactors : Nat) (rows source : List Relation) (k : Nat) : Prop :=
  rows.length + k ≤ capRels ∧ factorTotal rows + factorTotal (source.take k) ≤ capFactors

instance (capRels capFactors : Nat) (rows source : List Relation) :
    DecidablePred (Fits capRels capFactors rows source) :=
  fun _ => inferInstanceAs (Decidable (_ ∧ _))

def fitCount (capRels capFactors : Nat) (rows source : List Relation) (count : Nat) : Nat :=
  Nat.findGreatest (Fits capRels capFactors rows source) count

theorem fitCount_isGreatest {capRels capFactors : Nat} {rows : List Relation}
    (relationCapacity : rows.length ≤ capRels) (factorCapacity : factorTotal rows ≤ capFactors)
    (source : List Relation) (count : Nat) :
    IsGreatest {k | k ≤ count ∧ Fits capRels capFactors rows source k}
      (fitCount capRels capFactors rows source count) := by
  have none_ : Fits capRels capFactors rows source 0 := by
    constructor
    · exact relationCapacity
    · rw [List.take_zero]
      exact factorCapacity
  constructor
  · exact ⟨Nat.findGreatest_le count, Nat.findGreatest_spec (Nat.zero_le count) none_⟩
  · rintro k ⟨counted, fits⟩
    exact Nat.le_findGreatest counted fits

section Source

variable {batch other : RelationBatch} {rows source : List Relation} {count : Nat}

theorem Holds.factorOffset_eq (held : other.Holds source) {i : Nat} (inside : i ≤ source.length) :
    other.factorOffset i = factorTotal (source.take i) := by
  rw [factorOffset, factorOffsets, held.content (.factorOffsets i) _ (if_pos inside)]
  rfl

theorem cutOff_eq (holds : batch.Holds rows) (held : other.Holds source)
    (counted : count ≤ source.length) :
    cutOff batch other (min count (batch.capRels - batch.globalCount)) =
      (fitCount batch.capRels batch.capFactors rows source count, factorTotal (source.take
          (fitCount batch.capRels batch.capFactors rows source count))) := by
  have relations := holds.relationCapacity
  have factors := holds.factorCapacity
  have greatest := fitCount_isGreatest relations factors source count
  have offset : ∀ i ≤ min count (batch.capRels - batch.globalCount),
      other.factorOffset i = factorTotal (source.take i) := fun i bound =>
    held.factorOffset_eq (bound.trans ((Nat.min_le_left _ _).trans counted))
  rw [holds.relations] at offset ⊢
  generalize found : min count (batch.capRels - rows.length) = candidateRels at offset ⊢
  have fits_iff : ∀ k, k ≤ count ∧ Fits batch.capRels batch.capFactors rows source k ↔
      k ≤ candidateRels ∧ factorTotal (source.take k) ≤
        batch.capFactors - factorTotal rows := by
    intro k
    unfold Fits
    omega
  simp only [fits_iff] at greatest
  unfold cutOff
  simp only [holds.factors, offset candidateRels le_rfl]
  split
  next more =>
    rw [← offset candidateRels le_rfl] at more
    have inside := upperBound_lt (Nat.lt_succ_self candidateRels) more
    have above := lt_apply_upperBound inside
    have below := fun place => @le_of_lt_upperBound _ _ other.factorOffset (candidateRels + 1)
      place (batch.capFactors - factorTotal rows)
    generalize upperBound ((List.range (candidateRels + 1)).map other.factorOffset)
      (batch.capFactors - factorTotal rows) = idx at inside above below
    have positive : 0 < idx := by
      apply Nat.pos_of_ne_zero
      rintro rfl
      rw [offset 0 (Nat.zero_le _), List.take_zero] at above
      exact Nat.not_lt_zero _ above
    have cut : idx - 1 = fitCount batch.capRels batch.capFactors rows source count := by
      apply IsGreatest.unique _ greatest
      constructor
      · refine ⟨by omega, ?_⟩
        rw [← offset (idx - 1) (by omega)]
        exact below (idx - 1) (by omega)
      · rintro k ⟨bound, fits⟩
        by_contra beyond
        have later := factorTotal_take_mono source (show idx ≤ k by omega)
        rw [offset idx (by omega)] at above
        exact absurd (later.trans fits) (not_le.mpr above)
    rw [if_pos positive, cut]
    split
    next => rw [offset _ (greatest.1.1)]
    next zero => rw [Nat.eq_zero_of_not_pos zero]; rfl
  next enough =>
    have cut : candidateRels = fitCount batch.capRels batch.capFactors rows source count := by
      apply IsGreatest.unique _ greatest
      exact ⟨⟨le_rfl, not_lt.mp enough⟩, fun k bounds => bounds.1⟩
    rw [← cut]

end Source

/-! ## One append -/

theorem copyWords_append {α β : Type} {left added : List β} {dst src : Nat → Option α} {f : β → α}
    (old : ∀ (i : Nat) (value : α), left[i]?.map f = some value → dst i = some value)
    (new : ∀ (i : Nat) (value : α), added[i]?.map f = some value → src i = some value)
    {i : Nat} {value : α} (held : (left ++ added)[i]?.map f = some value) :
    copyWords dst src left.length added.length i = some value := by
  unfold copyWords
  by_cases before : i < left.length
  · rw [if_neg (by omega)]
    apply old
    rwa [List.getElem?_append_left before] at held
  · rw [List.getElem?_append_right (not_lt.mp before)] at held
    rcases Option.map_eq_some_iff.mp held with ⟨item, there, _⟩
    have inside := (List.getElem?_eq_some_iff.mp there).1
    rw [if_pos (by omega)]
    exact new _ _ held

/-- The blocks cover every offset where the round-up does not wrap. -/
theorem rebaseKernel_eq {dst src : Nat → Option Nat} {first base k : Nat}
    (narrow : k + 255 < 2 ^ 32) (i : Nat) :
    rebaseKernel dst src first base k i = if first ≤ i ∧ i - first < k then
        (src (i - first + 1)).map fun offset => (offset + base) % 2 ^ 64
      else dst i := by
  simp only [rebaseKernel, Nat.mod_eq_of_lt narrow, Nat.mod_eq_of_lt (show k < 2 ^ 32 by omega)]
  have same : (first ≤ i ∧ i - first < (k + 255) / 256 * 256 ∧ i - first < k) ↔
      (first ≤ i ∧ i - first < k) := by
    omega
  simp only [same]

section Append

variable {batch other : RelationBatch} {rows source : List Relation} {count : Nat}

theorem Holds.take (held : other.Holds source) (k : Nat) (cell : SoaCell) (value : cell.Value)
    (content : soaContent (source.take k) cell = some value) : other.memory cell = some value := by
  apply held.content
  have whole := soaContent_of_append (source.drop k) content
  rwa [List.take_append_drop] at whole

theorem appendedMemory_content (holds : batch.Holds rows) (held : other.Holds source)
    {k : Nat} (counted : k ≤ source.length) (narrow : k + 255 < 2 ^ 32)
    (fits : factorTotal rows + factorTotal (source.take k) ≤ batch.capFactors)
    {cell : SoaCell} {value : cell.Value}
    (content : soaContent (rows ++ source.take k) cell = some value) :
    appendedMemory batch other k (factorTotal (source.take k)) cell = some value := by
  have length : (source.take k).length = k := List.length_take_of_le counted
  have bound := batch.capFactors_lt
  have word : ∀ {α : Type} {dst src : Nat → Option α} {f : Relation → α} {i : Nat} {value : α},
      (∀ (i : Nat) (value : α), rows[i]?.map f = some value → dst i = some value) →
      (∀ (i : Nat) (value : α), (source.take k)[i]?.map f = some value → src i = some value) →
      (rows ++ source.take k)[i]?.map f = some value →
      copyWords dst src batch.globalCount k i = some value := by
    intro α dst src f i value old new found
    have copied := copyWords_append old new found
    rwa [length, ← holds.relations] at copied
  have factor : ∀ {α : Type} {dst src : Nat → Option α} {f : Factor → α} {i : Nat} {value : α},
      (∀ (i : Nat) (value : α), (rowFactors rows)[i]?.map f = some value → dst i = some value) →
      (∀ (i : Nat) (value : α), (rowFactors (source.take k))[i]?.map f = some value →
        src i = some value) →
      (rowFactors (rows ++ source.take k))[i]?.map f = some value →
      copyWords dst src batch.globalFactor (factorTotal (source.take k)) i = some value := by
    intro α dst src f i value old new found
    rw [rowFactors_append] at found
    have copied := copyWords_append old new found
    rwa [length_rowFactors, length_rowFactors, ← holds.factors] at copied
  cases cell with
  | sqrtQ i =>
    exact word (fun i => holds.content (.sqrtQ i)) (fun i => held.take k (.sqrtQ i)) content
  | signs i =>
    exact word (fun i => holds.content (.signs i)) (fun i => held.take k (.signs i)) content
  | val2Exps i =>
    exact word (fun i => holds.content (.val2Exps i)) (fun i => held.take k (.val2Exps i))
      content
  | largePrimes i =>
    exact word (fun i => holds.content (.largePrimes i))
      (fun i => held.take k (.largePrimes i)) content
  | charBits i =>
    exact word (fun i => holds.content (.charBits i)) (fun i => held.take k (.charBits i))
      content
  | factorOffsets i =>
    rw [soaContent, List.length_append, length] at content
    split at content
    next inside =>
      rw [appendedMemory, rebaseKernel_eq narrow, holds.relations, ← content]
      by_cases before : i ≤ rows.length
      · rw [if_neg (by omega), List.take_append_of_le_length before]
        exact holds.content (.factorOffsets i) _ (if_pos before)
      · have offset := held.take k (.factorOffsets (i - rows.length)) _
          (if_pos (by rw [length]; omega))
        have read : other.factorOffsets (i - rows.length) =
            some (factorTotal ((source.take k).take (i - rows.length))) := offset
        have split : (rows ++ source.take k).take i =
            rows ++ (source.take k).take (i - rows.length) := by
          rw [List.take_append, List.take_of_length_le (by omega)]
        have part : factorTotal ((source.take k).take (i - rows.length)) ≤
            factorTotal (source.take k) :=
          factorTotal_mono (List.take_prefix _ _)
        rw [if_pos (by omega), show i - (rows.length + 1) + 1 = i - rows.length by omega,
          read, split, factorTotal_append, holds.factors, Option.map_some,
          Nat.mod_eq_of_lt (by omega), Nat.add_comm]
        rfl
    next => cases content
  | factorIndices i =>
    exact factor (fun i => holds.content (.factorIndices i))
      (fun i => held.take k (.factorIndices i)) content
  | factorCounts i =>
    exact factor (fun i => holds.content (.factorCounts i))
      (fun i => held.take k (.factorCounts i)) content

/-- What is written is new, and inside the capacities. -/
theorem appendedMemory_fresh (holds : batch.Holds rows) {k : Nat}
    (narrow : k + 255 < 2 ^ 32) (fits : Fits batch.capRels batch.capFactors rows source k)
    {cell : SoaCell}
    (written : appendedMemory batch other k (factorTotal (source.take k)) cell ≠
      batch.memory cell) :
    soaContent rows cell = none ∧ cell.Within batch.capRels batch.capFactors := by
  rcases fits with ⟨relations, factors⟩
  have word : ∀ {α β : Type} (dst : Nat → Option α) {src : Nat → Option α} {f : Relation → β}
    {i : Nat},
      copyWords dst src batch.globalCount k i ≠ dst i →
      rows[i]?.map f = none ∧ i < batch.capRels := by
    intro α β dst src f i changed
    unfold copyWords at changed
    split at changed
    next inside =>
      rw [holds.relations] at inside
      rw [List.getElem?_eq_none inside.1]
      exact ⟨rfl, by omega⟩
    next => exact absurd rfl changed
  have factor : ∀ {α β : Type} (dst : Nat → Option α) {src : Nat → Option α} {f : Factor → β}
    {i : Nat},
      copyWords dst src batch.globalFactor (factorTotal (source.take k)) i ≠ dst i →
      (rowFactors rows)[i]?.map f = none ∧ i < batch.capFactors := by
    intro α β dst src f i changed
    unfold copyWords at changed
    split at changed
    next inside =>
      rw [holds.factors, ← length_rowFactors rows] at inside
      rw [← length_rowFactors rows] at factors
      rw [List.getElem?_eq_none inside.1]
      exact ⟨rfl, by omega⟩
    next => exact absurd rfl changed
  cases cell with
  | sqrtQ i => exact word batch.sqrtQ written
  | signs i => exact word batch.signs written
  | val2Exps i => exact word batch.val2Exps written
  | largePrimes i => exact word batch.largePrimes written
  | charBits i => exact word batch.charBits written
  | factorOffsets i =>
    rw [appendedMemory, rebaseKernel_eq narrow, holds.relations] at written
    split at written
    next inside => exact ⟨if_neg (by omega), show i ≤ batch.capRels by omega⟩
    next => exact absurd rfl written
  | factorIndices i => exact factor batch.factorIndices written
  | factorCounts i => exact factor batch.factorCounts written

theorem append_eq (holds : batch.Holds rows) (held : other.Holds source)
    (counted : count ≤ source.length) :
    batch.append other count =
      if fitCount batch.capRels batch.capFactors rows source count = 0 then batch
      else appendCut batch other (fitCount batch.capRels batch.capFactors rows source count,
        factorTotal (source.take (fitCount batch.capRels batch.capFactors rows source count))) := by
  have greatest :=
    (fitCount_isGreatest holds.relationCapacity holds.factorCapacity source count).1
  have bounded : fitCount batch.capRels batch.capFactors rows source count ≤
      min count (batch.capRels - batch.globalCount) := by
    have room := greatest.2.1
    rw [holds.relations]
    exact le_min greatest.1 (by omega)
  simp only [append, cutOff_eq holds held counted]
  by_cases nothing : count = 0
  · rw [if_pos nothing, if_pos (by omega)]
  · rw [if_neg nothing]
    by_cases full : min count (batch.capRels - batch.globalCount) = 0
    · rw [if_pos full, if_pos (by omega)]
    · rw [if_neg full]

private theorem appendCut_holds (holds : batch.Holds rows) (held : other.Holds source) {k : Nat}
    (counted : k ≤ source.length) (narrow : k + 255 < 2 ^ 32)
    (fits : Fits batch.capRels batch.capFactors rows source k) :
    (appendCut batch other (k, factorTotal (source.take k))).Holds (rows ++ source.take k) := by
  rcases fits with ⟨relations, factors⟩
  have length : (rows ++ source.take k).length = rows.length + k := by
    rw [List.length_append, List.length_take_of_le counted]
  have capRels := batch.capRels_lt
  have capFactors := batch.capFactors_lt
  constructor
  · change (batch.globalCount + k) % 2 ^ 64 = _
    rw [length, holds.relations, Nat.mod_eq_of_lt (by omega)]
  · change (batch.globalFactor + _) % 2 ^ 64 = _
    rw [factorTotal_append, holds.factors, Nat.mod_eq_of_lt (by omega)]
  · rw [length]
    exact relations
  · rw [factorTotal_append]
    exact factors
  · intro cell value content
    exact appendedMemory_content holds held counted narrow factors content

theorem append_holds (holds : batch.Holds rows) (held : other.Holds source)
    (counted : count ≤ source.length)
    (narrow : fitCount batch.capRels batch.capFactors rows source count + 255 < 2 ^ 32) :
    (batch.append other count).Holds
        (rows ++ source.take (fitCount batch.capRels batch.capFactors rows source count)) ∧
      ∀ cell, (batch.append other count).memory cell ≠ batch.memory cell →
        soaContent rows cell = none ∧ cell.Within batch.capRels batch.capFactors := by
  have greatest :=
    (fitCount_isGreatest holds.relationCapacity holds.factorCapacity source count).1
  rw [append_eq holds held counted]
  split
  next none_ =>
    rw [none_, List.take_zero, List.append_nil]
    exact ⟨holds, fun cell changed => absurd rfl changed⟩
  next =>
    constructor
    · exact appendCut_holds holds held (greatest.1.trans counted) narrow greatest.2
    · intro cell changed
      exact appendedMemory_fresh holds narrow greatest.2 changed

theorem append_capRels (batch other : RelationBatch) (count : Nat) :
    (batch.append other count).capRels = batch.capRels := by
  simp only [append]
  split_ifs <;> rfl

theorem append_capFactors (batch other : RelationBatch) (count : Nat) :
    (batch.append other count).capFactors = batch.capFactors := by
  simp only [append]
  split_ifs <;> rfl

end Append

/-! ## A run of appends -/

structure Source where
  batch : RelationBatch
  rows : List Relation
  holds : batch.Holds rows
  count : Nat
  count_le : count ≤ rows.length

def appendAll (batch : RelationBatch) (sources : List Source) : RelationBatch :=
  sources.foldl (fun batch source => batch.append source.batch source.count) batch

/-- Behind the rows stored so far, every source adds the longest prefix of its counted
relations that fits. -/
inductive Stored (capRels capFactors : Nat) :
    List Relation → List Source → List Relation → Prop where
  | nil (rows : List Relation) : Stored capRels capFactors rows [] rows
  | cons {rows final : List Relation} {source : Source} {sources : List Source} {k : Nat}
      (longest : IsGreatest {k | k ≤ source.count ∧ Fits capRels capFactors rows source.rows k} k)
      (rest : Stored capRels capFactors (rows ++ source.rows.take k) sources final) :
      Stored capRels capFactors rows (source :: sources) final

def Narrow (capRels capFactors : Nat) (rows : List Relation) : List Source → Prop
  | [] => True
  | source :: sources =>
    fitCount capRels capFactors rows source.rows source.count + 255 < 2 ^ 32 ∧
      Narrow capRels capFactors
        (rows ++ source.rows.take (fitCount capRels capFactors rows source.rows source.count))
        sources

private theorem soaContent_eq_none {rows added : List Relation} {cell : SoaCell}
    (fresh : soaContent (rows ++ added) cell = none) : soaContent rows cell = none := by
  cases held : soaContent rows cell with
  | none => rfl
  | some value =>
    rw [soaContent_of_append added held] at fresh
    cases fresh

/-- A run of appends stores a list of prefixes in order, and writes nothing that is
held or beyond the capacities. -/
theorem append_stores_prefixes {batch : RelationBatch} {rows : List Relation}
    (holds : batch.Holds rows) (sources : List Source)
    (narrow : Narrow batch.capRels batch.capFactors rows sources) :
    ∃ final, Stored batch.capRels batch.capFactors rows sources final ∧
      (batch.appendAll sources).Holds final ∧
      ∀ cell, (batch.appendAll sources).memory cell ≠ batch.memory cell →
        soaContent rows cell = none ∧ cell.Within batch.capRels batch.capFactors := by
  induction sources generalizing batch rows with
  | nil => exact ⟨rows, .nil rows, holds, fun cell changed => absurd rfl changed⟩
  | cons source sources induction =>
    rcases append_holds holds source.holds source.count_le narrow.1 with ⟨first, written⟩
    have longest := fitCount_isGreatest holds.relationCapacity holds.factorCapacity
      source.rows source.count
    rcases induction first (by rw [append_capRels, append_capFactors]; exact narrow.2) with
      ⟨final, stored, whole, others⟩
    rw [append_capRels, append_capFactors] at stored others
    refine ⟨final, .cons longest stored, whole, fun cell changed => ?_⟩
    by_cases kept : (batch.append source.batch source.count).memory cell = batch.memory cell
    · rw [← kept] at changed
      rcases others cell changed with ⟨fresh, within⟩
      exact ⟨soaContent_eq_none fresh, within⟩
    · exact written cell kept

def filled (capRels capFactors : Nat) (rows : List Relation) (capRels_lt : capRels < 2 ^ 64)
    (capFactors_lt : capFactors < 2 ^ 64) : RelationBatch where
  memory := soaContent rows
  capRels := capRels
  capFactors := capFactors
  globalCount := rows.length
  globalFactor := factorTotal rows
  capRels_lt := capRels_lt
  capFactors_lt := capFactors_lt

theorem filled_holds {capRels capFactors : Nat} {rows : List Relation}
    (capRels_lt : capRels < 2 ^ 64) (capFactors_lt : capFactors < 2 ^ 64)
    (relations : rows.length ≤ capRels) (factors : factorTotal rows ≤ capFactors) :
    (filled capRels capFactors rows capRels_lt capFactors_lt).Holds rows :=
  ⟨rfl, rfl, relations, factors, fun _ _ content => content⟩

/-- A relation whose square is plus one times the given factors. -/
def relationOf (factors : List Factor) : Relation :=
  ⟨UInt512.ofUInt32 5, 1, 0, 1, 0, factors⟩

def threeRows : List Relation := [relationOf [(3, 1)], relationOf [], relationOf [(3, 1), (4, 2)]]

def threeSource : Source where
  batch := filled 3 3 threeRows (by decide) (by decide)
  rows := threeRows
  holds := filled_holds (by decide) (by decide) (by decide) (by decide)
  count := 3
  count_le := by decide

/-- Five relations and two factors of room, for two appends of three relations. -/
theorem append_stores_prefixes_sample : ∃ final, Stored 5 2 [] [threeSource, threeSource] final ∧
      ((filled 5 2 [] (by decide) (by decide)).appendAll [threeSource, threeSource]).Holds final ∧
      ∀ cell, ((filled 5 2 [] (by decide) (by decide)).appendAll
          [threeSource, threeSource]).memory cell ≠ soaContent [] cell →
        soaContent [] cell = none ∧ cell.Within 5 2 :=
  append_stores_prefixes (filled_holds (by decide) (by decide) (by decide) (by decide)) _
    ⟨by decide, by decide, trivial⟩

theorem factorTotal_replicate (n : Nat) : factorTotal (List.replicate n (relationOf [])) = 0 := by
  simp [factorTotal, relationOf]

private theorem factorOffsets_appendCut_of_wrap (batch other : RelationBatch) {cut : Nat × Nat}
    (wraps : cut.1 % 2 ^ 32 = 0) (i : Nat) :
    (appendCut batch other cut).factorOffsets i = batch.factorOffsets i := by
  unfold factorOffsets appendCut appendedMemory
  simp only [rebaseKernel, wraps]
  exact if_neg fun inside => Nat.not_lt_zero _ inside.2.2

theorem not_holds_of_wrap {n : Nat} (positive : 0 < n) (wraps : n % 2 ^ 32 = 0)
    (bound : n < 2 ^ 64) :
    (filled n 0 [] bound (by decide)).Holds [] ∧
      (filled n 0 (List.replicate n (relationOf [])) bound (by decide)).Holds
        (List.replicate n (relationOf [])) ∧
      fitCount n 0 [] (List.replicate n (relationOf [])) n = n ∧
      ¬ ((filled n 0 [] bound (by decide)).append
          (filled n 0 (List.replicate n (relationOf [])) bound (by decide)) n).Holds
        (List.replicate n (relationOf [])) := by
  have length : (List.replicate n (relationOf [])).length = n := List.length_replicate
  have all : fitCount n 0 [] (List.replicate n (relationOf [])) n = n := by
    have none_ : factorTotal [] ≤ 0 := Nat.zero_le 0
    have greatest := fitCount_isGreatest (Nat.zero_le n) none_
      (List.replicate n (relationOf [])) n
    apply le_antisymm greatest.1.1
    apply greatest.2
    refine ⟨le_rfl, ?_, ?_⟩
    · rw [List.length_nil, Nat.zero_add]
    · rw [List.take_of_length_le length.le, factorTotal_replicate]
      rfl
  have empty : (filled n 0 [] bound (by decide)).Holds [] :=
    filled_holds bound (by decide) (Nat.zero_le n) (Nat.zero_le 0)
  have source : (filled n 0 (List.replicate n (relationOf [])) bound (by decide)).Holds
      (List.replicate n (relationOf [])) :=
    filled_holds bound (by decide) length.le (factorTotal_replicate n).le
  refine ⟨empty, source, all, fun holds => ?_⟩
  rw [append_eq empty source length.ge] at holds
  split at holds
  next none_ => exact absurd (all.symm.trans none_) (Nat.pos_iff_ne_zero.mp positive)
  next =>
    have written : factorOffsets _ 1 = some _ :=
      holds.content (.factorOffsets 1) _ (if_pos (by rw [length]; exact positive))
    rw [factorOffsets_appendCut_of_wrap] at written
    · cases written
    · exact (congrArg (· % 2 ^ 32) all).trans wraps

/-- An empty batch for `2 ^ 32` relations, and as many relations without factors. -/
theorem not_append_stores_prefixes : (filled (2 ^ 32) 0 [] (by decide) (by decide)).Holds [] ∧
      (filled (2 ^ 32) 0 (List.replicate (2 ^ 32) (relationOf [])) (by decide) (by decide)).Holds
        (List.replicate (2 ^ 32) (relationOf [])) ∧
      fitCount (2 ^ 32) 0 [] (List.replicate (2 ^ 32) (relationOf [])) (2 ^ 32) = 2 ^ 32 ∧
      ¬ ((filled (2 ^ 32) 0 [] (by decide) (by decide)).append
          (filled (2 ^ 32) 0 (List.replicate (2 ^ 32) (relationOf [])) (by decide) (by decide))
          (2 ^ 32)).Holds
        (List.replicate (2 ^ 32) (relationOf [])) := by
  have positive : 0 < 2 ^ 32 := by decide
  have wraps : 2 ^ 32 % 2 ^ 32 = 0 := by decide
  have bound : 2 ^ 32 < 2 ^ 64 := by decide
  exact not_holds_of_wrap positive wraps bound

end RelationBatch

end CudaMpqs
