import CudaMpqs.Foundation.Transition
import CudaMpqs.Common.HostRelationBatch
import CudaMpqs.Common.Montgomery

/-! # The coordinator's large-prime table

The single large prime table of `cpu_lp.cu`, and what re-delivered partials
do to the combined relations it produces. -/

namespace CudaMpqs

open SortedMerge Transition

structure CPULargePrimeTable where
  mont : Montgomery
  table : BitVec 64 → Option Relation
  totalInserts : Nat
  totalMatches : Nat
  totalCombines : Nat
  totalDupDropped : Nat

namespace CPULargePrimeTable

def new (N : UInt512) : CPULargePrimeTable :=
  ⟨Montgomery.ofModulus N, fun _ => none, 0, 0, 0, 0⟩

def lpKey (incoming : Relation) : BitVec 64 := incoming.largePrime.setWidth 64

def mergeFactors (left right : List Factor) : List Factor :=
  merge (· + ·) left right

/-- The combined relation, unless both partials have the same `sqrt_Q`. -/
def combinePartials (mont : Montgomery) (stored incoming : Relation) : Option Relation :=
  if stored.sqrtQ = incoming.sqrtQ then none
  else some {
    sqrtQ := mont.reduce
      (mont.mul (mont.transform stored.sqrtQ) (mont.transform incoming.sqrtQ))
    sign := Relation.combineSign stored.sign incoming.sign
    val2Exp := stored.val2Exp + incoming.val2Exp
    largePrime := stored.largePrime
    charBits := stored.charBits ^^^ incoming.charBits
    factors := mergeFactors stored.factors incoming.factors }

def deliver (self : CPULargePrimeTable) (incoming : Relation) :
    CPULargePrimeTable × Option Relation :=
  if lpKey incoming = 0 ∨ lpKey incoming = 1 then (self, none)
  else
    match self.table (lpKey incoming) with
    | some stored =>
      let erased := Function.update self.table (lpKey incoming) none
      match combinePartials self.mont stored incoming with
      | some combined =>
        ({ self with
            table := erased
            totalMatches := self.totalMatches + 1
            totalCombines := self.totalCombines + 1 }, some combined)
      | none =>
        ({ self with
            table := erased
            totalMatches := self.totalMatches + 1
            totalDupDropped := self.totalDupDropped + 1 }, none)
    | none =>
      ({ self with
          table := Function.update self.table (lpKey incoming) (some incoming)
          totalInserts := self.totalInserts + 1 }, none)

def insertRow (partials : HostRelationBatch)
    (current : CPULargePrimeTable × HostRelationBatch) (idx : Nat) :
    CPULargePrimeTable × HostRelationBatch :=
  let next := current.1.deliver (partials.relation idx)
  match next.2 with
  | some combined => (next.1, current.2.push combined)
  | none => (next.1, current.2)

def insertAndMatch (self : CPULargePrimeTable) (partials : HostRelationBatch) :
    CPULargePrimeTable × HostRelationBatch :=
  (List.range partials.numRelations).foldl (insertRow partials)
    (self, HostRelationBatch.empty)

def insertBatches (self : CPULargePrimeTable) :
    List HostRelationBatch → CPULargePrimeTable × List Relation
  | [] => (self, [])
  | partials :: batches =>
    let next := self.insertAndMatch partials
    let rest := insertBatches next.1 batches
    (rest.1, next.2.relations ++ rest.2)

def combinedRelations (self : CPULargePrimeTable) (stream : List Relation) : List Relation :=
  (emitRun deliver self stream).2

/-! ## What one delivery does -/

section Delivery

variable {self : CPULargePrimeTable} {incoming stored : Relation}

theorem deliver_skipped (skipped : lpKey incoming = 0 ∨ lpKey incoming = 1) :
    self.deliver incoming = (self, none) :=
  if_pos skipped

theorem deliver_mont : (self.deliver incoming).1.mont = self.mont := by
  unfold deliver
  split
  · rfl
  split
  · split <;> rfl
  · rfl

theorem deliver_keyed (self : CPULargePrimeTable) {incoming : Relation}
    (keyed : ¬ (lpKey incoming = 0 ∨ lpKey incoming = 1)) :
    (self.deliver incoming).1.table = Function.update self.table (lpKey incoming)
          (if (self.table (lpKey incoming)).isSome then none else some incoming) ∧
      (self.deliver incoming).2 = (self.table (lpKey incoming)).bind fun stored =>
          combinePartials self.mont stored incoming := by
  rw [deliver, if_neg keyed]
  cases present : self.table (lpKey incoming) with
  | none => exact ⟨rfl, rfl⟩
  | some stored =>
    cases combined : combinePartials self.mont stored incoming with
    | none => simp [combined]
    | some relation => simp [combined]

theorem combinePartials_self (mont : Montgomery) (incoming : Relation) :
    combinePartials mont incoming incoming = none :=
  if_pos rfl

theorem combinePartials_isSome_iff (mont : Montgomery) :
    (combinePartials mont stored incoming).isSome ↔ stored.sqrtQ ≠ incoming.sqrtQ := by
  unfold combinePartials
  split <;> simp_all

end Delivery

/-! ## Batches -/

theorem foldl_insertRow (partials : HostRelationBatch) (rows : List Nat)
    (self : CPULargePrimeTable) (output : HostRelationBatch)
    (wellFormed : output.WellFormed) :
    (rows.foldl (insertRow partials) (self, output)).1 =
        (emitRun deliver self (rows.map partials.relation)).1 ∧
      (rows.foldl (insertRow partials) (self, output)).2.relations = output.relations ++
          (emitRun deliver self (rows.map partials.relation)).2 ∧
      (rows.foldl (insertRow partials) (self, output)).2.WellFormed := by
  induction rows generalizing self output with
  | nil => exact ⟨rfl, (List.append_nil _).symm, wellFormed⟩
  | cons idx rows induction =>
    simp only [List.foldl_cons, List.map_cons, emitRun]
    cases emitted : (self.deliver (partials.relation idx)).2 with
    | none =>
      have row : insertRow partials (self, output) idx =
          ((self.deliver (partials.relation idx)).1, output) := by
        simp only [insertRow, emitted]
      rw [row]
      exact induction _ _ wellFormed
    | some combined =>
      have row : insertRow partials (self, output) idx =
          ((self.deliver (partials.relation idx)).1, output.push combined) := by
        simp only [insertRow, emitted]
      rw [row]
      rcases induction (self.deliver (partials.relation idx)).1 _
        (wellFormed.push combined) with ⟨table, relations, pushed⟩
      refine ⟨table, ?_, pushed⟩
      rw [relations, wellFormed.relations_push, List.append_assoc]
      rfl

private theorem insertAndMatch_eq (self : CPULargePrimeTable) (partials : HostRelationBatch) :
    ((self.insertAndMatch partials).1, (self.insertAndMatch partials).2.relations) =
      emitRun deliver self partials.relations := by
  rcases foldl_insertRow partials (List.range partials.numRelations) self _
    HostRelationBatch.empty_wellFormed with ⟨table, relations, -⟩
  exact Prod.ext table relations

theorem insertBatches_eq (self : CPULargePrimeTable) (batches : List HostRelationBatch) :
    self.insertBatches batches =
      emitRun deliver self (batches.flatMap HostRelationBatch.relations) := by
  induction batches generalizing self with
  | nil => rfl
  | cons partials batches induction =>
    have batch := insertAndMatch_eq self partials
    rw [List.flatMap_cons, emitRun_append, ← batch]
    simp only [insertBatches, induction]

/-! ## Re-delivery -/

def IsRedelivery (self : CPULargePrimeTable) (incoming : Relation) : Prop :=
  ¬ (lpKey incoming = 0 ∨ lpKey incoming = 1) ∧ self.table (lpKey incoming) = some incoming

instance (self : CPULargePrimeTable) (incoming : Relation) :
    Decidable (self.IsRedelivery incoming) :=
  inferInstanceAs (Decidable (_ ∧ _))

def removeDuplicates (self : CPULargePrimeTable) : List Relation → List Relation
  | [] => []
  | incoming :: stream =>
    if self.IsRedelivery incoming then removeDuplicates self stream
    else incoming :: removeDuplicates (self.deliver incoming).1 stream

/-- The table that never sees a duplicate, and for each key the parity of the
duplicates of its witness seen so far. -/
structure Deduplicated where
  clean : CPULargePrimeTable
  odd : BitVec 64 → Bool

namespace Deduplicated

def new (N : UInt512) : Deduplicated := ⟨CPULargePrimeTable.new N, fun _ => false⟩

def deliver (self : Deduplicated) (incoming : Relation) : Deduplicated × Option Relation :=
  if self.clean.IsRedelivery incoming then
    ({ self with
        odd := Function.update self.odd (lpKey incoming)
          (!self.odd (lpKey incoming)) }, none)
  else
    ({ self with clean := (self.clean.deliver incoming).1 },
      (self.clean.deliver incoming).2)

theorem deliver_redelivery {self : Deduplicated} {incoming : Relation}
    (again : self.clean.IsRedelivery incoming) :
    self.deliver incoming =
      ({ self with
          odd := Function.update self.odd (lpKey incoming)
            (!self.odd (lpKey incoming)) }, none) :=
  if_pos again

theorem deliver_fresh {self : Deduplicated} {incoming : Relation}
    (fresh : ¬ self.clean.IsRedelivery incoming) :
    self.deliver incoming = ({ self with clean := (self.clean.deliver incoming).1 },
        (self.clean.deliver incoming).2) :=
  if_neg fresh

theorem emitRun_deliver (self : Deduplicated) (stream : List Relation) :
    (emitRun deliver self stream).2 =
      combinedRelations self.clean (removeDuplicates self.clean stream) := by
  induction stream generalizing self with
  | nil => rfl
  | cons incoming stream induction =>
    by_cases again : self.clean.IsRedelivery incoming
    · rw [emitRun, deliver_redelivery again, removeDuplicates, if_pos again]
      exact induction _
    · rw [emitRun, deliver_fresh again, removeDuplicates, if_neg again]
      simp only [induction, combinedRelations, emitRun]

end Deduplicated

/-- A duplicate arrives, or a partial whose stored witness has been
re-delivered an even number of times. -/
def EvenlyDelivered (ghost : Deduplicated) (incoming : Relation) : Prop :=
  ghost.clean.IsRedelivery incoming ∨ ghost.odd (lpKey incoming) = false

instance (ghost : Deduplicated) (incoming : Relation) :
    Decidable (EvenlyDelivered ghost incoming) :=
  inferInstanceAs (Decidable (_ ∨ _))

def EvenRedelivery (N : UInt512) (stream : List Relation) : Prop :=
  Guarded Deduplicated.deliver EvenlyDelivered (Deduplicated.new N) stream

instance (N : UInt512) (stream : List Relation) :
    Decidable (EvenRedelivery N stream) :=
  Guarded.decidable _ _ _ _

/-! ## The duplicated and the clean run -/

/-- After an odd number of re-deliveries the witness is gone, otherwise the
tables agree. -/
structure Parity (Source : Relation → Prop) (dirty : CPULargePrimeTable)
    (ghost : Deduplicated) : Prop where
  mont : dirty.mont = ghost.clean.mont
  table : ∀ key, dirty.table key = if ghost.odd key then none else ghost.clean.table key
  stored : ∀ key, ghost.odd key → (ghost.clean.table key).isSome
  keyed : ∀ key, ghost.odd key → ¬ (key = 0 ∨ key = 1)
  source : ∀ key witness, ghost.clean.table key = some witness →
    lpKey witness = key ∧ Source witness

namespace Parity

variable {Source : Relation → Prop} {dirty : CPULargePrimeTable}
  {ghost : Deduplicated} {incoming : Relation}

theorem new (Source : Relation → Prop) (N : UInt512) :
    Parity Source (CPULargePrimeTable.new N) (Deduplicated.new N) where
  mont := rfl
  table := fun _ => rfl
  stored := fun _ odd => Bool.noConfusion odd
  keyed := fun _ odd => Bool.noConfusion odd
  source := by
    intro key witness found
    cases found

theorem redelivered (parity : Parity Source dirty ghost)
    (again : ghost.clean.IsRedelivery incoming) :
    Parity Source (dirty.deliver incoming).1 (ghost.deliver incoming).1 := by
  have after := (deliver_keyed dirty again.1).1
  rw [Deduplicated.deliver_redelivery again]
  constructor
  · exact deliver_mont.trans parity.mont
  · intro key
    simp only [after, Function.update_apply]
    by_cases same : key = lpKey incoming
    · subst same
      rw [if_pos rfl, if_pos rfl, parity.table, again.2]
      cases ghost.odd (lpKey incoming) <;> rfl
    · rw [if_neg same, if_neg same, parity.table]
  · intro key odd
    simp only [Function.update_apply] at odd
    by_cases same : key = lpKey incoming
    · subst same
      exact Option.isSome_iff_exists.mpr ⟨incoming, again.2⟩
    · rw [if_neg same] at odd
      exact parity.stored key odd
  · intro key odd
    simp only [Function.update_apply] at odd
    by_cases same : key = lpKey incoming
    · subst same
      exact again.1
    · rw [if_neg same] at odd
      exact parity.keyed key odd
  · exact parity.source

theorem delivered (parity : Parity Source dirty ghost) (source : Source incoming)
    (fresh : ¬ ghost.clean.IsRedelivery incoming)
    (even : ghost.odd (lpKey incoming) = false) :
    Parity Source (dirty.deliver incoming).1 (ghost.deliver incoming).1 := by
  rw [Deduplicated.deliver_fresh fresh]
  by_cases keyed : lpKey incoming = 0 ∨ lpKey incoming = 1
  · rw [deliver_skipped keyed, deliver_skipped keyed]
    exact parity
  · have same : dirty.table (lpKey incoming) =
        ghost.clean.table (lpKey incoming) := by
      rw [parity.table, even]
      rfl
    have dirtyAfter := (deliver_keyed dirty keyed).1
    have cleanAfter := (deliver_keyed ghost.clean keyed).1
    rw [same] at dirtyAfter
    constructor
    · exact (deliver_mont.trans parity.mont).trans deliver_mont.symm
    · intro key
      simp only [dirtyAfter, cleanAfter, Function.update_apply]
      by_cases here : key = lpKey incoming
      · subst here
        rw [if_pos rfl, if_pos rfl, even]
        rfl
      · rw [if_neg here, if_neg here, parity.table]
    · intro key odd
      have elsewhere : key ≠ lpKey incoming := by
        intro here
        subst here
        exact Bool.noConfusion (even.symm.trans odd)
      rw [cleanAfter, Function.update_of_ne elsewhere]
      exact parity.stored key odd
    · exact parity.keyed
    · intro key witness found
      simp only [cleanAfter, Function.update_apply] at found
      by_cases here : key = lpKey incoming
      · subst here
        rw [if_pos rfl] at found
        split at found
        · cases found
        · cases found
          exact ⟨rfl, source⟩
      · rw [if_neg here] at found
        exact parity.source key witness found

theorem redelivered_emits (parity : Parity Source dirty ghost)
    (again : ghost.clean.IsRedelivery incoming) :
    (dirty.deliver incoming).2 = (ghost.deliver incoming).2 := by
  rw [(deliver_keyed _ again.1).2, parity.table, again.2, Deduplicated.deliver_redelivery again]
  cases ghost.odd (lpKey incoming) with
  | true => rfl
  | false => exact combinePartials_self _ _

private theorem delivered_emits (parity : Parity Source dirty ghost)
    (fresh : ¬ ghost.clean.IsRedelivery incoming)
    (even : ghost.odd (lpKey incoming) = false) :
    (dirty.deliver incoming).2 = (ghost.deliver incoming).2 := by
  rw [Deduplicated.deliver_fresh fresh]
  by_cases keyed : lpKey incoming = 0 ∨ lpKey incoming = 1
  · rw [deliver_skipped keyed, deliver_skipped keyed]
  · rw [(deliver_keyed _ keyed).2, (deliver_keyed _ keyed).2, parity.mont, parity.table, even]
    rfl

theorem simulates (Source : Relation → Prop) :
    Simulates deliver Deduplicated.deliver EvenlyDelivered Source (Parity Source) where
  related := by
    intro dirty ghost incoming source parity evenly
    by_cases again : ghost.clean.IsRedelivery incoming
    · exact parity.redelivered again
    · exact parity.delivered source again (evenly.resolve_left again)
  emits := by
    intro dirty ghost incoming source parity evenly
    by_cases again : ghost.clean.IsRedelivery incoming
    · exact parity.redelivered_emits again
    · exact parity.delivered_emits again (evenly.resolve_left again)

/-- Where an equal key and `sqrt_Q` identify a partial, a partner that meets
an erased witness is visibly lost. -/
theorem shows (genuine : ∀ left right, Source left → Source right →
      lpKey left = lpKey right → left.sqrtQ = right.sqrtQ → left = right)
    (parity : Parity Source dirty ghost) (source : Source incoming)
    (unguarded : ¬ EvenlyDelivered ghost incoming) :
    (dirty.deliver incoming).2 ≠ (ghost.deliver incoming).2 := by
  rcases not_or.mp unguarded with ⟨fresh, odd⟩
  have odd := Bool.eq_true_of_not_eq_false odd
  rcases Option.isSome_iff_exists.mp (parity.stored _ odd) with ⟨witness, found⟩
  rcases parity.source _ _ found with ⟨sameKey, witnessSource⟩
  have different : witness.sqrtQ ≠ incoming.sqrtQ := by
    intro sameRoot
    have equal := genuine _ _ witnessSource source sameKey sameRoot
    subst equal
    exact fresh ⟨parity.keyed _ odd, found⟩
  have combined := (combinePartials_isSome_iff ghost.clean.mont).mpr different
  rw [Deduplicated.deliver_fresh fresh, (deliver_keyed _ (parity.keyed _ odd)).2,
    (deliver_keyed _ (parity.keyed _ odd)).2, parity.table, odd, found]
  intro equal
  have lost : combinePartials ghost.clean.mont witness incoming = none :=
    equal.symm
  rw [lost] at combined
  exact Bool.noConfusion combined

end Parity

theorem combinedRelations_of_even {N : UInt512} {stream : List Relation}
    (even : EvenRedelivery N stream) :
    combinedRelations (new N) stream =
      combinedRelations (new N) (removeDuplicates (new N) stream) := by
  have run := (Parity.simulates fun _ => True).emitRun_eq
    (Parity.new _ N) (fun _ _ => trivial) even
  rwa [Deduplicated.emitRun_deliver] at run

def Genuine (stream : List Relation) : Prop :=
  ∀ left ∈ stream, ∀ right ∈ stream, lpKey left = lpKey right →
    left.sqrtQ = right.sqrtQ → left = right

instance (stream : List Relation) : Decidable (Genuine stream) :=
  List.decidableBAll _ _

theorem even_of_combinedRelations {N : UInt512} {stream : List Relation} (genuine : Genuine stream)
    (agree : ∀ delivered, delivered <+: stream → combinedRelations (new N) delivered =
        combinedRelations (new N) (removeDuplicates (new N) delivered)) :
    EvenRedelivery N stream := by
  apply (Parity.simulates (· ∈ stream)).guarded_of_emitRun_eq ?_
    (Parity.new _ N) (fun _ member => member)
  · intro delivered isPrefix
    rw [Deduplicated.emitRun_deliver]
    exact agree delivered isPrefix
  · intro dirty ghost incoming member parity unguarded
    exact parity.shows (fun left right leftMember rightMember =>
      genuine left leftMember right rightMember) member unguarded

private theorem table_replicate {self : CPULargePrimeTable} {witness : Relation}
    (keyed : ¬ (lpKey witness = 0 ∨ lpKey witness = 1))
    (stored : self.table (lpKey witness) = some witness) (n : Nat) :
    (emitRun deliver self (List.replicate n witness)).1.table (lpKey witness) =
      if Even n then some witness else none := by
  induction n with
  | zero => exact stored
  | succ n induction =>
    rw [List.replicate_succ', emitRun_append]
    simp only [emitRun]
    rw [(deliver_keyed _ keyed).1, Function.update_self, induction]
    by_cases even : Even n
    · simp [Nat.even_add_one, even]
    · simp [Nat.even_add_one, even]

/-- The table combines a partner exactly after an even number of
re-deliveries of its witness. -/
theorem deliver_partner_isSome_iff {self : CPULargePrimeTable} {witness partner : Relation}
    (keyed : ¬ (lpKey witness = 0 ∨ lpKey witness = 1))
    (stored : self.table (lpKey witness) = some witness)
    (sameKey : lpKey partner = lpKey witness)
    (different : witness.sqrtQ ≠ partner.sqrtQ) (n : Nat) :
    ((emitRun deliver self (List.replicate n witness)).1.deliver partner).2.isSome ↔ Even n := by
  have after := table_replicate keyed stored n
  rw [(deliver_keyed _ (sameKey ▸ keyed)).2, sameKey, after]
  by_cases even : Even n
  · rw [if_pos even]
    exact iff_of_true ((combinePartials_isSome_iff _).mpr different) even
  · rw [if_neg even]
    exact iff_of_false Bool.false_ne_true even

/-- Re-delivered partials leave the combined relations as they are if, and on
genuine streams only if, every partner finds an even number of re-deliveries. -/
theorem redelivery_iff_even (N : UInt512) : (∀ batches : List HostRelationBatch,
      EvenRedelivery N (batches.flatMap HostRelationBatch.relations) →
        ((new N).insertBatches batches).2 = combinedRelations (new N) (removeDuplicates (new N)
            (batches.flatMap HostRelationBatch.relations))) ∧
    (∀ stream : List Relation, Genuine stream →
      (EvenRedelivery N stream ↔ ∀ delivered, delivered <+: stream →
        combinedRelations (new N) delivered =
          combinedRelations (new N) (removeDuplicates (new N) delivered))) ∧
    ∀ (self : CPULargePrimeTable) (witness partner : Relation) (n : Nat),
      ¬ (lpKey witness = 0 ∨ lpKey witness = 1) →
      self.table (lpKey witness) = some witness →
      lpKey partner = lpKey witness → witness.sqrtQ ≠ partner.sqrtQ →
      (((emitRun deliver self (List.replicate n witness)).1.deliver
        partner).2.isSome ↔ Even n) := by
  refine ⟨?_, ?_, ?_⟩
  · intro batches even
    rw [insertBatches_eq]
    exact combinedRelations_of_even even
  · intro stream genuine
    refine ⟨?_, even_of_combinedRelations genuine⟩
    intro even delivered isPrefix
    exact combinedRelations_of_even (even.of_append isPrefix)
  · intro self witness partner n keyed stored sameKey different
    exact deliver_partner_isSome_iff keyed stored sameKey different n

def samplePartial (sqrtQ : BitVec 32) : Relation :=
  ⟨UInt512.ofUInt32 sqrtQ, 1, 0, 101, 0, []⟩

theorem redelivery_iff_even_thrice : combinedRelations (new (UInt512.ofUInt32 15))
        [samplePartial 2, samplePartial 2, samplePartial 2, samplePartial 7] =
      combinedRelations (new (UInt512.ofUInt32 15)) [samplePartial 2, samplePartial 7] := by
  have even : EvenRedelivery (UInt512.ofUInt32 15)
      [samplePartial 2, samplePartial 2, samplePartial 2, samplePartial 7] := by
    decide
  have genuine : Genuine
      [samplePartial 2, samplePartial 2, samplePartial 2, samplePartial 7] := by
    decide
  exact ((redelivery_iff_even _).2.1 _ genuine).mp even _ (List.prefix_refl _)

/-- After one re-delivery the genuine partner finds no witness. -/
theorem redelivery_loses_combination :
    ¬ ∀ (N : UInt512) (stream : List Relation) (combined : Relation),
      combined ∈ combinedRelations (new N) stream ↔
        combined ∈ combinedRelations (new N) (removeDuplicates (new N) stream) := by
  intro unchanged
  have same := unchanged (UInt512.ofUInt32 15)
    [samplePartial 2, samplePartial 2, samplePartial 7]
  have lost : combinedRelations (new (UInt512.ofUInt32 15))
      [samplePartial 2, samplePartial 2, samplePartial 7] = [] := by
    decide
  have combines : combinedRelations (new (UInt512.ofUInt32 15))
      (removeDuplicates (new (UInt512.ofUInt32 15))
        [samplePartial 2, samplePartial 2, samplePartial 7]) ≠ [] := by
    decide
  rcases List.exists_mem_of_ne_nil _ combines with ⟨combined, member⟩
  have found := (same combined).mpr member
  rw [lost] at found
  cases found

end CPULargePrimeTable

end CudaMpqs
