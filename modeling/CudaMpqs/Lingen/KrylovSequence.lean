import Mathlib.LinearAlgebra.Matrix.Notation
import CudaMpqs.Lingen.KrylovBatch

/-! # The Krylov sequence

The pipeline puts the projection of each snapshot at its position, so that a call
returns the sequence as long as its batches are safe, and a repeated term otherwise. -/

namespace CudaMpqs.Lingen

variable {rows m n : Nat} {transposeOutput : Bool} {captures : Captures}
  {B : Block rows rows} {Z : Block rows n} {batchSize length batchIdx : Nat}

/-! ## The pipeline -/

def projection : (transposeOutput : Bool) → Block rows m → Block rows n → Output m n transposeOutput
  | false, X, V => X.transpose * V
  | true, X, V => (X.transpose * V).transpose

theorem batchTail_outputBuf
    (generator : KrylovSequenceGenerator rows m n transposeOutput) (X : Block rows m)
    {count slot : Nat} (bufIdx : Nat) (below : slot < count) :
    (generator.batchTail X count bufIdx).outputBuf bufIdx slot =
      projection transposeOutput X (generator.vBuf bufIdx slot) := by
  have projected : forSlots count (kernelKrylovBatchProj X) (generator.vBuf bufIdx)
      (forSlots count (fun _ _ => 0) (generator.vBuf bufIdx) (generator.sBuf bufIdx)) slot =
      X.transpose * generator.vBuf bufIdx slot := by
    rw [forSlots, if_pos below, forSlots, if_pos below, kernelKrylovBatchProj_eq, zero_add]
  cases transposeOutput with
  | false =>
    unfold KrylovSequenceGenerator.outputBuf KrylovSequenceGenerator.batchTail
    dsimp only
    rw [Function.update_self, projected]
    rfl
  | true =>
    unfold KrylovSequenceGenerator.outputBuf KrylovSequenceGenerator.batchTail
    dsimp only
    rw [if_pos rfl, Function.update_self, forSlots, if_pos below, kernelTransposeBatch_eq,
      projected]
    rfl

variable {X : Block rows m} {hostCopy : Bool} {position : Nat} {V : Block rows n}
  {Good : Nat → Recurrence rows n → Prop}

/-- Before batch `batchIdx`: what is known of the recurrence until the batch of the
position, and where its term is afterwards. -/
structure Delivering (Good : Nat → Recurrence rows n → Prop) (batchSize position : Nat)
    (hostCopy : Bool) (term : Output m n transposeOutput) (batchIdx : Nat)
    (call : KrylovCall rows m n transposeOutput) : Prop where
  size : call.generator.batchSize = batchSize
  coming : batchIdx ≤ position / batchSize → Good batchIdx call.generator.recurrence
  target : position / batchSize < batchIdx → ∀ dest ∈ call.target, dest position = term
  downloaded : hostCopy = true → batchIdx = position / batchSize + 1 →
    call.generator.hSBuf (position / batchSize % 2) (position % batchSize) = term
  consumed : hostCopy = true → position / batchSize + 1 < batchIdx → call.outSeq position = term

theorem memcpy_at {Value : Type} {dest source : Nat → Value} {start count at_ : Nat}
    (inside : start ≤ at_ ∧ at_ < start + count) :
    memcpy dest start count source at_ = source (at_ - start) := if_pos inside

theorem memcpy_frame {Value : Type} {dest source : Nat → Value} {start count at_ : Nat}
    (outside : ¬(start ≤ at_ ∧ at_ < start + count)) :
    memcpy dest start count source at_ = dest at_ := if_neg outside

theorem mem_batch_iff (positive : 0 < batchSize) (inside : position < length) :
    (batchIdx * batchSize ≤ position ∧
        position < batchIdx * batchSize + min batchSize (length - batchIdx * batchSize)) ↔
      batchIdx = position / batchSize := by
  have quotient := Nat.div_mul_le_self position batchSize
  have remainder := Nat.lt_div_mul_add (a := position) positive
  constructor
  · rintro ⟨above, below⟩
    apply le_antisymm
    · exact (Nat.le_div_iff_mul_le positive).mpr above
    · rw [← Nat.lt_succ_iff, Nat.div_lt_iff_lt_mul positive, Nat.succ_mul]
      omega
  · rintro rfl
    omega

theorem computeBatch_spec (generator : KrylovSequenceGenerator rows m n transposeOutput)
    (size : generator.batchSize = batchSize) :
    let computed := generator.computeBatch captures B X length batchIdx
    computed.batchSize = batchSize ∧ computed.hSBuf = generator.hSBuf ∧
      computed.recurrence = generator.recurrence.nextBatch captures B batchSize length batchIdx
        (generator.vBuf (batchIdx % 2)) ∧
      ∀ slot < min batchSize (length - batchIdx * batchSize),
        computed.outputBuf (batchIdx % 2) slot = projection transposeOutput X
          ((Recurrence.innerLoopStep captures B batchSize length (batchIdx * batchSize)
            (generator.recurrence, generator.vBuf (batchIdx % 2))).2 slot) := by
  subst size
  refine ⟨rfl, rfl, rfl, ?_⟩
  intro slot below
  unfold KrylovSequenceGenerator.computeBatch
  dsimp only
  rw [batchTail_outputBuf _ _ _ below]
  dsimp only
  rw [Function.update_self]

theorem copied_at {Value : Type} {dest source : Nat → Value} (positive : 0 < batchSize)
    (inside : position < length) :
    memcpy dest (batchIdx * batchSize) (min batchSize (length - batchIdx * batchSize)) source
        position =
      if batchIdx = position / batchSize then source (position % batchSize)
      else dest position := by
  have covers := @mem_batch_iff batchSize length batchIdx position positive inside
  by_cases here : batchIdx = position / batchSize
  · rw [memcpy_at (covers.mpr here), if_pos here, here, ← Nat.mod_eq_sub_div_mul]
  · rw [memcpy_frame (mt covers.mp here), if_neg here]

theorem consume_at {call : KrylovCall rows m n transposeOutput}
    (size : call.generator.batchSize = batchSize) (positive : 0 < batchSize)
    (inside : position < length) :
    call.consume length batchIdx position = if batchIdx = position / batchSize then
        call.generator.hSBuf (position / batchSize % 2) (position % batchSize)
      else call.outSeq position := by
  rw [KrylovCall.consume, size, copied_at positive inside]
  split
  next here => rw [here]
  next => rfl

theorem Delivering.runBatch {call : KrylovCall rows m n transposeOutput}
    (delivering : Delivering Good batchSize position hostCopy
      (projection transposeOutput X V) batchIdx call)
    (launched : (launchInstance m n).isSome) (positive : 0 < batchSize)
    (inside : position < length)
    (preserved : ∀ state slots, batchIdx < position / batchSize → Good batchIdx state →
      Good (batchIdx + 1) (state.nextBatch captures B batchSize length batchIdx slots))
    (found : ∀ state slots, batchIdx = position / batchSize → Good batchIdx state →
      (Recurrence.innerLoopStep captures B batchSize length (batchIdx * batchSize)
        (state, slots)).2 (position % batchSize) = V) :
    ∃ next, call.runBatch captures B X length hostCopy batchIdx = some next ∧
      Delivering Good batchSize position hostCopy (projection transposeOutput X V)
        (batchIdx + 1) next := by
  rcases @computeBatch_spec _ _ _ _ captures B _ length batchIdx X call.generator
    delivering.size with ⟨size, downloads, recurrence, output⟩
  have slot : batchIdx = position / batchSize →
      position % batchSize < min batchSize (length - batchIdx * batchSize) := by
    intro here
    have covers := (@mem_batch_iff batchSize length _ _ positive inside).mpr here
    have remainder := Nat.div_add_mod' position batchSize
    rw [← here] at remainder
    omega
  have computed : batchIdx = position / batchSize →
      (call.generator.computeBatch captures B X length batchIdx).outputBuf (batchIdx % 2)
        (position % batchSize) = projection transposeOutput X V := by
    intro here
    rw [output _ (slot here), found _ _ here (delivering.coming here.le)]
  have coming : batchIdx + 1 ≤ position / batchSize → Good (batchIdx + 1)
      (call.generator.computeBatch captures B X length batchIdx).recurrence := by
    intro before
    rw [recurrence]
    exact preserved _ _ before (delivering.coming (by omega))
  unfold KrylovCall.runBatch
  rw [Option.isNone_eq_false_iff.mpr launched, if_neg Bool.false_ne_true]
  dsimp only
  generalize call.generator.computeBatch captures B X length batchIdx = after at *
  subst size
  have target : position / after.batchSize < batchIdx + 1 → ∀ dest ∈ call.target.map fun dest =>
      memcpy dest (batchIdx * after.batchSize)
        (min after.batchSize (length - batchIdx * after.batchSize))
        (after.outputBuf (batchIdx % 2)), dest position = projection transposeOutput X V := by
    intro reached dest member
    rcases Option.map_eq_some_iff.mp member with ⟨earlier, given, rfl⟩
    rw [copied_at positive inside]
    split
    next here => exact computed here
    next elsewhere => exact delivering.target (by omega) earlier given
  cases hostCopy with
  | false => exact ⟨_, rfl, rfl, coming, target, nofun, nofun⟩
  | true =>
    refine ⟨_, rfl, rfl, coming, target, ?_, ?_⟩
    · intro _ same
      have here : batchIdx = position / after.batchSize := Nat.succ_injective same
      change Function.update after.hSBuf (batchIdx % 2) _ (position / after.batchSize % 2) _ = _
      rw [← here, Function.update_self, memcpy_at ⟨Nat.zero_le _, by
        rw [Nat.zero_add]; exact slot here⟩, Nat.sub_zero, computed here]
    · intro _ passed
      have earlier : position / after.batchSize < batchIdx := Nat.lt_of_succ_lt_succ passed
      refine (congrFun (if_pos (Nat.zero_lt_of_lt earlier)) position).trans ?_
      refine (@consume_at _ _ _ _ after.batchSize _ _ _ _ ?_ positive inside).trans ?_
      · rfl
      · split
        next here =>
            dsimp only
            rw [Function.update_of_ne (by omega), downloads]
            exact delivering.downloaded rfl (by omega)
        next elsewhere =>
            apply delivering.consumed rfl
            apply Nat.lt_of_le_of_ne earlier
            intro same
            exact elsewhere (Nat.sub_eq_of_eq_add same.symm)

theorem Delivering.batches {started : KrylovCall rows m n transposeOutput}
    (delivering : Delivering Good batchSize position hostCopy
      (projection transposeOutput X V) 0 started)
    (launched : (launchInstance m n).isSome) (positive : 0 < batchSize)
    (inside : position < length)
    (preserved : ∀ batchIdx state slots, batchIdx < position / batchSize → Good batchIdx state →
      Good (batchIdx + 1) (state.nextBatch captures B batchSize length batchIdx slots))
    (found : ∀ state slots, Good (position / batchSize) state →
      (Recurrence.innerLoopStep captures B batchSize length
        (position / batchSize * batchSize) (state, slots)).2 (position % batchSize) = V)
    (batches : Nat) :
    ∃ call, (List.range batches).foldlM (KrylovCall.runBatch captures B X length hostCopy)
        started = some call ∧
      Delivering Good batchSize position hostCopy (projection transposeOutput X V) batches
        call ∧ call.target.isSome = started.target.isSome := by
  induction batches with
  | zero => exact ⟨started, rfl, delivering, rfl⟩
  | succ batches induction =>
    rcases induction with ⟨call, reached, delivered, given⟩
    rcases delivered.runBatch launched positive inside (preserved batches)
      (fun state slots here => by rw [here]; exact found state slots) with
      ⟨next, stepped, delivering⟩
    refine ⟨next, ?_, delivering, ?_⟩
    · rw [List.range_succ, List.foldlM_append, reached, Option.bind_eq_bind,
        Option.bind_some, List.foldlM_cons, stepped]
      rfl
    · rw [← given]
      unfold KrylovCall.runBatch at stepped
      rw [Option.isNone_eq_false_iff.mpr launched, if_neg Bool.false_ne_true] at stepped
      dsimp only at stepped
      split at stepped <;> rw [← Option.some.inj stepped] <;> exact Option.isSome_map

/-- A call puts the projection of a snapshot at its position. -/
theorem generate_at (generator : KrylovSequenceGenerator rows m n transposeOutput)
    (outSeq : Nat → Output m n transposeOutput)
    (target : Option (Nat → Output m n transposeOutput))
    (launched : (launchInstance m n).isSome) (positive : 0 < generator.batchSize)
    (inside : position < length) (start : Good 0 (generator.recurrence.start B Z))
    (preserved : ∀ batchIdx state slots, batchIdx < position / generator.batchSize →
      Good batchIdx state →
      Good (batchIdx + 1) (state.nextBatch captures B generator.batchSize length batchIdx slots))
    (found : ∀ state slots, Good (position / generator.batchSize) state →
      (Recurrence.innerLoopStep captures B generator.batchSize length
        (position / generator.batchSize * generator.batchSize) (state, slots)).2
          (position % generator.batchSize) = V) :
    ∃ result, generator.generate captures B length X Z outSeq target hostCopy = some result ∧
      result.target.isSome = target.isSome ∧
      (∀ dest ∈ result.target, dest position = projection transposeOutput X V) ∧
      if (hostCopy || target.isNone) = true then
        result.outSeq.length = length ∧
          result.outSeq[position]? = some (projection transposeOutput X V)
      else result.outSeq = [] := by
  have initial : Delivering Good generator.batchSize position (hostCopy || target.isNone)
      (projection transposeOutput X V) 0
      ⟨{ generator with recurrence := generator.recurrence.start B Z }, outSeq, target⟩ :=
    ⟨rfl, fun _ => start, nofun, nofun, nofun⟩
  have reached : position / generator.batchSize <
      (length + generator.batchSize - 1) / generator.batchSize := by
    rw [Nat.div_lt_iff_lt_mul positive]
    have covers := Nat.lt_div_mul_add (a := length + generator.batchSize - 1) positive
    omega
  rcases initial.batches launched positive inside preserved found
    ((length + generator.batchSize - 1) / generator.batchSize) with
    ⟨call, ran, delivering, given⟩
  unfold KrylovSequenceGenerator.generate
  dsimp only
  rw [if_neg positive.ne']
  rw [ran]
  dsimp only
  have last : 0 < (length + generator.batchSize - 1) / generator.batchSize :=
    Nat.zero_lt_of_lt reached
  generalize (length + generator.batchSize - 1) / generator.batchSize = batches at *
  cases host : hostCopy || target.isNone with
  | false => exact ⟨_, rfl, given, delivering.target reached, rfl⟩
  | true =>
    rw [if_neg last.ne', if_pos rfl]
    rw [host] at delivering
    refine ⟨_, rfl, given, delivering.target reached, ?_⟩
    rw [if_pos rfl, List.length_map, List.length_range, List.getElem?_map,
      List.getElem?_range inside, Option.map_some, consume_at delivering.size positive inside]
    refine ⟨rfl, congrArg some ?_⟩
    split
    next here => exact delivering.downloaded rfl (by omega)
    next elsewhere => exact delivering.consumed rfl (by omega)

/-! ## The sequence -/

/-- `S_k`. With transposed output the generator stands for the one of the transposed
operator with the blocks swapped. -/
def krylovTerm : (transposeOutput : Bool) → Block rows rows → Block rows m → Block rows n →
    Nat → Output m n transposeOutput
  | false, B, X, Z, k => X.transpose * B ^ (k + 1) * Z
  | true, B, X, Z, k => Z.transpose * B.transpose ^ (k + 1) * X

theorem projection_power (X : Block rows m) (k : Nat) :
    projection transposeOutput X (power B Z k) = krylovTerm transposeOutput B X Z k := by
  cases transposeOutput with
  | false => exact (Matrix.mul_assoc _ _ _).symm
  | true =>
    change (X.transpose * (B ^ (k + 1) * Z)).transpose = _
    rw [Matrix.transpose_mul, Matrix.transpose_mul, Matrix.transpose_transpose,
      Matrix.transpose_pow]
    rfl

theorem projection_injective (someRow : 0 < m) {V W : Block rows n}
    (same : ∀ X : Block rows m, projection transposeOutput X V =
      projection transposeOutput X W) : V = W := by
  have native : ∀ X : Block rows m, X.transpose * V = X.transpose * W := by
    intro X
    cases transposeOutput with
    | false => exact same X
    | true => exact Matrix.transpose_injective (same X)
  ext i c
  have entry := congrFun (congrFun (native (Matrix.of fun k _ => if k = i then 1 else 0))
    ⟨0, someRow⟩) c
  simpa [Matrix.mul_apply] using entry

def Produces (result : Option (KrylovResult rows m n transposeOutput)) (length : Nat)
    (hostCopy : Bool) (target : Option (Nat → Output m n transposeOutput))
    (terms : Nat → Output m n transposeOutput) : Prop :=
  ∃ returned, result = some returned ∧ returned.target.isSome = target.isSome ∧
    (∀ dest ∈ returned.target, ∀ k < length, dest k = terms k) ∧
    returned.outSeq =
      if (hostCopy || target.isNone) = true then (List.range length).map terms else []

/-- The vector from which on a replayed graph repeats vectors, if there is one: the first
one if the graph was captured at the other buffer, and the first one of the second batch
if full batches of odd size swap the buffers. -/
def KrylovSequenceGenerator.staleFrom (captures : Captures) (length : Nat)
    (generator : KrylovSequenceGenerator rows m n transposeOutput) : Option Nat :=
  let state := generator.recurrence
  if state.useCudaGraph = true ∧ 2 ≤ generator.batchSize ∧ generator.batchSize ≤ length ∧
      (state.innerLoop.isSome ∨ captures.innerLoop = true) then
    if state.innerLoop = some !state.dV then if 3 ≤ length then some 0 else none
    else if generator.batchSize % 2 = 1 ∧ 2 * generator.batchSize ≤ length ∧
        (state.batchTail 0 = true ∨ captures.batchTail 0 = true) then
      some generator.batchSize
    else none
  else none

theorem safe_of_staleFrom (generator : KrylovSequenceGenerator rows m n transposeOutput)
    (repeats : ∀ first ∈ generator.staleFrom captures length, Periodic B Z first) :
    Recurrence.Safe captures B Z generator.batchSize length 0 (generator.recurrence.start B Z) := by
  unfold KrylovSequenceGenerator.staleFrom at repeats
  dsimp only at repeats
  by_cases replayed : generator.recurrence.useCudaGraph = true ∧ 2 ≤ generator.batchSize ∧
      generator.batchSize ≤ length ∧
      (generator.recurrence.innerLoop.isSome ∨ captures.innerLoop = true)
  · rw [if_pos replayed] at repeats
    by_cases frozen : generator.recurrence.innerLoop = some !generator.recurrence.dV
    · rw [if_pos frozen] at repeats
      by_cases long : 3 ≤ length
      · rw [if_pos long] at repeats
        refine .repeats ?_
        rw [Nat.zero_mul]
        exact repeats 0 rfl
      · exact .ends (by omega)
    · rw [if_neg frozen] at repeats
      have aligned : ∀ captured ∈ (generator.recurrence.start B Z).innerLoop,
          captured = (generator.recurrence.start B Z).dV := by
        intro captured graph
        by_contra other
        exact frozen (graph.trans (congrArg some (Bool.eq_not_of_ne other)))
      by_cases stale : generator.batchSize % 2 = 1 ∧ 2 * generator.batchSize ≤ length ∧
          (generator.recurrence.batchTail 0 = true ∨ captures.batchTail 0 = true)
      · rw [if_pos stale] at repeats
        refine .repeatsNext aligned ?_
        rw [Nat.zero_add, Nat.one_mul]
        exact repeats _ rfl
      · refine .aligned ⟨aligned, ?_⟩
        by_cases even : generator.batchSize % 2 = 0
        · exact .inl even
        · by_cases short : length < (0 + 2) * generator.batchSize
          · exact .inr (.inl short)
          · have failing : ¬(generator.recurrence.batchTail 0 = true ∨
                captures.batchTail 0 = true) :=
              fun tails => stale ⟨by omega, by omega, tails⟩
            rw [not_or, Bool.not_eq_true, Bool.not_eq_true] at failing
            exact .inr (.inr ⟨failing.2, failing.1⟩)
  · refine .quiet ?_
    by_contra loud
    unfold Recurrence.Quiet at loud
    simp only [not_or, not_and, Bool.not_eq_false, not_lt] at loud
    apply replayed
    refine ⟨loud.1, loud.2.1, by omega, ?_⟩
    cases graph : generator.recurrence.innerLoop with
    | some captured => exact .inl rfl
    | none => exact .inr (loud.2.2.2 graph)

theorem launchInstance_pos (launched : (launchInstance m n).isSome) : 0 < m := by
  by_contra none
  have zero : m = 0 := by omega
  subst zero
  rcases Option.isSome_iff_exists.mp launched with ⟨sizes, found⟩
  rcases Option.map_eq_some_iff.mp found with ⟨entry, member, _⟩
  have same : entry.1 = (0, n) := by simpa using List.find?_some member
  have positive : ∀ entry ∈ launchTable, 0 < entry.1.1 := by decide
  have bound := positive entry (List.mem_of_find?_eq_some member)
  rw [same] at bound
  exact absurd bound (Nat.lt_irrefl 0)

/-- A call returns the terms if no vector is repeated. -/
theorem generate_produces (generator : KrylovSequenceGenerator rows m n transposeOutput)
    (outSeq : Nat → Output m n transposeOutput)
    (target : Option (Nat → Output m n transposeOutput))
    (launched : (launchInstance m n).isSome) (positive : 0 < generator.batchSize)
    (nonempty : 0 < length)
    (repeats : ∀ first ∈ generator.staleFrom captures length, Periodic B Z first) :
    Produces (generator.generate captures B length X Z outSeq target hostCopy) length hostCopy
      target (krylovTerm transposeOutput B X Z) := by
  have delivered : ∀ position < length, _ := fun position inside =>
    @generate_at _ _ _ _ captures B Z length X hostCopy position (power B Z position)
      (fun batchIdx state => HoldsPower B Z (batchIdx * generator.batchSize) state ∧
        Recurrence.Safe captures B Z generator.batchSize length batchIdx state)
      generator outSeq target launched positive inside
      ⟨by rw [Nat.zero_mul]; exact Recurrence.start_holds, safe_of_staleFrom generator repeats⟩
      (by
        intro batchIdx state slots before good
        have ends : (batchIdx + 1) * generator.batchSize ≤ position :=
          (Nat.le_div_iff_mul_le positive).mp before
        have next : (batchIdx + 1) * generator.batchSize =
            batchIdx * generator.batchSize + generator.batchSize := Nat.succ_mul _ _
        exact (Recurrence.innerLoopStep_safe good.1 good.2 (by omega)).2 (by omega))
      (by
        intro state slots good
        have below := Nat.div_mul_le_self position generator.batchSize
        have remainder := Nat.div_add_mod' position generator.batchSize
        have small := Nat.mod_lt position positive
        have slot := (@Recurrence.innerLoopStep_safe _ _ _ _ _ _ _ _ _ slots good.1
          good.2 (by omega)).1 (position % generator.batchSize) (by omega)
        rw [remainder] at slot
        exact slot)
  rcases delivered 0 nonempty with ⟨result, returned, given, _, host⟩
  have same : ∀ position < length, (∀ dest ∈ result.target,
      dest position = krylovTerm transposeOutput B X Z position) ∧
      ((hostCopy || target.isNone) = true →
        result.outSeq[position]? = some (krylovTerm transposeOutput B X Z position)) := by
    intro position inside
    rcases delivered position inside with ⟨other, again, _, onDevice, onHost⟩
    rw [returned, Option.some.injEq] at again
    subst again
    rw [projection_power] at onDevice onHost
    refine ⟨onDevice, fun copied => ?_⟩
    rw [if_pos copied] at onHost
    exact onHost.2
  refine ⟨result, returned, given, fun dest member k inside => (same k inside).1 dest member, ?_⟩
  split at host
  next copied =>
      rw [if_pos copied]
      apply List.ext_getElem?
      intro k
      by_cases inside : k < length
      · rw [(same k inside).2 copied, List.getElem?_map, List.getElem?_range inside]
        rfl
      · rw [List.getElem?_eq_none (by omega), List.getElem?_eq_none (by simp; omega)]
  next skipped => rw [if_neg skipped, host]

variable {state : Recurrence rows n}

theorem captureBatchTail_enabled (count bufIdx : Nat) (enabled : state.useCudaGraph = true)
    (tails : state.batchTail bufIdx = true ∨ captures.batchTail bufIdx = true) :
    (state.captureBatchTail captures batchSize count bufIdx).useCudaGraph = true := by
  unfold Recurrence.captureBatchTail
  split
  next fresh =>
      have success : captures.batchTail bufIdx = true :=
        tails.resolve_left fun there => nomatch there.symm.trans fresh.2.2
      rw [if_pos success]
      exact enabled
  next => exact enabled

theorem snapshot_frozen (enabled : state.useCudaGraph = true) (long : 2 ≤ batchSize)
    (full : batchSize ≤ length) (frozen : state.innerLoop = some !state.dV)
    (slots : Nat → Block rows n) :
    (3 ≤ batchSize → (Recurrence.innerLoopStep captures B batchSize length (0 * batchSize)
        (state.start B Z, slots)).2 2 = power B Z 0) ∧
      (batchSize = 2 → ((state.start B Z).nextBatch captures B batchSize length 0 slots).vector
        ((state.start B Z).nextBatch captures B batchSize length 0 slots).dV = power B Z 0) := by
  have replayed := @Recurrence.innerLoopStep_replayed _ _ captures B batchSize length
    (state.start B Z) slots _ (0 * batchSize) enabled long (by omega) frozen
  have holds := @Recurrence.start_holds _ _ B Z state
  have other : (!state.dV) ≠ (state.start B Z).dV := Bool.not_ne_self _
  constructor
  · intro more
    rw [replayed]
    exact Recurrence.graphLoop_stale holds other more
  · rintro rfl
    have frame := @Recurrence.captureBatchTail_frame _ _ captures 2
      (Recurrence.innerLoopStep captures B 2 length (0 * 2) (state.start B Z, slots)).1
      (min 2 (length - 0 * 2)) (0 % 2)
    unfold Recurrence.nextBatch
    rw [frame.1, frame.2.1, replayed]
    exact (Recurrence.graphLoop_pair holds _).2 other

/-- A full batch of odd size leaves its graph at the other buffer. -/
theorem nextBatch_swapped (enabled : state.useCudaGraph = true) (odd : batchSize % 2 = 1)
    (long : 2 ≤ batchSize) (full : batchSize ≤ length)
    (known : state.innerLoop.isSome ∨ captures.innerLoop = true)
    (aligned : state.innerLoop ≠ some !state.dV)
    (tails : state.batchTail 0 = true ∨ captures.batchTail 0 = true) (slots : Nat → Block rows n) :
    let next := (state.start B Z).nextBatch captures B batchSize length 0 slots
    HoldsPower B Z batchSize next ∧ next.useCudaGraph = true ∧
      next.innerLoop = some !next.dV := by
  intro next
  have count : min batchSize (length - 0 * batchSize) = batchSize := by omega
  have frame := @Recurrence.captureBatchTail_frame _ _ captures batchSize
    (Recurrence.innerLoopStep captures B batchSize length (0 * batchSize)
      (state.start B Z, slots)).1 (min batchSize (length - 0 * batchSize)) (0 % 2)
  rcases @Recurrence.innerLoopStep_cases _ _ captures B batchSize length (state.start B Z)
      slots (0 * batchSize) with
    ⟨direct, _⟩ | ⟨missing, failing, _⟩ | ⟨_, _, _, captured, graph, same⟩
  · exact absurd ⟨enabled, count, by omega⟩ direct
  · rcases known with there | success
    · rw [show state.innerLoop = none from missing] at there
      cases there
    · exact nomatch success.symm.trans failing
  · have current : captured = state.dV := by
      rcases graph with there | ⟨_, _, current⟩
      · by_contra other
        exact aligned (there.trans (congrArg some (Bool.eq_not_of_ne other)))
      · exact current
    have holds : HoldsPower B Z 0 { state.start B Z with innerLoop := some captured } :=
      Recurrence.start_holds.congr rfl rfl
    have advanced := @Recurrence.graphLoop_advanced _ _ _ _ _ _ slots holds _ (.inl current)
      (min batchSize (length - 0 * batchSize))
    rw [← same, count, if_pos (by omega)] at advanced
    have holdsNext := advanced.1.holds
    rw [Nat.zero_add] at holdsNext
    refine ⟨Recurrence.holds_captureBatchTail holdsNext _ _,
      captureBatchTail_enabled _ _ (advanced.1.graphs.useCudaGraph.trans enabled) ?_, ?_⟩
    · rw [advanced.1.graphs.batchTail]
      exact tails
    · change Recurrence.innerLoop (Recurrence.captureBatchTail _ _ _ _ _) =
        some !Recurrence.dV (Recurrence.captureBatchTail _ _ _ _ _)
      rw [frame.2.1, frame.2.2.1, advanced.2, advanced.1.graphs.innerLoop, current]
      exact congrArg some (Bool.not_not _).symm

/-- A call that repeats a vector returns its projection two positions later. -/
theorem generate_stale (generator : KrylovSequenceGenerator rows m n transposeOutput)
    (outSeq : Nat → Output m n transposeOutput)
    (target : Option (Nat → Output m n transposeOutput))
    (launched : (launchInstance m n).isSome) {first : Nat}
    (stale : generator.staleFrom captures length = some first) :
    first + 2 < length ∧
    ∃ result, generator.generate captures B length X Z outSeq target hostCopy = some result ∧
      result.target.isSome = target.isSome ∧
      (∀ dest ∈ result.target, dest (first + 2) = projection transposeOutput X (power B Z first)) ∧
      if (hostCopy || target.isNone) = true then
        result.outSeq.length = length ∧
          result.outSeq[first + 2]? = some (projection transposeOutput X (power B Z first))
      else result.outSeq = [] := by
  unfold KrylovSequenceGenerator.staleFrom at stale
  dsimp only at stale
  split at stale
  case isFalse => cases stale
  case isTrue replays =>
    rcases replays with ⟨enabled, long, full, known⟩
    split at stale
    case isTrue frozen =>
      split at stale
      case isFalse => cases stale
      case isTrue more =>
        obtain rfl := Option.some.inj stale
        refine ⟨more, ?_⟩
        by_cases three : 3 ≤ generator.batchSize
        · have batch : (0 + 2) / generator.batchSize = 0 := Nat.div_eq_of_lt three
          refine @generate_at _ _ _ _ captures B Z length X hostCopy _ _
            (fun batchIdx state => batchIdx = 0 → state = generator.recurrence.start B Z)
            generator outSeq target launched (by omega) more (fun _ => rfl) ?_ ?_
          · intro batchIdx state slots before
            omega
          · intro state slots started
            rw [started batch, batch, Nat.mod_eq_of_lt three]
            exact (snapshot_frozen enabled long full frozen slots).1 three
        · have two : generator.batchSize = 2 := by omega
          refine @generate_at _ _ _ _ captures B Z length X hostCopy _ _
            (fun batchIdx state => (batchIdx = 0 → state = generator.recurrence.start B Z) ∧
              (batchIdx = 1 → state.vector state.dV = power B Z 0))
            generator outSeq target launched (by omega) more ⟨fun _ => rfl, nofun⟩ ?_ ?_
          · intro batchIdx state slots before started
            rw [two, Nat.lt_one_iff] at before
            subst before
            refine ⟨nofun, fun _ => ?_⟩
            rw [started.1 rfl]
            exact (snapshot_frozen enabled long full frozen slots).2 two
          · intro state slots started
            rw [two] at started ⊢
            rw [← started.2 rfl]
            exact Recurrence.innerLoopStep_slot_zero _ (by omega) (by omega)
    case isFalse aligned =>
      split at stale
      case isFalse => cases stale
      case isTrue odd =>
        obtain rfl := Option.some.inj stale
        have three : 3 ≤ generator.batchSize := by omega
        have batch : (generator.batchSize + 2) / generator.batchSize = 1 := by
          rw [Nat.add_div_left _ (by omega), Nat.div_eq_of_lt three]
        have slot : (generator.batchSize + 2) % generator.batchSize = 2 := by
          rw [Nat.add_mod_left, Nat.mod_eq_of_lt three]
        refine ⟨by omega, @generate_at _ _ _ _ captures B Z length X hostCopy _ _
          (fun batchIdx state => (batchIdx = 0 → state = generator.recurrence.start B Z) ∧
            (batchIdx = 1 → HoldsPower B Z generator.batchSize state ∧
              state.useCudaGraph = true ∧ state.innerLoop = some !state.dV))
          generator outSeq target launched (by omega) (by omega) ⟨fun _ => rfl, nofun⟩ ?_ ?_⟩
        · intro batchIdx state slots before started
          rw [batch, Nat.lt_one_iff] at before
          subst before
          refine ⟨nofun, fun _ => ?_⟩
          rw [started.1 rfl]
          exact nextBatch_swapped enabled odd.1 long full known aligned odd.2.2 slots
        · intro state slots started
          rw [batch] at started ⊢
          rcases started.2 rfl with ⟨holds, replaying, frozen⟩
          rw [slot, Recurrence.innerLoopStep_replayed _ replaying long (by omega) frozen]
          exact Recurrence.graphLoop_stale holds (Bool.not_ne_self _) three

theorem generate_unlaunched (generator : KrylovSequenceGenerator rows m n transposeOutput)
    (outSeq : Nat → Output m n transposeOutput)
    (target : Option (Nat → Output m n transposeOutput))
    (missing : (launchInstance m n).isSome = false) (nonempty : 0 < length) :
    generator.generate captures B length X Z outSeq target hostCopy = none := by
  unfold KrylovSequenceGenerator.generate
  dsimp only
  split
  next => rfl
  next positive =>
      have batches : 0 < (length + generator.batchSize - 1) / generator.batchSize :=
        Nat.div_pos (by omega) (by omega)
      obtain ⟨rest, count⟩ : ∃ rest,
          (length + generator.batchSize - 1) / generator.batchSize = rest + 1 :=
        ⟨_, (Nat.succ_pred_eq_of_pos batches).symm⟩
      have none : (launchInstance m n).isNone = true := by
        rw [← Option.not_isSome, missing, Bool.not_false]
      rw [count, List.range_succ_eq_map, List.foldlM_cons, KrylovCall.runBatch, if_pos none]
      rfl

theorem Produces.term_eq {result : Option (KrylovResult rows m n transposeOutput)}
    {target : Option (Nat → Output m n transposeOutput)}
    {terms : Nat → Output m n transposeOutput} {term : Output m n transposeOutput}
    (produces : Produces result length hostCopy target terms) (inside : position < length)
    {returned : KrylovResult rows m n transposeOutput} (same : result = some returned)
    (onDevice : ∀ dest ∈ returned.target, dest position = term)
    (onHost : (hostCopy || target.isNone) = true → returned.outSeq[position]? = some term) :
    terms position = term := by
  rcases produces with ⟨other, again, given, device, host⟩
  obtain rfl : returned = other := Option.some.inj (same.symm.trans again)
  cases copied : hostCopy || target.isNone with
  | true =>
    rw [copied, if_pos rfl] at host
    have there := onHost copied
    rw [host, List.getElem?_map, List.getElem?_range inside] at there
    exact Option.some.inj there
  | false =>
    rw [Bool.or_eq_false_iff, Option.isNone_eq_false_iff] at copied
    rw [copied.2] at given
    rcases Option.isSome_iff_exists.mp given with ⟨dest, member⟩
    exact (device dest member position inside).symm.trans (onDevice dest member)

/-- A call returns the sequence for every `X` exactly when it has a term to return or
no host copy to make, its block sizes have an instance, and a replayed graph repeats
only vectors that are to be repeated. -/
theorem generate_iff (generator : KrylovSequenceGenerator rows m n transposeOutput)
    (captures : Captures) (B : Block rows rows) (length : Nat) (Z : Block rows n)
    (outSeq : Nat → Output m n transposeOutput)
    (target : Option (Nat → Output m n transposeOutput)) (hostCopy : Bool) :
    (∀ X, Produces (generator.generate captures B length X Z outSeq target hostCopy) length
        hostCopy target (krylovTerm transposeOutput B X Z)) ↔
      0 < generator.batchSize ∧ (length = 0 ∧ (hostCopy || target.isNone) = false ∨
          0 < length ∧ (launchInstance m n).isSome ∧ ∀ first ∈ generator.staleFrom captures length,
              B ^ (first + 3) * Z = B ^ (first + 1) * Z) := by
  constructor
  · intro produces
    rcases produces 0 with ⟨returned, same, _⟩
    have positive : 0 < generator.batchSize := by
      by_contra zero
      unfold KrylovSequenceGenerator.generate at same
      dsimp only at same
      rw [if_pos (by omega)] at same
      cases same
    refine ⟨positive, ?_⟩
    rcases Nat.eq_zero_or_pos length with rfl | nonempty
    · refine .inl ⟨rfl, ?_⟩
      by_contra copied
      have none : (0 + generator.batchSize - 1) / generator.batchSize = 0 :=
        Nat.div_eq_of_lt (by omega)
      unfold KrylovSequenceGenerator.generate at same
      dsimp only at same
      rw [if_neg positive.ne', none, List.range_zero, List.foldlM_nil] at same
      dsimp only [pure] at same
      rw [if_pos (Bool.of_not_eq_false copied), if_pos rfl] at same
      cases same
    · have launched : (launchInstance m n).isSome := by
        by_contra missing
        rw [generate_unlaunched generator outSeq target (Bool.not_eq_true _ ▸ missing) nonempty]
          at same
        cases same
      refine .inr ⟨nonempty, launched, ?_⟩
      intro first stale
      have repeated : power B Z (first + 2) = power B Z first := by
        apply @projection_injective _ _ _ transposeOutput (launchInstance_pos launched)
        intro X
        rcases @generate_stale _ _ _ _ captures B Z length X hostCopy generator outSeq target
          launched first stale with ⟨inside, other, again, _, onDevice, onHost⟩
        rw [projection_power]
        refine (produces X).term_eq inside again onDevice fun copied => ?_
        rw [if_pos copied] at onHost
        exact onHost.2
      exact repeated
  · rintro ⟨positive, ⟨rfl, skipped⟩ | ⟨nonempty, launched, repeats⟩⟩ X
    · have none : (0 + generator.batchSize - 1) / generator.batchSize = 0 :=
        Nat.div_eq_of_lt (by omega)
      unfold KrylovSequenceGenerator.generate
      dsimp only
      rw [if_neg positive.ne', none, List.range_zero, List.foldlM_nil]
      dsimp only [pure]
      rw [skipped, if_neg Bool.false_ne_true]
      refine ⟨_, rfl, rfl, fun _ _ k below => absurd below (Nat.not_lt_zero k), ?_⟩
      rw [skipped, if_neg Bool.false_ne_true]
    · exact generate_produces generator outSeq target launched positive nonempty repeats

def oddBatchGenerator : KrylovSequenceGenerator 2 64 64 false where
  batchSize := 3
  recurrence := ⟨true, fun _ => 0, false, none, fun _ => false⟩
  vBuf := fun _ _ => 0
  sBuf := fun _ _ => 0
  sTransposedBuf := fun _ _ => 0
  hSBuf := fun _ _ => 0

def unitBlock : Block 2 64 := fun r c => if r.val = 0 ∧ c.val = 0 then 1 else 0

/-- The sixth term is computed from the fourth vector. -/
theorem not_produces_oddBatch :
    ¬Produces (oddBatchGenerator.generate ⟨true, fun _ => true⟩ !![0, 1; 1, 1] 6 unitBlock
        unitBlock (fun _ => 0) none true) 6 true none
      (krylovTerm false !![0, 1; 1, 1] unitBlock unitBlock) := by
  intro produces
  have stale : oddBatchGenerator.staleFrom ⟨true, fun _ => true⟩ 6 = some 3 := by decide
  rcases @generate_stale _ _ _ _ ⟨true, fun _ => true⟩ !![0, 1; 1, 1] unitBlock 6 unitBlock
    true oddBatchGenerator (fun _ => 0) none (by decide) _ stale with
    ⟨inside, other, same, _, onDevice, onHost⟩
  rw [Bool.true_or, if_pos rfl] at onHost
  have term := produces.term_eq inside same onDevice fun _ => onHost.2
  have entry := congrFun (congrFun term 0) 0
  revert entry
  decide +kernel

end CudaMpqs.Lingen
