import Mathlib.Algebra.Algebra.Operations
import CudaMpqs.Foundation.LastIterate
import CudaMpqs.Lingen.SolutionLaw

/-! # The span of the returned solutions

Legacy mode returns a basis of the last nonzero vectors of all candidates, batch
mode one of those whose column is alive when its stripping starts and dead at the
last check. -/

namespace CudaMpqs.Lingen

open LastIterate

variable {m n nrows : Nat}

/-! ## What an insertion adds -/

def spanOf (basis : List (BasisVector nrows)) : Submodule (ZMod 2) (Vec nrows) :=
  Submodule.span (ZMod 2) {w | w ∈ basis.map BasisVector.vec}

def spanOption (found : Option (Vec nrows)) : Submodule (ZMod 2) (Vec nrows) :=
  Submodule.span (ZMod 2) {w | found = some w}

variable {basis : List (BasisVector nrows)}

theorem spanOption_none : spanOption (none : Option (Vec nrows)) = ⊥ := by
  rw [spanOption, Submodule.span_eq_bot]
  intro w impossible
  cases impossible

theorem spanOption_some (w : Vec nrows) : spanOption (some w) = Submodule.span (ZMod 2) {w} := by
  rw [spanOption]
  congr 1
  ext other
  simp [eq_comm]

theorem spanOf_concat (basis : List (BasisVector nrows)) (b : BasisVector nrows) :
    spanOf (basis ++ [b]) = spanOf basis ⊔ Submodule.span (ZMod 2) {b.vec} := by
  rw [spanOf, spanOf, ← Submodule.span_union]
  congr 1
  ext w
  simp [or_comm]

theorem reduceBy_sub_mem (turns : Nat) (v : Vec nrows) :
    reduceBy basis turns v - v ∈ spanOf basis := by
  induction turns generalizing v with
  | zero =>
    rw [reduceBy, sub_self]
    exact Submodule.zero_mem _
  | succ turns induction =>
    rw [reduceBy]
    cases firstBit v with
    | none =>
      dsimp only
      rw [sub_self]
      exact Submodule.zero_mem _
    | some pivot =>
      dsimp only
      cases found : basis.find? fun b => b.pivot = pivot with
      | none =>
        dsimp only
        rw [sub_self]
        exact Submodule.zero_mem _
      | some b =>
        have member : b.vec ∈ spanOf basis := Submodule.subset_span
          (List.mem_map.mpr ⟨b, List.mem_of_find?_eq_some found, rfl⟩)
        have rest := Submodule.add_mem _ (induction (v + b.vec)) member
        dsimp only
        rw [show reduceBy basis turns (v + b.vec) - v =
          reduceBy basis turns (v + b.vec) - (v + b.vec) + b.vec by abel]
        exact rest

def offered (basis : List (BasisVector nrows)) (v : Vec nrows) : List (BasisVector nrows) :=
  basis ++ (insertIntoBasis basis v).toList

theorem spanOf_offered (basis : List (BasisVector nrows)) (v : Vec nrows) :
    spanOf (offered basis v) = spanOf basis ⊔ Submodule.span (ZMod 2) {v} := by
  have reduced := @reduceBy_sub_mem _ basis nrows v
  cases inserted : insertIntoBasis basis v with
  | none =>
    have zero : reduceBy basis nrows v = 0 := by
      unfold insertIntoBasis at inserted
      dsimp only at inserted
      split at inserted
      next missing => exact firstBit_none missing
      next => cases inserted
    rw [zero, zero_sub, Submodule.neg_mem_iff] at reduced
    rw [offered, inserted, Option.toList_none, List.append_nil, eq_comm, sup_eq_left,
      Submodule.span_singleton_le_iff_mem]
    exact reduced
  | some b =>
    rw [offered, inserted, Option.toList_some, spanOf_concat, (insertIntoBasis_spec inserted).1]
    generalize reduceBy basis nrows v = w at reduced
    have sum : w = w - v + v := by abel
    have difference : v = w - (w - v) := by abel
    apply le_antisymm <;> apply sup_le le_sup_left <;>
      rw [Submodule.span_singleton_le_iff_mem]
    · rw [sum]
      exact Submodule.add_mem _ (Submodule.mem_sup_left reduced)
        (Submodule.mem_sup_right (Submodule.mem_span_singleton_self v))
    · have member : w - (w - v) ∈ spanOf basis ⊔ Submodule.span (ZMod 2) {w} :=
        Submodule.sub_mem _ (Submodule.mem_sup_right (Submodule.mem_span_singleton_self w))
          (Submodule.mem_sup_left reduced)
      rwa [← difference] at member

/-! ## The last nonzero vector of a candidate -/

namespace Reconstruction

def finalVector (input : Reconstruction m n nrows) (cand : Candidate m n) : Option (Vec nrows) :=
  if input.horner cand cand.degree = 0 then none
  else input.stripValuation input.legacyLimit (input.horner cand cand.degree)

def lastCheck (input : Reconstruction m n nrows) : Nat :=
  input.checkInterval * (input.maxSteps / input.checkInterval)

def Kept (input : Reconstruction m n nrows) (batch : List (Candidate m n)) (col : Nat) : Prop :=
  input.batchColumn batch col ≠ 0 ∧ input.op^[input.lastCheck] (input.batchColumn batch col) = 0

def finalVectors (input : Reconstruction m n nrows) (cands : List (Candidate m n)) :
    Set (Vec nrows) :=
  {w | ∃ cand ∈ cands, input.finalVector cand = some w}

def keptVectors (input : Reconstruction m n nrows) (batch : List (Candidate m n)) :
    Set (Vec nrows) :=
  {w | ∃ col cand, batch[col]? = some cand ∧ input.Kept batch col ∧
    input.finalVector cand = some w}

def everReturned (input : Reconstruction m n nrows) : Set (Vec nrows) :=
  {w | ∃ calls, w ∈ input.returned calls}

def Dies (input : Reconstruction m n nrows) : Prop :=
  0 < input.strippingStepLimit ∧ ∀ cand ∈ input.candidateQueue,
    input.op^[input.strippingStepLimit] (input.horner cand cand.degree) = 0

end Reconstruction

variable {input : Reconstruction m n nrows}

private theorem stripValuation_isLast {steps : Nat} {v : Vec nrows} (alive : v ≠ 0)
    (dead : input.op^[steps] v = 0) :
    ∃ w, input.stripValuation steps v = some w ∧ IsLast input.op v w := by
  induction steps generalizing v with
  | zero => exact absurd dead alive
  | succ steps induction =>
    rw [Reconstruction.stripValuation]
    by_cases next : input.op v = 0
    · rw [if_pos next]
      exact ⟨v, rfl, 0, rfl, alive, next⟩
    · rw [if_neg next]
      rcases induction next dead with ⟨w, stripped, isLast⟩
      have afterOne : IsLast input.op (input.op^[1] v) w := isLast
      exact ⟨w, stripped, afterOne.of_iterate⟩

theorem finalVector_isLast (dies : input.Dies) {cand : Candidate m n}
    (member : cand ∈ input.candidateQueue) (alive : input.horner cand cand.degree ≠ 0) :
    ∃ w, input.finalVector cand = some w ∧ IsLast input.op (input.horner cand cand.degree) w := by
  have limit : input.legacyLimit = input.strippingStepLimit := if_pos dies.1
  rw [Reconstruction.finalVector, if_neg alive, limit]
  exact stripValuation_isLast alive (dies.2 cand member)

theorem horner_add (cand : Candidate m n) (extra : Nat) : input.horner cand (cand.degree + extra) =
      input.op^[extra] (input.horner cand cand.degree) := by
  induction extra with
  | zero => rfl
  | succ extra induction =>
    rw [Function.iterate_succ_apply', ← induction, Reconstruction.horner,
      show cand.degree + (extra + 1) + 1 = cand.degree + extra + 1 + 1 by omega,
      List.range_succ, List.foldl_append]
    change input.hornerStep cand (input.horner cand (cand.degree + extra)) _ = _
    have positive : 0 < cand.degree + extra + 1 := Nat.succ_pos _
    have beyond : ¬cand.degree + extra + 1 ≤ cand.degree := by omega
    rw [Reconstruction.hornerStep, if_neg beyond, if_pos positive]

theorem le_foldl_max (degrees : List Nat) (bound : Nat) :
    bound ≤ degrees.foldl max bound ∧ ∀ degree ∈ degrees, degree ≤ degrees.foldl max bound := by
  induction degrees generalizing bound with
  | nil => exact ⟨Nat.le_refl _, nofun⟩
  | cons head tail induction =>
    rcases induction (max bound head) with ⟨boundLe, tailLe⟩
    refine ⟨(Nat.le_max_left _ _).trans boundLe, ?_⟩
    intro degree member
    rcases List.mem_cons.mp member with rfl | member
    · exact (Nat.le_max_right _ _).trans boundLe
    · exact tailLe degree member

private theorem batchColumn_eq {batch : List (Candidate m n)} {col : Nat} {cand : Candidate m n}
    (at_ : batch[col]? = some cand) :
    input.batchColumn batch col = input.op^[Reconstruction.maxDegree batch - cand.degree]
        (input.horner cand cand.degree) := by
  have degreeLe : cand.degree ≤ Reconstruction.maxDegree batch :=
    (le_foldl_max _ _).2 _ (List.mem_map_of_mem (List.mem_of_getElem? at_))
  rw [Reconstruction.batchColumn, at_, ← horner_add, Nat.add_sub_cancel' degreeLe]

theorem finalVector_of_column (dies : input.Dies) {batch : List (Candidate m n)}
    {col : Nat} {cand : Candidate m n} (member : cand ∈ input.candidateQueue)
    (at_ : batch[col]? = some cand) {w : Vec nrows}
    (isLast : IsLast input.op (input.batchColumn batch col) w) :
    input.finalVector cand = some w := by
  rw [batchColumn_eq at_] at isLast
  have candidateLast := isLast.of_iterate
  have alive : input.horner cand cand.degree ≠ 0 := by
    intro zero
    rcases isLast with ⟨step, rfl, nonzero, _⟩
    rw [zero, Function.iterate_fixed (map_zero input.op),
      Function.iterate_fixed (map_zero input.op)]
      at nonzero
    exact nonzero rfl
  rcases finalVector_isLast dies member alive with ⟨other, final, otherLast⟩
  rw [final, candidateLast.unique (map_zero input.op) otherLast]

/-! ## What a check finds -/

variable {start : Nat → Vec nrows} {step : Nat} {state : StripState nrows}

theorem Recorded.backtrack_isLast (recorded : Recorded input start step state) {col : Nat}
    (died : input.op^[step] (start col) = 0) (positive : 0 < input.checkInterval)
    (inside : input.checkInterval ≤ step) (deep : input.checkInterval < input.historyDepth)
    (alive : input.op^[step - input.checkInterval] (start col) ≠ 0) :
    ∃ foundIdx, input.backtrackColumn state.history col state.cursor = some foundIdx ∧
      IsLast input.op (start col) (state.history foundIdx col) := by
  have atInterval : state.history ((state.cursor + input.historyDepth -
      input.checkInterval) % input.historyDepth) col ≠ 0 := by
    rwa [recorded.at_back inside deep]
  cases search : input.backtrackColumn state.history col state.cursor with
  | none =>
    rw [Reconstruction.backtrackColumn, Option.map_eq_none_iff, List.find?_eq_none]
      at search
    have blank := search input.checkInterval
      (List.mem_range'_1.mpr ⟨positive, by omega⟩)
    simp only [ne_eq, decide_not, Bool.not_eq_true', decide_eq_false_iff_not, not_not] at blank
    exact absurd blank atInterval
  | some foundIdx =>
    have kernel := recorded.backtrack_kernel died positive inside deep (.inl alive) search
    refine ⟨foundIdx, rfl, ?_⟩
    rcases Option.map_eq_some_iff.mp search with ⟨back, first, rfl⟩
    rcases List.find?_range'_eq_some.mp first with ⟨nonzero, member, clear⟩
    rw [List.mem_range'_1] at member
    have reached : back ≤ input.checkInterval := by
      by_contra beyond
      have blank := clear input.checkInterval positive (not_le.mp beyond)
      simp only [ne_eq, decide_not, Bool.not_not, decide_eq_true_eq] at blank
      exact atInterval blank
    have entry := recorded.at_back (reached.trans inside) (by omega) col
    exact ⟨step - back, entry.symm, of_decide_eq_true nonzero, kernel⟩

theorem Recorded.backtrack_none (recorded : Recorded input start step state) {col : Nat}
    (blank : start col = 0) (short : input.historyDepth = step + 1) :
    input.backtrackColumn state.history col state.cursor = none := by
  rw [Reconstruction.backtrackColumn, Option.map_eq_none_iff, List.find?_eq_none]
  intro back member
  rw [List.mem_range'_1] at member
  have zero : state.history ((state.cursor + input.historyDepth - back) %
      input.historyDepth) col = 0 := by
    rw [recorded.at_back (by omega) (by omega), blank]
    exact Function.iterate_fixed (map_zero input.op) _
  simpa using zero

/-! ## Stripping a batch -/

variable {batch : List (Candidate m n)} {base : Submodule (ZMod 2) (Vec nrows)} {col : Nat}

/-- The echelon spans what it spanned before the batch and the last nonzero vectors
of the kept columns that are through. -/
structure Harvest (input : Reconstruction m n nrows) (batch : List (Candidate m n))
    (base : Submodule (ZMod 2) (Vec nrows)) (state : StripState nrows) : Prop where
  above : base ≤ spanOf state.basis
  below : spanOf state.basis ≤ base ⊔ Submodule.span (ZMod 2) (input.keptVectors batch)
  through : ∀ col cand, batch[col]? = some cand → input.Kept batch col →
    state.isActive col = false → ∀ w, input.finalVector cand = some w → w ∈ spanOf state.basis

/-- What a check of one column may do: nothing to a column that is not kept, and
offer the last nonzero vector of a kept one. -/
def FindsFinal (input : Reconstruction m n nrows) (batch : List (Candidate m n))
    (state : StripState nrows) (col : Nat) : Prop :=
  ¬ input.Kept batch col ∧ input.backtrackColumn state.history col state.cursor = none ∨
    ∃ foundIdx cand, input.backtrackColumn state.history col state.cursor = some foundIdx ∧
      batch[col]? = some cand ∧ input.Kept batch col ∧
      input.finalVector cand = some (state.history foundIdx col)

theorem checkColumn_frame (state : StripState nrows) (col : Nat) :
    (input.checkColumn state col).W = state.W ∧
      (input.checkColumn state col).history = state.history ∧
      (input.checkColumn state col).cursor = state.cursor ∧
      ∀ other, (input.checkColumn state col).isActive other = true →
        state.isActive other = true := by
  have fewer : ∀ other, Function.update state.isActive col false other = true →
      state.isActive other = true := by
    intro other active
    by_cases same : other = col
    · rw [same, Function.update_self] at active
      cases active
    · rwa [Function.update_of_ne same] at active
  unfold Reconstruction.checkColumn
  split
  next died =>
      dsimp only
      split
      next => exact ⟨rfl, rfl, rfl, fewer⟩
      next => split <;> exact ⟨rfl, rfl, rfl, fewer⟩
  next => exact ⟨rfl, rfl, rfl, fun _ => id⟩

private theorem checkColumn_died {state : StripState nrows} (active : state.isActive col = true)
    (died : state.W col = 0) :
    (input.checkColumn state col).isActive = Function.update state.isActive col false ∧
      (input.checkColumn state col).basis =
        match input.backtrackColumn state.history col state.cursor with
        | none => state.basis
        | some foundIdx => offered state.basis (state.history foundIdx col) := by
  rw [Reconstruction.checkColumn, if_pos ⟨active, died⟩]
  dsimp only
  cases input.backtrackColumn state.history col state.cursor with
  | none => exact ⟨rfl, rfl⟩
  | some foundIdx =>
    dsimp only
    rw [offered]
    cases insertIntoBasis state.basis (state.history foundIdx col) with
    | none => exact ⟨rfl, (List.append_nil _).symm⟩
    | some b => exact ⟨rfl, rfl⟩

theorem Harvest.column (harvest : Harvest input batch base state) (col : Nat)
    (finds : state.isActive col = true → state.W col = 0 → FindsFinal input batch state col) :
    Harvest input batch base (input.checkColumn state col) := by
  by_cases dead : state.isActive col = true ∧ state.W col = 0
  · rcases checkColumn_died dead.1 dead.2 with ⟨active, basis⟩
    have unchanged : ∀ other, other ≠ col → (input.checkColumn state col).isActive other = false →
        state.isActive other = false := by
      intro other different inactive
      rwa [active, Function.update_of_ne different] at inactive
    rcases finds dead.1 dead.2 with ⟨lost, missing⟩ | ⟨foundIdx, cand, found, at_, kept, final⟩
    · rw [missing] at basis
      constructor
      · rw [basis]
        exact harvest.above
      · rw [basis]
        exact harvest.below
      · intro other candidate otherAt otherKept inactive w otherFinal
        rw [basis]
        have different : other ≠ col := by
          rintro rfl
          exact lost otherKept
        exact harvest.through other candidate otherAt otherKept
          (unchanged other different inactive) w otherFinal
    · rw [found] at basis
      dsimp only at basis
      have spans := spanOf_offered state.basis (state.history foundIdx col)
      rw [← basis] at spans
      have more : spanOf state.basis ≤ spanOf (input.checkColumn state col).basis := by
        rw [spans]
        exact le_sup_left
      constructor
      · exact harvest.above.trans more
      · rw [spans]
        apply sup_le harvest.below
        rw [Submodule.span_singleton_le_iff_mem]
        exact Submodule.mem_sup_right
          (Submodule.subset_span ⟨col, cand, at_, kept, final⟩)
      · intro other candidate otherAt otherKept inactive w otherFinal
        by_cases same : other = col
        · rw [same, at_, Option.some.injEq] at otherAt
          rw [← otherAt, final, Option.some.injEq] at otherFinal
          rw [spans, ← otherFinal]
          exact Submodule.mem_sup_right (Submodule.mem_span_singleton_self _)
        · exact more (harvest.through other candidate otherAt otherKept
            (unchanged other same inactive) w otherFinal)
  · have same : input.checkColumn state col = state := by
      rw [Reconstruction.checkColumn, if_neg dead]
    rw [same]
    exact harvest

theorem Harvest.columns {before : StripState nrows} {columns : List Nat}
    (harvest : Harvest input batch base state) (block : state.W = before.W)
    (history : state.history = before.history) (cursor : state.cursor = before.cursor)
    (active : ∀ col, state.isActive col = true → before.isActive col = true)
    (finds : ∀ col, before.isActive col = true → before.W col = 0 →
      FindsFinal input batch before col) :
    Harvest input batch base (columns.foldl input.checkColumn state) := by
  induction columns generalizing state with
  | nil => exact harvest
  | cons col columns induction =>
    have frame := @checkColumn_frame _ _ _ input state col
    apply induction _ (frame.1.trans block) (frame.2.1.trans history)
      (frame.2.2.1.trans cursor) (fun other still => active other (frame.2.2.2 other still))
    apply harvest.column
    intro stillActive died
    rw [block] at died
    have found := finds col (active col stillActive) died
    rw [FindsFinal, ← history, ← cursor] at found
    exact found

variable {taken : List (Vec nrows)}

/-- A check finds the last nonzero vector of every kept column that died. -/
theorem Stripped.findsFinal
    (stripped : Stripped input taken (input.batchColumn batch) batch.length step state)
    (deep : input.checkInterval < input.historyDepth) (within : step < input.maxSteps)
    (reached : input.checkInterval ∣ step + 1) (dies : input.Dies)
    (members : ∀ cand ∈ batch, cand ∈ input.candidateQueue) (col : Nat)
    (active : (input.advance state).isActive col = true)
    (died : (input.advance state).W col = 0) :
    FindsFinal input batch (input.advance state) col := by
  have recorded := stripped.recorded.advance (by omega)
  have positive := Nat.pos_of_dvd_of_pos reached (Nat.succ_pos step)
  have inside := Nat.le_of_dvd (Nat.succ_pos step) reached
  have lastCheck : input.checkInterval * (step / input.checkInterval) =
      step + 1 - input.checkInterval := by
    have exact_ := Nat.mul_div_cancel' reached
    rw [Nat.succ_div_of_dvd reached, Nat.mul_add_one] at exact_
    omega
  have bounded := stripped.bounded col active
  rw [recorded.current] at died
  have aliveCase : input.op^[step + 1 - input.checkInterval]
      (input.batchColumn batch col) ≠ 0 → FindsFinal input batch (input.advance state) col := by
    intro alive
    rcases recorded.backtrack_isLast died positive inside deep alive with
      ⟨foundIdx, found, isLast⟩
    have at_ : batch[col]? = some batch[col] := List.getElem?_eq_getElem bounded
    have nonzero : input.batchColumn batch col ≠ 0 := by
      intro zero
      rw [zero] at alive
      exact alive (Function.iterate_fixed (map_zero input.op) _)
    have checked : step + 1 ≤ input.lastCheck := by
      rcases reached with ⟨turns, same⟩
      rw [same, Reconstruction.lastCheck]
      apply Nat.mul_le_mul_left
      rw [Nat.le_div_iff_mul_le positive, Nat.mul_comm, ← same]
      exact within
    refine .inr ⟨foundIdx, batch[col], found, at_,
      ⟨nonzero, iterate_zero_of_le (map_zero input.op) checked died⟩, ?_⟩
    exact finalVector_of_column dies (members _ (List.getElem_mem bounded)) at_ isLast
  rcases stripped.alive col active with alive | ⟨excused, early⟩
  · rw [lastCheck] at alive
    exact aliveCase alive
  · have first : step + 1 = input.checkInterval := by omega
    by_cases blank : input.batchColumn batch col = 0
    · have short : input.historyDepth = step + 1 + 1 := by
        rcases excused with short | never <;> omega
      exact .inl ⟨fun kept => kept.1 blank, recorded.backtrack_none blank short⟩
    · apply aliveCase
      rw [first, Nat.sub_self]
      exact blank

theorem Stripped.kept_inactive
    (stripped : Stripped input taken (input.batchColumn batch) batch.length
      input.maxSteps state) (kept : input.Kept batch col) :
    state.isActive col = false := by
  by_contra active
  rw [Bool.not_eq_false] at active
  rcases stripped.alive col active with alive | ⟨_, early⟩
  · exact alive kept.2
  · have none : input.lastCheck = 0 := by
      rw [Reconstruction.lastCheck]
      rcases early with below | zero
      · rw [Nat.div_eq_of_lt below, Nat.mul_zero]
      · rw [zero, Nat.zero_mul]
    have dead := kept.2
    rw [none] at dead
    exact kept.1 dead

theorem Harvest.loop {left : Nat} (harvest : Harvest input batch base state)
    (stripped : Stripped input taken (input.batchColumn batch) batch.length step state)
    (deep : input.checkInterval < input.historyDepth) (dies : input.Dies)
    (members : ∀ cand ∈ batch, cand ∈ input.candidateQueue)
    (within : step + left = input.maxSteps) :
    spanOf (input.stripLoop batch.length left (step + 1) state).basis =
      base ⊔ Submodule.span (ZMod 2) (input.keptVectors batch) := by
  have complete : ∀ final : StripState nrows, Harvest input batch base final →
      (∀ col, input.Kept batch col → col < batch.length → final.isActive col = false) →
      spanOf final.basis = base ⊔ Submodule.span (ZMod 2) (input.keptVectors batch) := by
    intro final harvested inactive
    apply le_antisymm harvested.below
    apply sup_le harvested.above
    rw [Submodule.span_le]
    rintro w ⟨col, cand, at_, kept, isFinal⟩
    exact harvested.through col cand at_ kept
      (inactive col kept (List.getElem?_eq_some_iff.mp at_).1) w isFinal
  induction left generalizing step state with
  | zero =>
    rw [Nat.add_zero] at within
    rw [within] at stripped
    exact complete state harvest fun col kept _ => stripped.kept_inactive kept
  | succ left induction =>
    rw [Reconstruction.stripLoop]
    dsimp only
    have advanced : Harvest input batch base (input.advance state) :=
      ⟨harvest.above, harvest.below, harvest.through⟩
    have rest : step + 1 + left = input.maxSteps := by omega
    by_cases reached : (step + 1) % input.checkInterval = 0
    · rw [if_pos reached]
      have divides := Nat.dvd_of_mod_eq_zero reached
      have checked : Harvest input batch base
          ((List.range batch.length).reverse.foldl input.checkColumn
            (input.advance state)) :=
        advanced.columns rfl rfl rfl (fun _ => id)
          (stripped.findsFinal deep (by omega) divides dies members)
      split
      next active =>
          exact induction checked (stripped.check deep (by omega) divides) rest
      next none =>
          apply complete _ checked
          intro col _ bounded
          by_contra active
          rw [Bool.not_eq_false] at active
          exact none (List.any_eq_true.mpr ⟨col, List.mem_range.mpr bounded, active⟩)
    · rw [if_neg reached]
      exact induction advanced (stripped.unchecked (by omega) fun multiple =>
        reached (Nat.mod_eq_zero_of_dvd multiple)) rest

theorem spanOf_runBatchStripping {search : SearchState m n nrows}
    (collected : Collected input.op taken search.basis search.solutionBuffer)
    (deep : input.checkInterval < input.historyDepth) (dies : input.Dies)
    (safe : BatchSafe input batch)
    (members : ∀ cand ∈ batch, cand ∈ input.candidateQueue) :
    spanOf (input.runBatchStripping batch search).basis =
      spanOf search.basis ⊔ Submodule.span (ZMod 2) (input.keptVectors batch) := by
  have initial : Harvest input batch (spanOf search.basis) (input.stripStart batch search) := by
    refine ⟨le_refl _, le_sup_left, ?_⟩
    intro col cand at_ kept inactive
    have bounded : col < batch.length := (List.getElem?_eq_some_iff.mp at_).1
    exact absurd bounded (of_decide_eq_false inactive)
  exact initial.loop (Stripped.initial collected safe) deep dies members (Nat.zero_add _)

/-! ## Searching -/

namespace Reconstruction

def pendingVectors (input : Reconstruction m n nrows)
    (batches : List (List (Candidate m n))) : Set (Vec nrows) :=
  {w | ∃ batch ∈ batches, w ∈ input.keptVectors batch}

end Reconstruction

theorem span_pendingVectors_cons (batch : List (Candidate m n))
    (batches : List (List (Candidate m n))) :
    Submodule.span (ZMod 2) (input.pendingVectors (batch :: batches)) =
      Submodule.span (ZMod 2) (input.keptVectors batch) ⊔
        Submodule.span (ZMod 2) (input.pendingVectors batches) := by
  rw [← Submodule.span_union]
  congr 1
  ext w
  simp [Reconstruction.pendingVectors]

theorem span_finalVectors_cons (cand : Candidate m n) (cands : List (Candidate m n)) :
    Submodule.span (ZMod 2) (input.finalVectors (cand :: cands)) =
      spanOption (input.finalVector cand) ⊔ Submodule.span (ZMod 2) (input.finalVectors cands) := by
  rw [spanOption, ← Submodule.span_union]
  congr 1
  ext w
  simp [Reconstruction.finalVectors]

theorem span_pendingVectors_nil : Submodule.span (ZMod 2) (input.pendingVectors []) = ⊥ := by
  rw [Submodule.span_eq_bot]
  rintro w ⟨batch, impossible, _⟩
  cases impossible

theorem span_finalVectors_nil : Submodule.span (ZMod 2) (input.finalVectors []) = ⊥ := by
  rw [Submodule.span_eq_bot]
  rintro w ⟨cand, impossible, _⟩
  cases impossible

theorem searchBatches_spec {search : SearchState m n nrows}
    (collected : Collected input.op taken search.basis search.solutionBuffer)
    (deep : input.checkInterval < input.historyDepth) (dies : input.Dies)
    {batches : List (List (Candidate m n))} (safe : ∀ batch ∈ batches, BatchSafe input batch)
    (members : ∀ batch ∈ batches, ∀ cand ∈ batch, cand ∈ input.candidateQueue) :
    let after := (input.searchBatches search batches).1
    spanOf after.basis ⊔ Submodule.span (ZMod 2) (input.pendingVectors after.batches) =
        spanOf search.basis ⊔ Submodule.span (ZMod 2) (input.pendingVectors batches) ∧
      after.batches ⊆ batches ∧ (batches ≠ [] → after.batches.length < batches.length) := by
  induction batches generalizing search with
  | nil => exact ⟨rfl, List.Subset.refl _, fun nonempty => absurd rfl nonempty⟩
  | cons batch batches induction =>
    have next := collected.runBatchStripping deep (safe batch List.mem_cons_self)
    have spans := spanOf_runBatchStripping collected deep dies
      (safe batch List.mem_cons_self) (members batch List.mem_cons_self)
    have rest := induction next (fun other member => safe other (List.mem_cons_of_mem _ member))
      (fun other member => members other (List.mem_cons_of_mem _ member))
    rw [Reconstruction.searchBatches, span_pendingVectors_cons, ← sup_assoc, ← spans]
    cases drained : (input.runBatchStripping batch search).solutionBuffer with
    | nil =>
      refine ⟨rest.1, List.subset_cons_of_subset _ rest.2.1, fun _ => ?_⟩
      rw [List.length_cons]
      by_cases empty : batches = []
      · subst empty
        have none := List.subset_nil.mp rest.2.1
        dsimp only
        rw [none]
        exact Nat.succ_pos _
      · exact (rest.2.2 empty).trans (Nat.lt_succ_self _)
    | cons w buffer =>
      exact ⟨rfl, List.subset_cons_self _ _, fun _ => Nat.lt_succ_self _⟩

theorem processCandidate_eq (basis : List (BasisVector nrows)) (cand : Candidate m n) :
    input.processCandidate basis cand = (input.finalVector cand).bind (insertIntoBasis basis) := by
  rw [Reconstruction.processCandidate, Reconstruction.finalVector]
  split
  next => rfl
  next => rfl

private theorem spanOf_processCandidate (basis : List (BasisVector nrows)) (cand : Candidate m n) :
    spanOf (basis ++ (input.processCandidate basis cand).toList) =
      spanOf basis ⊔ spanOption (input.finalVector cand) := by
  rw [processCandidate_eq]
  cases input.finalVector cand with
  | none => rw [Option.bind_none, Option.toList_none, List.append_nil, spanOption_none, sup_bot_eq]
  | some w =>
    rw [Option.bind_some, spanOption_some]
    exact spanOf_offered basis w

theorem searchCandidates_spec (search : SearchState m n nrows) (cands : List (Candidate m n)) :
    let after := (input.searchCandidates search cands).1
    spanOf after.basis ⊔ Submodule.span (ZMod 2) (input.finalVectors after.candidates) =
        spanOf search.basis ⊔ Submodule.span (ZMod 2) (input.finalVectors cands) ∧
      (cands ≠ [] → after.candidates.length < cands.length) := by
  induction cands with
  | nil => exact ⟨rfl, fun nonempty => absurd rfl nonempty⟩
  | cons cand cands induction =>
    have spans := @spanOf_processCandidate _ _ _ input search.basis cand
    rw [Reconstruction.searchCandidates, span_finalVectors_cons, ← sup_assoc, ← spans]
    cases found : input.processCandidate search.basis cand with
    | some b => exact ⟨rfl, fun _ => Nat.lt_succ_self _⟩
    | none =>
      rw [Option.toList_none, List.append_nil]
      refine ⟨induction.1, fun _ => ?_⟩
      rw [List.length_cons]
      by_cases empty : cands = []
      · subst empty
        exact Nat.succ_pos _
      · exact (induction.2 empty).trans (Nat.lt_succ_self _)

/-! ## Whole searches -/

/-- A search that stays within a span and is through only when it has returned all of
it. -/
theorem span_everReturned {total : Submodule (ZMod 2) (Vec nrows)}
    {Good : SearchState m n nrows → List (Vec nrows) → Prop} (start : Good input.init [])
    (preserves : ∀ search taken, Good search taken →
      Good (input.findNext search).1 (taken ++ (input.findNext search).2.toList))
    (aligned : ∀ search taken, Good search taken →
      taken ++ search.solutionBuffer = search.basis.map BasisVector.vec)
    (below : ∀ search taken, Good search taken → spanOf search.basis ≤ total)
    {Measure : Type} [Preorder Measure] [WellFoundedLT Measure]
    (measure : SearchState m n nrows → Measure)
    (decreases : ∀ search taken, Good search taken →
      ¬(total ≤ spanOf search.basis ∧ search.solutionBuffer = []) →
      measure (input.findNext search).1 < measure search) :
    Submodule.span (ZMod 2) input.everReturned = total := by
  have good : ∀ calls, Good
      (Transition.emitRun (fun search (_ : Unit) => input.findNext search) input.init
        (List.replicate calls ())).1 (input.returned calls) := by
    intro calls
    have searched := @Transition.emitRun_invariant _ Unit _
      (fun search _ => input.findNext search) (fun _ _ => True) Good
      (fun search log _ _ holds => preserves search log holds) _ _ start
      (List.replicate calls ()) (Transition.guarded_of_forall fun _ _ => trivial)
    rw [List.nil_append] at searched
    exact searched
  apply le_antisymm
  · rw [Submodule.span_le]
    rintro w ⟨calls, member⟩
    apply below _ _ (good calls)
    apply Submodule.subset_span
    change w ∈ List.map _ _
    rw [← aligned _ _ (good calls)]
    exact List.mem_append_left _ member
  · rcases @Transition.exists_replicate_reaches _ Unit
      (fun search _ => (input.findNext search).1) ()
      (fun search => ∃ taken, Good search taken)
      (fun search => total ≤ spanOf search.basis ∧ search.solutionBuffer = [])
      _ _ _ measure
      (fun search holds => holds.elim fun taken good => ⟨_, preserves search taken good⟩)
      (fun search holds => holds.elim fun taken good => decreases search taken good)
      input.init ⟨_, start⟩ with ⟨calls, whole, drained⟩
    rw [← Transition.emitRun_fst] at whole drained
    have all := aligned _ _ (good calls)
    rw [drained, List.append_nil] at all
    refine whole.trans (Submodule.span_mono ?_)
    intro w member
    change w ∈ List.map _ _ at member
    rw [← all] at member
    exact ⟨calls, member⟩

theorem spanOf_init : spanOf input.init.basis = ⊥ := by
  rw [spanOf, Submodule.span_eq_bot]
  intro w impossible
  cases impossible

theorem span_everReturned_legacy (legacy : input.batchMode = false) :
    Submodule.span (ZMod 2) input.everReturned =
      Submodule.span (ZMod 2) (input.finalVectors input.candidateQueue) := by
  have findNext : ∀ search, input.findNext search =
      input.searchCandidates search search.candidates := by
    intro search
    rw [Reconstruction.findNext, legacy, if_neg Bool.false_ne_true]
  have alive : ColumnsAlive input := fun batchMode => nomatch legacy.symm.trans batchMode
  refine @span_everReturned _ _ _ input _
    (fun search taken => Searched input search taken ∧
      spanOf search.basis ⊔ Submodule.span (ZMod 2) (input.finalVectors search.candidates) =
        Submodule.span (ZMod 2) (input.finalVectors input.candidateQueue)) ?_ ?_ ?_ ?_
    Nat _ _ (fun search => search.candidates.length) ?_
  · refine ⟨Searched.initial alive, ?_⟩
    rw [spanOf_init, bot_sup_eq]
    rfl
  · intro search taken ⟨searched, spans⟩
    rw [findNext]
    exact ⟨searched.searchCandidates legacy _,
      (searchCandidates_spec search search.candidates).1.trans spans⟩
  · exact fun search taken good => good.1.collected.aligned
  · intro search taken good
    rw [← good.2]
    exact le_sup_left
  · intro search taken good pending
    rw [findNext]
    apply (searchCandidates_spec search search.candidates).2
    intro empty
    apply pending
    refine ⟨?_, good.1.legacy legacy⟩
    rw [← good.2, empty, span_finalVectors_nil, sup_bot_eq]

theorem flatten_buildBatches (nBlock : Nat) (current cands : List (Candidate m n)) :
    (buildBatches nBlock current cands).flatten = current ++ cands := by
  induction cands generalizing current with
  | nil =>
    rw [buildBatches]
    split
    next empty => rw [List.length_eq_zero_iff.mp empty]; rfl
    next => rw [List.flatten_cons, List.flatten_nil]
  | cons cand rest induction =>
    rw [buildBatches]
    split
    · rw [List.flatten_cons, induction, List.nil_append, List.append_assoc]
      rfl
    · rw [induction, List.append_assoc]
      rfl

def Reconstruction.allBatches (input : Reconstruction m n nrows) : List (List (Candidate m n)) :=
  buildBatches n [] input.candidateQueue

/-- Batch mode returns a basis of the last nonzero vectors that its batches keep. -/
theorem span_everReturned_batch (batchMode : input.batchMode = true)
    (deep : input.checkInterval < input.historyDepth) (dies : input.Dies)
    (alive : ColumnsAlive input) :
    Submodule.span (ZMod 2) input.everReturned =
      Submodule.span (ZMod 2) (input.pendingVectors input.allBatches) := by
  have findNext : ∀ search, input.findNext search = input.findNextBatch search := by
    intro search
    rw [Reconstruction.findNext, batchMode, if_pos rfl]
  have initial : input.init.batches = input.allBatches := by
    rw [Reconstruction.init, batchMode, if_pos rfl]
    rfl
  have members : ∀ batch ∈ input.allBatches, ∀ cand ∈ batch,
      cand ∈ input.candidateQueue := by
    intro batch inside cand member
    have flat := List.mem_flatten.mpr ⟨batch, inside, member⟩
    rwa [Reconstruction.allBatches, flatten_buildBatches, List.nil_append] at flat
  refine @span_everReturned _ _ _ input _
    (fun search taken => Searched input search taken ∧ search.batches ⊆ input.allBatches ∧
      spanOf search.basis ⊔ Submodule.span (ZMod 2) (input.pendingVectors search.batches) =
        Submodule.span (ZMod 2) (input.pendingVectors input.allBatches)) ?_ ?_ ?_ ?_
    (Nat ×ₗ Nat) _ _
    (fun search => toLex (search.batches.length, search.solutionBuffer.length)) ?_
  · refine ⟨Searched.initial alive, initial ▸ List.Subset.refl _, ?_⟩
    rw [spanOf_init, bot_sup_eq, initial]
  · intro search taken ⟨searched, subset, spans⟩
    refine ⟨searched.findNext deep, ?_⟩
    rw [findNext, Reconstruction.findNextBatch]
    cases drained : search.solutionBuffer with
    | cons w buffer => exact ⟨subset, spans⟩
    | nil =>
      have spec := searchBatches_spec searched.collected deep dies searched.safe
        fun batch inside => members batch (subset inside)
      exact ⟨List.Subset.trans spec.2.1 subset, spec.1.trans spans⟩
  · exact fun search taken good => good.1.collected.aligned
  · intro search taken good
    rw [← good.2.2]
    exact le_sup_left
  · intro search taken ⟨searched, subset, spans⟩ pending
    rw [findNext, Reconstruction.findNextBatch, Prod.Lex.lt_iff]
    cases drained : search.solutionBuffer with
    | cons w buffer => exact .inr ⟨rfl, Nat.lt_succ_self _⟩
    | nil =>
      have spec := searchBatches_spec searched.collected deep dies searched.safe
        fun batch inside => members batch (subset inside)
      apply Or.inl
      apply spec.2.2
      intro empty
      apply pending
      refine ⟨?_, drained⟩
      rw [← spans, empty, span_pendingVectors_nil, sup_bot_eq]

/-! ## The modes side by side -/

private theorem stripValuation_batchMode (mode : Bool) (steps : Nat) (v : Vec nrows) :
    { input with batchMode := mode }.stripValuation steps v = input.stripValuation steps v := by
  induction steps generalizing v with
  | zero => rfl
  | succ steps induction =>
    rw [Reconstruction.stripValuation, Reconstruction.stripValuation, induction]

theorem finalVector_batchMode (mode : Bool) (cand : Candidate m n) :
    { input with batchMode := mode }.finalVector cand = input.finalVector cand := by
  unfold Reconstruction.finalVector
  rw [stripValuation_batchMode]
  rfl

theorem finalVectors_batchMode (mode : Bool) (cands : List (Candidate m n)) :
    { input with batchMode := mode }.finalVectors cands = input.finalVectors cands := by
  unfold Reconstruction.finalVectors
  simp only [finalVector_batchMode]

theorem pendingVectors_batchMode (mode : Bool) (batches : List (List (Candidate m n))) :
    { input with batchMode := mode }.pendingVectors batches = input.pendingVectors batches := by
  unfold Reconstruction.pendingVectors Reconstruction.keptVectors
  simp only [finalVector_batchMode]
  rfl

/-- A candidate that batch mode loses is one that legacy mode offers and whose column
is dead too early or too late. -/
def Reconstruction.Recovers (input : Reconstruction m n nrows) : Prop :=
  ∀ batch ∈ input.allBatches, ∀ col cand, batch[col]? = some cand →
    ¬ input.Kept batch col → ∀ w, input.finalVector cand = some w →
      w ∈ Submodule.span (ZMod 2) (input.pendingVectors input.allBatches)

/-- With the same limit and a history that reaches to the last check, the two modes
span the same exactly when the columns that batch mode does not keep add nothing to
those that it keeps. -/
theorem span_everReturned_iff (input : Reconstruction m n nrows)
    (deep : input.checkInterval < input.historyDepth) (dies : input.Dies)
    (alive : ColumnsAlive { input with batchMode := true }) :
    Submodule.span (ZMod 2) ({ input with batchMode := true }).everReturned =
        Submodule.span (ZMod 2) ({ input with batchMode := false }).everReturned ↔
      input.Recovers := by
  have batch := @span_everReturned_batch _ _ _ { input with batchMode := true } rfl deep
    dies alive
  have legacy := @span_everReturned_legacy _ _ _ { input with batchMode := false } rfl
  rw [batch, legacy, pendingVectors_batchMode, finalVectors_batchMode]
  change Submodule.span (ZMod 2) (input.pendingVectors input.allBatches) =
    Submodule.span (ZMod 2) (input.finalVectors input.candidateQueue) ↔ _
  have queue : ∀ cand, cand ∈ input.candidateQueue ↔
      ∃ batch ∈ input.allBatches, ∃ col : Nat, batch[col]? = some cand := by
    intro cand
    have flat : input.allBatches.flatten = input.candidateQueue := by
      rw [Reconstruction.allBatches, flatten_buildBatches, List.nil_append]
    rw [← flat, List.mem_flatten]
    exact exists_congr fun batch => and_congr_right fun _ => List.mem_iff_getElem?
  constructor
  · intro same batch inside col cand at_ _ w final
    rw [same]
    exact Submodule.subset_span ⟨cand, (queue cand).mpr ⟨batch, inside, col, at_⟩, final⟩
  · intro recovers
    apply le_antisymm
    · apply Submodule.span_mono
      rintro w ⟨batch, inside, col, cand, at_, _, final⟩
      exact ⟨cand, (queue cand).mpr ⟨batch, inside, col, at_⟩, final⟩
    · rw [Submodule.span_le]
      rintro w ⟨cand, member, final⟩
      rcases (queue cand).mp member with ⟨batch, inside, col, at_⟩
      by_cases kept : input.Kept batch col
      · exact Submodule.subset_span ⟨batch, inside, col, cand, at_, kept, final⟩
      · exact recovers batch inside col cand at_ kept w final

theorem span_everReturned_nilpotent :
    Submodule.span (ZMod 2) ({ nilpotentInput with batchMode := true }).everReturned =
      Submodule.span (ZMod 2) ({ nilpotentInput with batchMode := false }).everReturned := by
  refine (span_everReturned_iff nilpotentInput (by decide)
    ⟨by decide, by decide +kernel⟩ (fun _ => Or.inr (by decide +kernel))).mpr ?_
  have kept : ∀ batch ∈ nilpotentInput.allBatches, ∀ col < batch.length,
      nilpotentInput.batchColumn batch col ≠ 0 ∧ nilpotentInput.op^[nilpotentInput.lastCheck]
          (nilpotentInput.batchColumn batch col) = 0 := by
    decide +kernel
  intro batch inside col cand at_ lost
  exact absurd (kept batch inside col (List.getElem?_eq_some_iff.mp at_).1) lost

def mixedDegreeInput : Reconstruction 64 64 2 where
  op := 0
  Z := fun r l => if r.val = l.val then 1 else 0
  hPi := [fun r c => if r.val = 0 ∧ c.val = 0 then 1 else 0,
    fun r c => if r.val = 1 ∧ c.val = 1 then 1 else 0]
  batchMode := true
  historyDepth := 2
  checkInterval := 1
  strippingStepLimit := 2
  uninitialized := fun _ _ => 0

/-- The vector of the candidate of lower degree is lost. -/
theorem not_span_mixedDegree :
    mixedDegreeInput.checkInterval < mixedDegreeInput.historyDepth ∧ mixedDegreeInput.Dies ∧
      Submodule.span (ZMod 2) ({ mixedDegreeInput with batchMode := true }).everReturned ≠
        Submodule.span (ZMod 2)
          ({ mixedDegreeInput with batchMode := false }).everReturned := by
  have dies : mixedDegreeInput.Dies := ⟨by decide, by decide +kernel⟩
  refine ⟨by decide, dies, ?_⟩
  intro same
  have batch := @span_everReturned_batch _ _ _ { mixedDegreeInput with batchMode := true } rfl
    (by decide) dies (fun _ => Or.inl (Or.inl rfl))
  have blank : ∀ batch ∈ mixedDegreeInput.allBatches, ∀ col < batch.length,
      mixedDegreeInput.batchColumn batch col = 0 ∨
        ∀ cand ∈ batch[col]?, ∀ w ∈ mixedDegreeInput.finalVector cand, w 0 = 0 := by
    decide +kernel
  have below : Submodule.span (ZMod 2) ({ mixedDegreeInput with batchMode := true }).everReturned ≤
      LinearMap.ker (LinearMap.proj 0 : Vec 2 →ₗ[ZMod 2] ZMod 2) := by
    rw [batch, pendingVectors_batchMode, Submodule.span_le]
    rintro w ⟨candidates, inside, col, cand, at_, kept, final⟩
    rw [finalVector_batchMode] at final
    rcases blank candidates inside col (List.getElem?_eq_some_iff.mp at_).1 with zero | clear
    · exact absurd zero kept.1
    · exact clear cand at_ w final
  rw [same] at below
  have bits : (({ mixedDegreeInput with batchMode := false }).returned 1).map
      (fun w : Vec 2 => w 0) = [1] := by
    decide +kernel
  rcases List.map_eq_singleton_iff.mp bits with ⟨w, single, bit⟩
  have member : w ∈ ({ mixedDegreeInput with batchMode := false }).everReturned :=
    ⟨1, by simp [single]⟩
  have zero : w 0 = 0 := below (Submodule.subset_span member)
  rw [bit] at zero
  exact absurd zero (by decide)

end CudaMpqs.Lingen
