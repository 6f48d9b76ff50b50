import CudaMpqs.Lingen.SolutionReconstructor

/-! # What the reconstruction returns

The echelon of solutions only takes kernel vectors with fresh pivots. A column
that is alive when stripping starts dies within the history of its own batch. -/

namespace CudaMpqs.Lingen

open LeadingPosition

variable {m n nrows : Nat}

/-! ## Insertion into the echelon -/

structure Echelon (op : Vec nrows →+ Vec nrows) (basis : List (BasisVector nrows)) :
    Prop where
  kernel : ∀ b ∈ basis, op b.vec = 0
  distinct : (basis.map BasisVector.pivot).Nodup

variable {op : Vec nrows →+ Vec nrows} {basis : List (BasisVector nrows)}
variable {v : Vec nrows}

theorem firstBit_none (missing : firstBit v = none) : v = 0 := by
  funext r
  have notOne : v r ≠ 1 := by
    simpa using List.find?_eq_none.mp missing r (List.mem_finRange r)
  revert notOne
  change v r ≠ 1 → v r = 0
  generalize v r = bit
  revert bit
  decide

theorem leads_add_cancels {v w : Vec nrows} {pivot later : Fin nrows} (left : Leads v pivot)
    (right : Leads w pivot) (sum : Leads (v + w) later) : pivot < later := by
  by_contra notLater
  apply sum.entry
  rcases lt_or_eq_of_le (not_lt.mp notLater) with below | rfl
  · rw [Pi.add_apply, left.before later below, right.before later below, add_zero]
  · have leftBit := left.entry
    have rightBit := right.entry
    rw [Pi.add_apply]
    revert leftBit rightBit
    generalize v later = x
    generalize w later = y
    revert x y
    decide

theorem reduceBy_kernel (kernel : ∀ b ∈ basis, op b.vec = 0) (turns : Nat) (zero : op v = 0) :
    op (reduceBy basis turns v) = 0 := by
  induction turns generalizing v with
  | zero => exact zero
  | succ turns induction =>
    rw [reduceBy]
    cases firstBit v with
    | none => exact zero
    | some pivot =>
      dsimp only
      cases found : basis.find? fun b => b.pivot = pivot with
      | none => exact zero
      | some b =>
        apply induction
        rw [map_add, zero, kernel b (List.mem_of_find?_eq_some found), add_zero]

/-- The turns suffice: the leading position of a nonzero result is no pivot. -/
theorem reduceBy_fresh (turns : Nat)
    (enough : ∀ position, firstBit v = some position → nrows ≤ position.val + turns)
    {pivot : Fin nrows} (found : firstBit (reduceBy basis turns v) = some pivot) :
    pivot ∉ basis.map BasisVector.pivot := by
  induction turns generalizing v with
  | zero =>
    have bound := enough pivot found
    have inside := pivot.isLt
    omega
  | succ turns induction =>
    rw [reduceBy] at found
    cases first : firstBit v with
    | none =>
      rw [first] at found
      dsimp only at found
      rw [first] at found
      cases found
    | some position =>
      rw [first] at found
      dsimp only at found
      cases member : basis.find? fun b => b.pivot = position with
      | none =>
        rw [member] at found
        dsimp only at found
        rw [first] at found
        cases found
        intro inside
        rcases List.mem_map.mp inside with ⟨b, basisMember, same⟩
        simpa [same] using List.find?_eq_none.mp member b basisMember
      | some b =>
        rw [member] at found
        apply induction _ found
        intro later laterFirst
        have same : b.pivot = position := by
          simpa using List.find?_some member
        have leads := b.leads
        rw [same] at leads
        have order := leads_add_cancels (firstBit_leads first) leads
          (firstBit_leads laterFirst)
        have bound := enough position first
        rw [Fin.lt_def] at order
        omega

variable {b : BasisVector nrows}

theorem insertIntoBasis_spec (inserted : insertIntoBasis basis v = some b) :
    b.vec = reduceBy basis nrows v ∧ firstBit (reduceBy basis nrows v) = some b.pivot := by
  unfold insertIntoBasis at inserted
  dsimp only at inserted
  split at inserted
  next => cases inserted
  next pivot found =>
      cases inserted
      exact ⟨rfl, found⟩

theorem Echelon.insert (echelon : Echelon op basis) (zero : op v = 0)
    (inserted : insertIntoBasis basis v = some b) : Echelon op (basis ++ [b]) := by
  rcases insertIntoBasis_spec inserted with ⟨vector, pivot⟩
  constructor
  · intro member inside
    rcases List.mem_append.mp inside with old | new
    · exact echelon.kernel member old
    · rw [List.mem_singleton.mp new, vector]
      exact reduceBy_kernel echelon.kernel nrows zero
  · have fresh := reduceBy_fresh nrows (fun position _ => Nat.le_add_left _ _) pivot
    rw [List.map_append, List.nodup_append]
    refine ⟨echelon.distinct, List.nodup_singleton _, ?_⟩
    rintro position inside other new rfl
    rw [List.map_singleton, List.mem_singleton] at new
    rw [new] at inside
    exact fresh inside

structure SolutionLaw (op : Vec nrows →+ Vec nrows) (returned : List (Vec nrows)) : Prop where
  nonzero : ∀ w ∈ returned, w ≠ 0
  kernel : ∀ w ∈ returned, op w = 0
  independent : ∀ before w after, returned = before ++ w :: after →
    w ∉ Submodule.span (ZMod 2) {v | v ∈ before}

theorem Echelon.solutionLaw (echelon : Echelon op basis) :
    SolutionLaw op (basis.map BasisVector.vec) where
  nonzero := by
    intro w member
    rcases List.mem_map.mp member with ⟨b, _, rfl⟩
    exact b.leads.ne_zero
  kernel := by
    intro w member
    rcases List.mem_map.mp member with ⟨b, inside, rfl⟩
    exact echelon.kernel b inside
  independent := by
    intro before w after split
    rcases List.map_eq_append_iff.mp split with ⟨left, right, rfl, rfl, rest⟩
    rcases List.map_eq_cons_iff.mp rest with ⟨b, right, rfl, rfl, _⟩
    have distinct := echelon.distinct
    rw [List.map_append, List.nodup_append] at distinct
    have positions : ((left.map fun b => (b.pivot, b.vec)).map Prod.fst) =
        left.map BasisVector.pivot := by
      simp
    have vectors : ((left.map fun b => (b.pivot, b.vec)).map Prod.snd) =
        left.map BasisVector.vec := by
      simp
    rw [← vectors]
    apply not_mem_span_of_leads _ _ b.leads
    · rw [positions]
      intro inside
      exact distinct.2.2 b.pivot inside b.pivot (by simp) rfl
    · intro member inside
      rcases List.mem_map.mp inside with ⟨other, _, rfl⟩
      exact other.leads
    · rw [positions]
      exact distinct.1

theorem SolutionLaw.of_prefix {taken all : List (Vec nrows)} (law : SolutionLaw op all)
    (isPrefix : taken <+: all) : SolutionLaw op taken where
  nonzero := fun w member => law.nonzero w (isPrefix.subset member)
  kernel := fun w member => law.kernel w (isPrefix.subset member)
  independent := by
    intro before w after split
    rcases isPrefix with ⟨rest, rfl⟩
    apply law.independent before w (after ++ rest)
    rw [split, List.append_assoc, List.cons_append]

/-! ## The cyclic history -/

structure Recorded (input : Reconstruction m n nrows) (start : Nat → Vec nrows)
    (step : Nat) (state : StripState nrows) : Prop where
  cursor : state.cursor = step % input.historyDepth
  current : ∀ col, state.W col = input.op^[step] (start col)
  recent : ∀ earlier ≤ step, step - earlier < input.historyDepth → ∀ col,
    state.history (earlier % input.historyDepth) col = input.op^[earlier] (start col)

variable {input : Reconstruction m n nrows} {start : Nat → Vec nrows} {step : Nat}
  {state : StripState nrows}

private theorem slot_eq {depth back : Nat} (inside : back ≤ step) (window : back < depth) :
    (step % depth + depth - back) % depth = (step - back) % depth := by
  have division := Nat.mod_add_div step depth
  have shifted : step - back + depth =
      step % depth + depth - back + depth * (step / depth) := by omega
  calc (step % depth + depth - back) % depth
      = (step % depth + depth - back + depth * (step / depth)) % depth :=
        (Nat.add_mul_mod_self_left _ _ _).symm
    _ = (step - back + depth) % depth := by rw [shifted]
    _ = (step - back) % depth := Nat.add_mod_right _ _

theorem Recorded.at_back (recorded : Recorded input start step state) {back : Nat}
    (inside : back ≤ step) (window : back < input.historyDepth) (col : Nat) :
    state.history ((state.cursor + input.historyDepth - back) % input.historyDepth) col =
      input.op^[step - back] (start col) := by
  rw [recorded.cursor, slot_eq inside window]
  exact recorded.recent (step - back) (Nat.sub_le _ _) (by omega) col

theorem Recorded.advance (recorded : Recorded input start step state)
    (deep : 0 < input.historyDepth) :
    Recorded input start (step + 1) (input.advance state) where
  cursor := by
    change (state.cursor + 1) % input.historyDepth = _
    rw [recorded.cursor, Nat.mod_add_mod]
  current := by
    intro col
    rw [Function.iterate_succ_apply', ← recorded.current]
    rfl
  recent := by
    intro earlier inside window col
    change Function.update state.history ((state.cursor + 1) % input.historyDepth) _ _ col = _
    rw [recorded.cursor, Nat.mod_add_mod]
    by_cases last : earlier = step + 1
    · rw [last, Function.update_self, Function.iterate_succ_apply', ← recorded.current]
    · have different : earlier % input.historyDepth ≠ (step + 1) % input.historyDepth := by
        intro same
        have multiple := (Nat.modEq_iff_dvd' inside).mp same
        have bound := Nat.le_of_dvd (by omega) multiple
        omega
      rw [Function.update_of_ne different]
      exact recorded.recent earlier (by omega) (by omega) col

/-- A column that was alive at the last check is found where it died; one that
never lived is found in no older batch when the history is as short as possible. -/
theorem Recorded.backtrack_kernel (recorded : Recorded input start step state) {col : Nat}
    (died : input.op^[step] (start col) = 0) (positive : 0 < input.checkInterval)
    (inside : input.checkInterval ≤ step) (deep : input.checkInterval < input.historyDepth)
    (alive : input.op^[step - input.checkInterval] (start col) ≠ 0 ∨
      step = input.checkInterval ∧ input.historyDepth = input.checkInterval + 1)
    {foundIdx : Nat}
    (found : input.backtrackColumn state.history col state.cursor = some foundIdx) :
    input.op (state.history foundIdx col) = 0 := by
  rcases Option.map_eq_some_iff.mp found with ⟨back, search, rfl⟩
  rcases List.find?_range'_eq_some.mp search with ⟨_, member, clear⟩
  rw [List.mem_range'_1] at member
  have earlier : ∀ closer, 1 ≤ closer → closer < back → closer ≤ step →
      input.op^[step - closer] (start col) = 0 := by
    intro closer lower below reached
    have blank := clear closer lower below
    rw [recorded.at_back reached (by omega)] at blank
    simpa using blank
  have reached : back ≤ step := by
    rcases alive with alive | ⟨same, short⟩
    · by_contra beyond
      exact alive (earlier _ positive (by omega) inside)
    · omega
  rw [recorded.at_back reached (by omega), ← Function.iterate_succ_apply' input.op]
  by_cases first : back = 1
  · rwa [show (step - back).succ = step by omega]
  · rw [show (step - back).succ = step - (back - 1) by omega]
    exact earlier (back - 1) (by omega) (by omega) (by omega)

/-! ## Stripping a batch -/

/-- The echelon and the vectors that went out of it, `taken` already returned. -/
structure Collected (op : Vec nrows →+ Vec nrows) (taken : List (Vec nrows))
    (basis : List (BasisVector nrows)) (buffer : List (Vec nrows)) : Prop where
  echelon : Echelon op basis
  aligned : taken ++ buffer = basis.map BasisVector.vec

variable {taken : List (Vec nrows)}

theorem Collected.insert {buffer : List (Vec nrows)} (collected : Collected op taken basis buffer)
    (zero : op v = 0) (inserted : insertIntoBasis basis v = some b) :
    Collected op taken (basis ++ [b]) (buffer ++ [b.vec]) where
  echelon := collected.echelon.insert zero inserted
  aligned := by
    rw [List.map_append, ← collected.aligned, List.append_assoc, List.map_singleton]

structure Checked (input : Reconstruction m n nrows) (taken : List (Vec nrows))
    (before : StripState nrows) (done : List Nat) (state : StripState nrows) : Prop where
  block : state.W = before.W
  history : state.history = before.history
  cursor : state.cursor = before.cursor
  active : ∀ col, state.isActive col → before.isActive col ∧ (col ∈ done → before.W col ≠ 0)
  collected : Collected input.op taken state.basis state.solutionBuffer

theorem Checked.column {before : StripState nrows} {done : List Nat}
    (checked : Checked input taken before done state) {col : Nat}
    (dead : before.isActive col → before.W col = 0 →
      ∀ foundIdx, input.backtrackColumn before.history col before.cursor = some foundIdx →
        input.op (before.history foundIdx col) = 0) :
    Checked input taken before (col :: done) (input.checkColumn state col) := by
  have quiet : ∀ other, Function.update state.isActive col false other →
      before.isActive other ∧ (other ∈ col :: done → before.W other ≠ 0) := by
    intro other active
    by_cases same : other = col
    · rw [same, Function.update_self] at active
      cases active
    · rw [Function.update_of_ne same] at active
      have old := checked.active other active
      refine ⟨old.1, ?_⟩
      intro member
      exact old.2 (List.mem_of_ne_of_mem same member)
  unfold Reconstruction.checkColumn
  split
  next died =>
      have deadBefore := dead (checked.active col died.1).1 (by rw [← checked.block, died.2])
      rw [checked.history, checked.cursor]
      dsimp only
      split
      next => exact ⟨checked.block, rfl, rfl, quiet, checked.collected⟩
      next foundIdx found =>
          split
          next => exact ⟨checked.block, rfl, rfl, quiet, checked.collected⟩
          next b inserted =>
              exact ⟨checked.block, rfl, rfl, quiet,
                checked.collected.insert (deadBefore foundIdx found) inserted⟩
  next alive =>
      refine ⟨checked.block, checked.history, checked.cursor, ?_, checked.collected⟩
      intro other active
      have old := checked.active other active
      refine ⟨old.1, ?_⟩
      intro member
      rcases List.mem_cons.mp member with rfl | member
      · intro zero
        exact alive ⟨active, by rw [checked.block, zero]⟩
      · exact old.2 member

theorem Checked.columns {before : StripState nrows} {done columns : List Nat}
    (checked : Checked input taken before done state)
    (dead : ∀ col ∈ columns, before.isActive col → before.W col = 0 →
      ∀ foundIdx, input.backtrackColumn before.history col before.cursor = some foundIdx →
        input.op (before.history foundIdx col) = 0) :
    Checked input taken before (columns.reverse ++ done)
      (columns.foldl input.checkColumn state) := by
  induction columns generalizing done state with
  | nil => exact checked
  | cons col columns induction =>
    rw [List.foldl_cons, List.reverse_cons, List.append_assoc]
    apply induction (checked.column (dead col List.mem_cons_self))
    intro other member
    exact dead other (List.mem_cons_of_mem _ member)

/-- No column is lost to an older batch: the columns that start dead are not
searched beyond their own batch, as the history ends there or no check is made. -/
def Excused (input : Reconstruction m n nrows) : Prop :=
  input.historyDepth = input.checkInterval + 1 ∨ input.maxSteps < input.checkInterval

structure Stripped (input : Reconstruction m n nrows) (taken : List (Vec nrows))
    (start : Nat → Vec nrows) (size step : Nat) (state : StripState nrows) : Prop where
  recorded : Recorded input start step state
  bounded : ∀ col, state.isActive col → col < size
  alive : ∀ col, state.isActive col →
    input.op^[input.checkInterval * (step / input.checkInterval)] (start col) ≠ 0 ∨
      Excused input ∧ (step < input.checkInterval ∨ input.checkInterval = 0)
  collected : Collected input.op taken state.basis state.solutionBuffer

variable {size : Nat}

theorem Stripped.unchecked (stripped : Stripped input taken start size step state)
    (deep : 0 < input.historyDepth) (between : ¬input.checkInterval ∣ step + 1) :
    Stripped input taken start size (step + 1) (input.advance state) where
  recorded := stripped.recorded.advance deep
  bounded := stripped.bounded
  alive := by
    intro col active
    rw [Nat.succ_div_of_not_dvd between]
    rcases stripped.alive col active with alive | ⟨excused, early⟩
    · exact Or.inl alive
    · have different : step + 1 ≠ input.checkInterval := by
        intro same
        exact between (dvd_of_eq same.symm)
      exact Or.inr ⟨excused, by omega⟩
  collected := stripped.collected

theorem Stripped.check (stripped : Stripped input taken start size step state)
    (deep : input.checkInterval < input.historyDepth) (within : step < input.maxSteps)
    (reached : input.checkInterval ∣ step + 1) :
    Stripped input taken start size (step + 1)
      ((List.range size).reverse.foldl input.checkColumn (input.advance state)) := by
  have recorded := stripped.recorded.advance (by omega)
  have positive := Nat.pos_of_dvd_of_pos reached (Nat.succ_pos step)
  have inside := Nat.le_of_dvd (Nat.succ_pos step) reached
  have lastCheck : input.checkInterval * (step / input.checkInterval) =
      step + 1 - input.checkInterval := by
    have exact_ := Nat.mul_div_cancel' reached
    rw [Nat.succ_div_of_dvd reached, Nat.mul_add_one] at exact_
    omega
  have unchecked : Checked input taken (input.advance state) [] (input.advance state) := by
    refine ⟨rfl, rfl, rfl, ?_, stripped.collected⟩
    intro col active
    exact ⟨active, fun impossible => absurd impossible List.not_mem_nil⟩
  have checked : Checked input taken (input.advance state)
      ((List.range size).reverse.reverse ++ [])
      ((List.range size).reverse.foldl input.checkColumn (input.advance state)) := by
    apply unchecked.columns
    intro col _ active zero foundIdx found
    rw [recorded.current] at zero
    apply recorded.backtrack_kernel zero positive inside deep _ found
    rw [← lastCheck]
    rcases stripped.alive col active with alive | ⟨excused, early⟩
    · exact Or.inl alive
    · right
      rcases excused with short | never
      · exact ⟨by omega, short⟩
      · omega
  constructor
  · constructor
    · rw [checked.cursor, recorded.cursor]
    · intro col
      rw [checked.block, recorded.current]
    · intro earlier below window col
      rw [checked.history, recorded.recent earlier below window]
  · intro col active
    exact stripped.bounded col (checked.active col active).1
  · intro col active
    have old := checked.active col active
    have member : col ∈ (List.range size).reverse.reverse ++ [] := by
      simpa using stripped.bounded col old.1
    left
    rw [Nat.mul_div_cancel' reached, ← recorded.current]
    exact old.2 member
  · exact checked.collected

theorem Stripped.loop {left : Nat} (stripped : Stripped input taken start size step state)
    (deep : input.checkInterval < input.historyDepth)
    (within : step + left ≤ input.maxSteps) :
    Collected input.op taken (input.stripLoop size left (step + 1) state).basis
      (input.stripLoop size left (step + 1) state).solutionBuffer := by
  induction left generalizing step state with
  | zero => exact stripped.collected
  | succ left induction =>
    rw [Reconstruction.stripLoop]
    dsimp only
    by_cases reached : (step + 1) % input.checkInterval = 0
    · rw [if_pos reached]
      have checked := stripped.check deep (by omega) (Nat.dvd_of_mod_eq_zero reached)
      split
      next => exact induction checked (by omega)
      next => exact checked.collected
    · rw [if_neg reached]
      apply induction (stripped.unchecked (by omega) _) (by omega)
      intro multiple
      exact reached (Nat.mod_eq_zero_of_dvd multiple)

def BatchSafe (input : Reconstruction m n nrows) (batch : List (Candidate m n)) : Prop :=
  ∀ col < batch.length, input.batchColumn batch col ≠ 0 ∨ Excused input

variable {search : SearchState m n nrows}

theorem Stripped.initial {batch : List (Candidate m n)}
    (collected : Collected input.op taken search.basis search.solutionBuffer)
    (safe : BatchSafe input batch) :
    Stripped input taken (input.batchColumn batch) batch.length 0
      (input.stripStart batch search) where
  recorded := by
    refine ⟨(Nat.zero_mod _).symm, fun col => rfl, ?_⟩
    intro earlier inside window col
    rw [Nat.le_zero.mp inside, Nat.zero_mod]
    change Function.update search.history 0 _ 0 col = _
    rw [Function.update_self]
    rfl
  bounded := fun col active => of_decide_eq_true active
  alive := by
    intro col active
    rw [Nat.zero_div, Nat.mul_zero]
    rcases safe col (of_decide_eq_true active) with alive | excused
    · exact Or.inl alive
    · exact Or.inr ⟨excused, (Nat.eq_zero_or_pos _).symm⟩
  collected := collected

theorem Collected.runBatchStripping
    (collected : Collected input.op taken search.basis search.solutionBuffer)
    (deep : input.checkInterval < input.historyDepth) {batch : List (Candidate m n)}
    (safe : BatchSafe input batch) :
    Collected input.op taken (input.runBatchStripping batch search).basis
      (input.runBatchStripping batch search).solutionBuffer :=
  (Stripped.initial collected safe).loop deep (Nat.zero_add _).le

/-! ## Calls of `FindNext` -/

structure Searched (input : Reconstruction m n nrows) (search : SearchState m n nrows)
    (taken : List (Vec nrows)) : Prop where
  collected : Collected input.op taken search.basis search.solutionBuffer
  safe : ∀ batch ∈ search.batches, BatchSafe input batch
  legacy : input.batchMode = false → search.solutionBuffer = []

theorem Collected.take {w : Vec nrows} {buffer : List (Vec nrows)}
    (collected : Collected op taken basis (w :: buffer)) :
    Collected op (taken ++ [w]) basis buffer where
  echelon := collected.echelon
  aligned := by rw [← collected.aligned, List.append_assoc, List.singleton_append]

theorem Searched.searchBatches
    (collected : Collected input.op taken search.basis search.solutionBuffer)
    (batchMode : input.batchMode = true) (deep : input.checkInterval < input.historyDepth)
    {batches : List (List (Candidate m n))} (safe : ∀ batch ∈ batches, BatchSafe input batch) :
    Searched input (input.searchBatches search batches).1
      (taken ++ (input.searchBatches search batches).2.toList) := by
  have notLegacy : ∀ buffer : List (Vec nrows), input.batchMode = false → buffer = [] := by
    intro buffer legacy
    rw [batchMode] at legacy
    cases legacy
  induction batches generalizing search with
  | nil =>
    rw [Reconstruction.searchBatches, Option.toList_none, List.append_nil]
    exact ⟨collected, fun batch impossible => absurd impossible List.not_mem_nil, notLegacy _⟩
  | cons batch batches induction =>
    have next := collected.runBatchStripping deep (safe batch List.mem_cons_self)
    have rest : ∀ other ∈ batches, BatchSafe input other :=
      fun other member => safe other (List.mem_cons_of_mem _ member)
    rw [Reconstruction.searchBatches]
    cases drained : (input.runBatchStripping batch search).solutionBuffer with
    | nil => exact induction next rest
    | cons w buffer =>
      rw [drained] at next
      exact ⟨next.take, rest, notLegacy _⟩

private theorem stripValuation_kernel {steps : Nat} {v w : Vec nrows}
    (stripped : input.stripValuation steps v = some w) : input.op w = 0 := by
  induction steps generalizing v with
  | zero =>
    rw [Reconstruction.stripValuation] at stripped
    split at stripped
    next zero =>
        cases stripped
        exact zero
    next => cases stripped
  | succ steps induction =>
    rw [Reconstruction.stripValuation] at stripped
    split at stripped
    next zero =>
        cases stripped
        exact zero
    next => exact induction stripped

private theorem processCandidate_spec {cand : Candidate m n}
    (found : input.processCandidate basis cand = some b) :
    ∃ w, input.op w = 0 ∧ insertIntoBasis basis w = some b := by
  unfold Reconstruction.processCandidate at found
  dsimp only at found
  split at found
  next => cases found
  next =>
      rcases Option.bind_eq_some_iff.mp found with ⟨w, stripped, inserted⟩
      exact ⟨w, stripValuation_kernel stripped, inserted⟩

theorem Searched.searchCandidates (searched : Searched input search taken)
    (legacy : input.batchMode = false) (candidates : List (Candidate m n)) :
    Searched input (input.searchCandidates search candidates).1
      (taken ++ (input.searchCandidates search candidates).2.toList) := by
  induction candidates with
  | nil =>
    rw [Reconstruction.searchCandidates, Option.toList_none, List.append_nil]
    exact ⟨searched.collected, searched.safe, searched.legacy⟩
  | cons cand candidates induction =>
    rw [Reconstruction.searchCandidates]
    cases found : input.processCandidate search.basis cand with
    | none => exact induction
    | some b =>
      rcases processCandidate_spec found with ⟨w, zero, inserted⟩
      refine ⟨⟨searched.collected.echelon.insert zero inserted, ?_⟩, searched.safe,
        searched.legacy⟩
      have aligned := searched.collected.aligned
      rw [searched.legacy legacy, List.append_nil] at aligned
      dsimp only
      rw [searched.legacy legacy, List.append_nil, List.map_append, ← aligned]
      rfl

theorem Searched.findNext (searched : Searched input search taken)
    (deep : input.checkInterval < input.historyDepth) :
    Searched input (input.findNext search).1 (taken ++ (input.findNext search).2.toList) := by
  unfold Reconstruction.findNext
  cases mode : input.batchMode with
  | false =>
    rw [if_neg (by decide)]
    exact searched.searchCandidates mode _
  | true =>
    rw [if_pos rfl]
    unfold Reconstruction.findNextBatch
    cases drained : search.solutionBuffer with
    | nil => exact Searched.searchBatches searched.collected mode deep searched.safe
    | cons w buffer =>
      have collected := searched.collected
      rw [drained] at collected
      refine ⟨collected.take, searched.safe, ?_⟩
      intro legacy
      rw [mode] at legacy
      cases legacy

/-- In batch mode no column is dead when its batch's stripping starts, or no
snapshot of an older batch is within the reach of a check. -/
def ColumnsAlive (input : Reconstruction m n nrows) : Prop :=
  input.batchMode = true → Excused input ∨
    ∀ batch ∈ buildBatches n [] input.candidateQueue, ∀ col < batch.length,
      input.batchColumn batch col ≠ 0

theorem Searched.initial (alive : ColumnsAlive input) : Searched input input.init [] where
  collected := by
    refine ⟨⟨?_, List.nodup_nil⟩, rfl⟩
    intro b impossible
    exact absurd impossible List.not_mem_nil
  safe := by
    intro batch member col inside
    unfold Reconstruction.init at member
    cases mode : input.batchMode with
    | false => simp [mode] at member
    | true =>
      rw [mode, if_pos rfl] at member
      rcases alive mode with excused | alive
      · exact Or.inr excused
      · exact Or.inl (alive batch member col inside)
  legacy := fun _ => rfl

/-- Whatever number of calls, the search returns independent kernel vectors. -/
theorem returned_solutionLaw (input : Reconstruction m n nrows)
    (deep : input.checkInterval < input.historyDepth) (alive : ColumnsAlive input)
    (calls : Nat) : SolutionLaw input.op (input.returned calls) := by
  have searched := @Transition.emitRun_invariant _ Unit _
    (fun search _ => input.findNext search) (fun _ _ => True) (Searched input)
    (fun search log _ _ searched => searched.findNext deep) _ _ (Searched.initial alive)
    (List.replicate calls ()) (Transition.guarded_of_forall fun _ _ => trivial)
  rw [List.nil_append] at searched
  apply searched.collected.echelon.solutionLaw.of_prefix
  rw [← searched.collected.aligned]
  exact List.prefix_append _ _

def nilpotent : Vec 4 →+ Vec 4 where
  toFun w i := if i = 0 then w 1 else if i = 2 then w 3 else 0
  map_zero' := by
    funext i
    simp
  map_add' v w := by
    funext i
    simp only [Pi.add_apply]
    split_ifs
    · rfl
    · rfl
    · exact (add_zero 0).symm

def nilpotentInput : Reconstruction 1 2 4 where
  op := nilpotent
  Z := fun r l => if r.val = 2 * l.val + 1 then 1 else 0
  hPi := [fun r c => if r.val = 0 ∧ c.val = 0 then 1 else 0,
    fun r c => if r.val = 1 ∧ c.val = 1 then 1 else 0]
  batchMode := true
  historyDepth := 3
  checkInterval := 1
  strippingStepLimit := 4
  uninitialized := fun _ _ => 0

theorem returned_solutionLaw_nilpotent :
    (nilpotentInput.candidateQueue.map Candidate.degree = [0, 1] ∧
      (nilpotentInput.returned 2).length = 2) ∧
      SolutionLaw nilpotentInput.op (nilpotentInput.returned 2) := by
  constructor
  · decide +kernel
  · exact returned_solutionLaw nilpotentInput (by decide)
      (fun _ => Or.inr (by decide +kernel)) 2

/-- Two batches of 64 candidates at the identity: the columns of the first never
die, those of the second are zero when stripping starts. -/
def identityInput : Reconstruction 64 64 1 where
  op := AddMonoidHom.id _
  Z := fun _ l => if l.val = 0 then 1 else 0
  hPi := [fun r c => if c.val = r.val / 64 then 1 else 0]
  batchMode := true
  historyDepth := 3
  checkInterval := 1
  strippingStepLimit := 2
  uninitialized := fun _ _ => 0

set_option maxRecDepth 4096 in
theorem not_solutionLaw_identity : identityInput.checkInterval < identityInput.historyDepth ∧
      ¬SolutionLaw identityInput.op (identityInput.returned 1) := by
  refine ⟨by decide, ?_⟩
  intro law
  have bits : (identityInput.returned 1).map (fun w => w 0) = [1] := by decide +kernel
  rcases List.map_eq_singleton_iff.mp bits with ⟨w, single, bit⟩
  have zero := law.kernel w (by simp [single])
  have blank : w 0 = 0 := congrFun zero 0
  rw [bit] at blank
  exact absurd blank (by decide)

end CudaMpqs.Lingen
