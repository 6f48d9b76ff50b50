import CudaMpqs.Cluster.WorkPool

/-! # Resume trims over many legs

The initial ranges of a cluster run that is killed and resumed again and again:
`computeResumeTrim` of `sieve_checkpoint.h`, the progress handlers and the
high-water fields of the checkpoint. -/

namespace CudaMpqs

open CudaMpqs.Interval WorkPool

structure ResumeTrim where
  start : Nat
  count : Nat
  effHw : Nat
deriving DecidableEq

/-- A trimmed count of zero would mean an unbounded range, so the last hypercube
of `H` a-values is sieved again. -/
def computeResumeTrim (origStart origCount hw H : Nat) : ResumeTrim :=
  let hw := if origCount < hw then origCount else hw
  if origCount - hw = 0 ∧ H ≤ origCount ∧ 0 < H then
    ⟨wrap64 (origStart + (origCount - H)), H, origCount - H⟩
  else ⟨wrap64 (origStart + hw), origCount - hw, hw⟩

/-- The initial ranges of the nodes, in the space of 64-bit a-indices, and the
hypercube size. -/
structure InitialRanges (nodes : Nat) where
  range : Fin nodes → WorkUnit
  hypercube : Nat
  hypercube_pos : 0 < hypercube
  inSpace : ∀ node, (range node).start + (range node).count < 2 ^ 64

/-- The three ways a range is trimmed: not at all finished, finished with room for
a hypercube, finished without. -/
theorem computeResumeTrim_cases (origStart origCount hw H : Nat) :
    ((min hw origCount = origCount ∧ H ≤ origCount ∧ 0 < H) ∧
      computeResumeTrim origStart origCount hw H =
        ⟨wrap64 (origStart + (origCount - H)), H, origCount - H⟩) ∨
    (¬ (min hw origCount = origCount ∧ H ≤ origCount ∧ 0 < H) ∧
      computeResumeTrim origStart origCount hw H =
        ⟨wrap64 (origStart + min hw origCount), origCount - min hw origCount,
          min hw origCount⟩) := by
  have clamp : (if origCount < hw then origCount else hw) = min hw origCount := by
    rcases Nat.lt_or_ge origCount hw with above | within
    · rw [if_pos above, Nat.min_eq_right above.le]
    · rw [if_neg (Nat.not_lt.mpr within), Nat.min_eq_left within]
  have zero : origCount - min hw origCount = 0 ↔ min hw origCount = origCount := by
    omega
  simp only [computeResumeTrim, clamp, zero]
  by_cases whole : min hw origCount = origCount ∧ H ≤ origCount ∧ 0 < H
  · exact .inl ⟨whole, if_pos whole⟩
  · exact .inr ⟨whole, if_neg whole⟩

/-- The trim covers exactly the rest behind what it skips, and skips no more than
the recorded high-water. -/
theorem computeResumeTrim_spec {origStart origCount : Nat}
    (inSpace : origStart + origCount < 2 ^ 64) (hw H : Nat) :
    let trim := computeResumeTrim origStart origCount hw H
    trim.start = origStart + trim.effHw ∧ trim.effHw + trim.count = origCount ∧
      trim.effHw ≤ hw := by
  intro trim
  rcases computeResumeTrim_cases origStart origCount hw H with
    ⟨⟨finished, room, _⟩, trimmed⟩ | ⟨_, trimmed⟩
  · have start : wrap64 (origStart + (origCount - H)) = origStart + (origCount - H) :=
      Nat.mod_eq_of_lt (by omega)
    rw [show trim = _ from trimmed, start]
    exact ⟨rfl, Nat.sub_add_cancel room, by dsimp only; omega⟩
  · have start : wrap64 (origStart + min hw origCount) = origStart + min hw origCount :=
      Nat.mod_eq_of_lt (by omega)
    rw [show trim = _ from trimmed, start]
    exact ⟨rfl, Nat.add_sub_cancel' (Nat.min_le_right _ _), Nat.min_le_left _ _⟩

theorem computeResumeTrim_count_pos {origCount H : Nat} (positive : 0 < H)
    (aligned : H ≤ origCount) (origStart hw : Nat) :
    0 < (computeResumeTrim origStart origCount hw H).count := by
  rcases computeResumeTrim_cases origStart origCount hw H with
    ⟨_, trimmed⟩ | ⟨unfinished, trimmed⟩
  · rw [trimmed]
    exact positive
  · have short : min hw origCount ≠ origCount :=
      fun finished => unfinished ⟨finished, aligned, positive⟩
    rw [trimmed]
    dsimp only
    omega

/-- A cluster run over many legs: the trims and the progress of the current leg,
what was sieved so far and every checkpoint that was written. -/
structure ClusterLegs (nodes : Nat) where
  trims : Fin nodes → ResumeTrim
  onInitialRange : Fin nodes → Bool
  initialHighWater : Fin nodes → Nat
  sieved : List WorkUnit
  checkpoints : List (Fin nodes → Nat)

namespace ClusterLegs

variable {nodes : Nat}

def startLeg (trims : Fin nodes → ResumeTrim) (sieved : List WorkUnit)
    (checkpoints : List (Fin nodes → Nat)) : ClusterLegs nodes where
  trims := trims
  onInitialRange := fun _ => true
  initialHighWater := fun node => (trims node).effHw
  sieved := sieved
  checkpoints := checkpoints

def freshTrims (ranges : InitialRanges nodes) (node : Fin nodes) : ResumeTrim :=
  ⟨(ranges.range node).start, (ranges.range node).count, 0⟩

def resumeTrims (ranges : InitialRanges nodes) (checkpoint : Fin nodes → Nat)
    (node : Fin nodes) : ResumeTrim :=
  computeResumeTrim (ranges.range node).start (ranges.range node).count
    (checkpoint node) ranges.hypercube

def start (ranges : InitialRanges nodes) : ClusterLegs nodes :=
  startLeg (freshTrims ranges) [] []

/-- Thread A clamps what it records for node 0; the other nodes' values are
recorded as they are. -/
def recorded (ranges : InitialRanges nodes) (highWater : Fin nodes → Nat)
    (node : Fin nodes) : Nat :=
  if node.val = 0 then min (highWater node) (ranges.range node).count
  else highWater node

def reportedHighWater (ranges : InitialRanges nodes) (trims : Fin nodes → ResumeTrim)
    (node : Fin nodes) (aValuesConsumed : Nat) : Nat :=
  min (wrap64 ((trims node).effHw + aValuesConsumed)) (ranges.range node).count

inductive Event (nodes : Nat) where
  /-- A node has sieved this much of its trimmed range. -/
  | sieve (node : Fin nodes) (aValuesConsumed : Nat)
  /-- It is through and reports the progress; node 0 does so only for a bounded
  range. -/
  | initialComplete (node : Fin nodes) (aValuesConsumed : Nat)
  /-- Its tracker is cleared without a report. -/
  | clearTracker (node : Fin nodes)
  | writeCheckpoint
  /-- The run is killed and resumed from one of the checkpoints. -/
  | killAndResume (checkpoint : Nat)
deriving DecidableEq

def sieves (legs : ClusterLegs nodes) (node : Fin nodes) (aValuesConsumed : Nat) : List WorkUnit :=
  legs.sieved ++ [⟨(legs.trims node).start, aValuesConsumed⟩]

def step (ranges : InitialRanges nodes) (legs : ClusterLegs nodes) : Event nodes → ClusterLegs nodes
  | .sieve node aValuesConsumed =>
    { legs with sieved := legs.sieves node aValuesConsumed }
  | .initialComplete node aValuesConsumed =>
    if legs.onInitialRange node ∧ (node.val = 0 → 0 < (legs.trims node).count) then
      { legs with
        sieved := legs.sieves node aValuesConsumed
        onInitialRange := Function.update legs.onInitialRange node false
        initialHighWater := Function.update legs.initialHighWater node
          (reportedHighWater ranges legs.trims node aValuesConsumed) }
    else legs
  | .clearTracker node =>
    { legs with onInitialRange := Function.update legs.onInitialRange node false }
  | .writeCheckpoint =>
    { legs with
      checkpoints := legs.checkpoints ++ [recorded ranges legs.initialHighWater] }
  | .killAndResume checkpoint =>
    match legs.checkpoints[checkpoint]? with
    | some loaded =>
      startLeg (resumeTrims ranges loaded) legs.sieved legs.checkpoints
    | none => startLeg (freshTrims ranges) legs.sieved legs.checkpoints

/-- What a recorded high-water promises: it stays inside the range, and
everything below it was sieved. -/
def Sound (ranges : InitialRanges nodes) (sieved : List WorkUnit)
    (highWater : Fin nodes → Nat) : Prop :=
  ∀ node, highWater node ≤ (ranges.range node).count ∧
    Covers sieved (ranges.range node).start (highWater node)

def Trimmed (ranges : InitialRanges nodes) (sieved : List WorkUnit)
    (trims : Fin nodes → ResumeTrim) : Prop :=
  ∀ node, (trims node).start = (ranges.range node).start + (trims node).effHw ∧
    (trims node).effHw + (trims node).count = (ranges.range node).count ∧
    Covers sieved (ranges.range node).start (trims node).effHw

def Bounded (ranges : InitialRanges nodes) (trims : Fin nodes → ResumeTrim) : Prop :=
  ∀ node, ranges.hypercube ≤ (ranges.range node).count → 0 < (trims node).count

structure Invariant (ranges : InitialRanges nodes) (legs : ClusterLegs nodes) :
    Prop where
  trimmed : Trimmed ranges legs.sieved legs.trims
  bounded : Bounded ranges legs.trims
  highWater : Sound ranges legs.sieved legs.initialHighWater
  checkpoints : ∀ checkpoint ∈ legs.checkpoints, Sound ranges legs.sieved checkpoint

variable {ranges : InitialRanges nodes}
variable {highWater : Fin nodes → Nat}

theorem Sound.mono {sieved more : List WorkUnit} (sound : Sound ranges sieved highWater)
    (subset : sieved ⊆ more) : Sound ranges more highWater :=
  fun node => ⟨(sound node).1, (sound node).2.mono subset⟩

variable {trims : Fin nodes → ResumeTrim}

theorem Trimmed.mono {sieved more : List WorkUnit} (trimmed : Trimmed ranges sieved trims)
    (subset : sieved ⊆ more) : Trimmed ranges more trims :=
  fun node => ⟨(trimmed node).1, (trimmed node).2.1, (trimmed node).2.2.mono subset⟩

variable {sieved : List WorkUnit}

theorem Sound.lower {highWater fewer : Fin nodes → Nat} (sound : Sound ranges sieved highWater)
    (le : ∀ node, fewer node ≤ highWater node) : Sound ranges sieved fewer :=
  fun node => ⟨(le node).trans (sound node).1, (sound node).2.shorten (le node)⟩

theorem Sound.update (sound : Sound ranges sieved highWater) {node : Fin nodes} {progress : Nat}
    (inRange : progress ≤ (ranges.range node).count)
    (covers : Covers sieved (ranges.range node).start progress) :
    Sound ranges sieved (Function.update highWater node progress) := by
  intro other
  by_cases same : other = node
  · subst same
    rw [Function.update_self]
    exact ⟨inRange, covers⟩
  · rw [Function.update_of_ne same]
    exact sound other

theorem Sound.report (sound : Sound ranges sieved highWater) (trimmed : Trimmed ranges sieved trims)
    {node : Fin nodes} {aValuesConsumed : Nat}
    (covers : Covers sieved (trims node).start aValuesConsumed) :
    Sound ranges sieved (Function.update highWater node
      (reportedHighWater ranges trims node aValuesConsumed)) := by
  have progress : reportedHighWater ranges trims node aValuesConsumed ≤
      (trims node).effHw + aValuesConsumed :=
    (Nat.min_le_left _ _).trans (Nat.mod_le _ _)
  rw [(trimmed node).1] at covers
  exact sound.update (Nat.min_le_right _ _)
    (((trimmed node).2.2.extend covers).shorten progress)

theorem Sound.recorded (sound : Sound ranges sieved highWater) :
    Sound ranges sieved (recorded ranges highWater) := by
  apply sound.lower
  intro node
  rw [ClusterLegs.recorded]
  split
  · exact Nat.min_le_left _ _
  · exact Nat.le_refl _

theorem trimmed_freshTrims (ranges : InitialRanges nodes) (sieved : List WorkUnit) :
    Trimmed ranges sieved (freshTrims ranges) :=
  fun _ => ⟨rfl, Nat.zero_add _, covers_zero _ _⟩

theorem bounded_freshTrims (ranges : InitialRanges nodes) : Bounded ranges (freshTrims ranges) :=
  fun _ aligned => ranges.hypercube_pos.trans_le aligned

theorem Sound.trimmed {checkpoint : Fin nodes → Nat} (sound : Sound ranges sieved checkpoint) :
    Trimmed ranges sieved (resumeTrims ranges checkpoint) := by
  intro node
  have spec := computeResumeTrim_spec (ranges.inSpace node) (checkpoint node)
    ranges.hypercube
  exact ⟨spec.1, spec.2.1, (sound node).2.shorten spec.2.2⟩

theorem bounded_resumeTrims (ranges : InitialRanges nodes) (checkpoint : Fin nodes → Nat) :
    Bounded ranges (resumeTrims ranges checkpoint) :=
  fun _ aligned => computeResumeTrim_count_pos ranges.hypercube_pos aligned _ _

theorem invariant_startLeg {checkpoints : List (Fin nodes → Nat)}
    (trimmed : Trimmed ranges sieved trims) (bounded : Bounded ranges trims)
    (sound : ∀ checkpoint ∈ checkpoints, Sound ranges sieved checkpoint) :
    Invariant ranges (startLeg trims sieved checkpoints) where
  trimmed := trimmed
  bounded := bounded
  highWater := fun node => ⟨Nat.le.intro (trimmed node).2.1, (trimmed node).2.2⟩
  checkpoints := sound

theorem invariant_start (ranges : InitialRanges nodes) : Invariant ranges (start ranges) :=
  invariant_startLeg (trimmed_freshTrims ranges []) (bounded_freshTrims ranges)
    (fun _ member => nomatch member)

theorem Invariant.sieves {legs : ClusterLegs nodes} (invariant : Invariant ranges legs)
    (node : Fin nodes) (aValuesConsumed : Nat) :
    Invariant ranges { legs with sieved := legs.sieves node aValuesConsumed } where
  trimmed := invariant.trimmed.mono (List.subset_append_left _ _)
  bounded := invariant.bounded
  highWater := invariant.highWater.mono (List.subset_append_left _ _)
  checkpoints checkpoint member :=
    (invariant.checkpoints checkpoint member).mono (List.subset_append_left _ _)

theorem Invariant.step {legs : ClusterLegs nodes} (invariant : Invariant ranges legs)
    (event : Event nodes) : Invariant ranges (step ranges legs event) := by
  cases event with
  | sieve node aValuesConsumed => exact invariant.sieves node aValuesConsumed
  | initialComplete node aValuesConsumed =>
    rw [ClusterLegs.step]
    split
    · have continued := invariant.sieves node aValuesConsumed
      have covers : Covers (legs.sieves node aValuesConsumed) (legs.trims node).start
          aValuesConsumed :=
        covers_of_mem (List.mem_append_right _ (List.mem_singleton_self _))
      exact {
        trimmed := continued.trimmed
        bounded := continued.bounded
        highWater := continued.highWater.report continued.trimmed covers
        checkpoints := continued.checkpoints }
    · exact invariant
  | clearTracker node => exact { invariant with }
  | writeCheckpoint =>
    refine { invariant with checkpoints := ?_ }
    intro checkpoint member
    rcases List.mem_append.mp member with earlier | written
    · exact invariant.checkpoints checkpoint earlier
    · rw [List.mem_singleton.mp written]
      exact invariant.highWater.recorded
  | killAndResume checkpoint =>
    rw [ClusterLegs.step]
    cases loads : legs.checkpoints[checkpoint]? with
    | none =>
      exact invariant_startLeg (trimmed_freshTrims ranges _)
        (bounded_freshTrims ranges) invariant.checkpoints
    | some loaded =>
      have sound := invariant.checkpoints loaded (List.mem_of_getElem? loads)
      exact invariant_startLeg sound.trimmed (bounded_resumeTrims ranges loaded)
        invariant.checkpoints

/-- After any number of legs, each killed anywhere and resumed from any checkpoint,
no recorded high-water skips an index that was never sieved, every issued range is
the rest behind a sieved prefix, and none of a hypercube or more is unbounded. -/
theorem run_resumes (ranges : InitialRanges nodes) (events : List (Event nodes)) :
    let legs := Transition.run (ClusterLegs.step ranges) (start ranges) events
    (∀ checkpoint ∈ legs.checkpoints, Sound ranges legs.sieved checkpoint) ∧
      Trimmed ranges legs.sieved legs.trims ∧ Bounded ranges legs.trims := by
  intro legs
  have invariant : Invariant ranges legs :=
    Transition.run_invariant (fun _ event holds => holds.step event)
      (invariant_start ranges) events
  exact ⟨invariant.checkpoints, invariant.trimmed, invariant.bounded⟩

def shortRange : InitialRanges 1 where
  range := fun _ => ⟨0, 3⟩
  hypercube := 8
  hypercube_pos := by decide
  inSpace := by decide

/-- A node that is through with a range shorter than a hypercube is resumed
without a bound. -/
theorem not_bounded_shortRange :
    ¬ ∀ (ranges : InitialRanges 1) (events : List (Event 1)) (node : Fin 1),
      0 < (ranges.range node).count →
        0 < ((Transition.run (ClusterLegs.step ranges) (start ranges) events).trims
          node).count := by
  intro bounded
  have issued := bounded shortRange
    [.initialComplete 0 3, .writeCheckpoint, .killAndResume 0] 0 (by decide)
  exact absurd issued (by decide)

end ClusterLegs

end CudaMpqs
