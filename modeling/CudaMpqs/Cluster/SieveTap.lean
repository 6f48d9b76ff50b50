import Mathlib.Algebra.Group.Nat.Defs
import Mathlib.Data.Option.Basic

/-! # The sieve thread and its tap

The stop test and the a-value counter of `AsyncNetworkDataTap`, and the loops of
`SieveStage` that feed the counter: an extraction is delivered during the next turn, or
behind the loop. -/

namespace CudaMpqs

structure AsyncNetworkDataTap where
  stop : Bool
  rangeALimit : Nat
  rangeAConsumed : Nat
  batchAValues : Nat
deriving DecidableEq

namespace AsyncNetworkDataTap

def setRange (self : AsyncNetworkDataTap) (count batchAVals : Nat) : AsyncNetworkDataTap :=
  { self with rangeALimit := count, rangeAConsumed := 0, batchAValues := batchAVals }

def shouldStop (self : AsyncNetworkDataTap) : Bool :=
  self.stop || (decide (0 < self.rangeALimit) && decide (self.rangeALimit ≤ self.rangeAConsumed))

def aAdvanced (self : AsyncNetworkDataTap) (aValuesAdvanced : Nat) : Nat :=
  if 0 < aValuesAdvanced then aValuesAdvanced else self.batchAValues

def onBatchComplete (self : AsyncNetworkDataTap) (aValuesAdvanced : Nat) : AsyncNetworkDataTap :=
  if self.stop then self
  else
    { self with
      rangeAConsumed := (self.rangeAConsumed + self.aAdvanced aValuesAdvanced) % 2 ^ 64 }

variable {self : AsyncNetworkDataTap}

@[simp] theorem stop_onBatchComplete (aValuesAdvanced : Nat) :
    (self.onBatchComplete aValuesAdvanced).stop = self.stop := by
  rw [onBatchComplete]
  split <;> rfl

theorem shouldStop_iff : self.shouldStop = true ↔
    self.stop = true ∨ 0 < self.rangeALimit ∧ self.rangeALimit ≤ self.rangeAConsumed := by
  simp [shouldStop]

theorem rangeAConsumed_onBatchComplete {aValuesAdvanced : Nat} (runs : self.stop = false)
    (fits : self.rangeAConsumed + self.aAdvanced aValuesAdvanced < 2 ^ 64) :
    (self.onBatchComplete aValuesAdvanced).rangeAConsumed =
      self.rangeAConsumed + self.aAdvanced aValuesAdvanced := by
  rw [onBatchComplete, if_neg (by simp [runs])]
  exact Nat.mod_eq_of_lt fits

theorem rangeALimit_onBatchComplete (aValuesAdvanced : Nat) :
    (self.onBatchComplete aValuesAdvanced).rangeALimit = self.rangeALimit := by
  rw [onBatchComplete]
  split <;> rfl

theorem shouldStop_of_le {before after : AsyncNetworkDataTap} (stops : before.shouldStop = true)
    (stop : after.stop = before.stop) (limit : after.rangeALimit = before.rangeALimit)
    (grows : before.stop = false → before.rangeAConsumed ≤ after.rangeAConsumed) :
    after.shouldStop = true := by
  rw [shouldStop_iff] at stops ⊢
  rw [stop, limit]
  cases stopped : before.stop with
  | true => exact Or.inl rfl
  | false =>
    rw [stopped] at stops
    rcases stops with flag | ⟨bounded, reached⟩
    · cases flag
    · exact Or.inr ⟨bounded, Nat.le_trans reached (grows stopped)⟩

end AsyncNetworkDataTap

structure SieveConfig where
  cudaGraphUnroll : Nat
  sieveBatchSize : Nat
deriving DecidableEq

namespace SieveConfig

def batchAVals (config : SieveConfig) : Nat :=
  if 0 < config.sieveBatchSize then config.sieveBatchSize else 1

end SieveConfig

/-- One turn of a loop of `SieveStage`: a graph replay or a batch with the answer of
`cudaEventQuery`, or a step of the legacy loop with the answer of `accumulate`; and
whether there are relations to extract. -/
inductive Turn
  | graphReplay (extracted found : Bool)
  | standardBatch (extracted found : Bool)
  | legacyStep (bufferFull found : Bool)
deriving DecidableEq

namespace Turn

def Possible (config : SieveConfig) : Turn → Prop
  | .graphReplay .. => 0 < config.sieveBatchSize ∧ 0 < config.cudaGraphUnroll
  | .standardBatch .. => 0 < config.sieveBatchSize
  | .legacyStep .. => config.sieveBatchSize = 0

instance (config : SieveConfig) : DecidablePred (Possible config)
  | .graphReplay .. => inferInstanceAs (Decidable (_ ∧ _))
  | .standardBatch .. => inferInstanceAs (Decidable (_ < _))
  | .legacyStep .. => inferInstanceAs (Decidable (_ = _))

def aValues (config : SieveConfig) : Turn → Nat
  | .graphReplay .. => config.cudaGraphUnroll * config.sieveBatchSize
  | .standardBatch .. => config.sieveBatchSize
  | .legacyStep .. => 1

def reported (config : SieveConfig) : Turn → Nat
  | .graphReplay .. => config.cudaGraphUnroll * config.sieveBatchSize
  | .standardBatch .. => 0
  | .legacyStep .. => 0

def delivers : Turn → Bool
  | .graphReplay extracted _ => extracted
  | .standardBatch extracted _ => extracted
  | .legacyStep bufferFull _ => bufferFull

def extracts : Turn → Bool
  | .graphReplay _ found => found
  | .standardBatch _ found => found
  | .legacyStep bufferFull found => bufferFull && found

end Turn

/-- The sieve thread of a worker: its tap, whether it is in a loop of `SieveStage`, the
extraction under way with the a-values of its turn, and how many a-values of the range
were sieved. -/
structure SieveThread where
  tap : AsyncNetworkDataTap
  sieving : Bool
  extractPending : Option Nat
  sieved : Nat
deriving DecidableEq

namespace SieveThread

def enterStage (self : SieveThread) (config : SieveConfig) (count : Nat) : SieveThread where
  tap := self.tap.setRange count config.batchAVals
  sieving := true
  extractPending := none
  sieved := 0

def Starts (self : SieveThread) (config : SieveConfig) (turn : Turn) : Prop :=
  self.sieving = true ∧ self.tap.shouldStop = false ∧ turn.Possible config

instance (self : SieveThread) (config : SieveConfig) (turn : Turn) :
    Decidable (self.Starts config turn) :=
  inferInstanceAs (Decidable (_ ∧ _ ∧ _))

def deliver (self : SieveThread) (done : Bool) (aValuesAdvanced : Nat) : SieveThread :=
  if self.extractPending.isSome && done then
    { self with
      tap := self.tap.onBatchComplete aValuesAdvanced
      extractPending := none }
  else self

def batch (self : SieveThread) (config : SieveConfig) (turn : Turn) : SieveThread :=
  if self.Starts config turn then
    let delivered := self.deliver turn.delivers (turn.reported config)
    { delivered with
      extractPending :=
        if turn.extracts then some (turn.aValues config) else delivered.extractPending
      sieved := self.sieved + turn.aValues config }
  else self

/-- The end of `SieveStage`: a truncated sieve returns at once, else the last extraction
and what `remaining` relations there are are delivered. -/
def leaveLoop (self : SieveThread) (truncated remaining : Bool) : SieveThread :=
  if self.sieving then
    let drained := self.deliver (!truncated) 0
    { drained with
      tap := if remaining && !truncated then drained.tap.onBatchComplete 0 else drained.tap
      sieving := false
      extractPending := none }
  else self

/-! ## Exact counts -/

structure Exact (thread : SieveThread) : Prop where
  counted : thread.tap.stop = false →
    thread.tap.rangeAConsumed + thread.extractPending.getD 0 = thread.sieved
  bounded : thread.sieved < 2 ^ 64
  left : thread.sieving = false → thread.extractPending = none

def Told (self : SieveThread) (done : Bool) (aValuesAdvanced : Nat) : Prop :=
  ∀ owed ∈ self.extractPending, done = true ∧ self.tap.aAdvanced aValuesAdvanced = owed

def CountsTurn (self : SieveThread) (config : SieveConfig) (turn : Turn) : Prop :=
  self.Starts config turn → self.Told turn.delivers (turn.reported config) ∧ turn.extracts = true ∧
      self.sieved + turn.aValues config < 2 ^ 64

/-- The extraction under way is one batch and is drained, and nothing is left behind it. -/
def CountsLeave (self : SieveThread) (truncated remaining : Bool) : Prop :=
  self.sieving = true → self.tap.stop = false →
    self.Told (!truncated) 0 ∧ (remaining && !truncated) = false

instance (self : SieveThread) (done : Bool) (aValuesAdvanced : Nat) :
    Decidable (self.Told done aValuesAdvanced) :=
  inferInstanceAs (Decidable (∀ owed ∈ self.extractPending, _))

instance (self : SieveThread) (config : SieveConfig) (turn : Turn) :
    Decidable (self.CountsTurn config turn) :=
  inferInstanceAs (Decidable (_ → _))

instance (self : SieveThread) (truncated remaining : Bool) :
    Decidable (self.CountsLeave truncated remaining) :=
  inferInstanceAs (Decidable (_ → _))

variable {self : SieveThread} {config : SieveConfig}

@[simp] theorem stop_enterStage (count : Nat) :
    (self.enterStage config count).tap.stop = self.tap.stop :=
  rfl

theorem exact_enterStage (count : Nat) : (self.enterStage config count).Exact where
  counted := fun _ => rfl
  bounded := Nat.two_pow_pos 64
  left := nofun

theorem deliver_frame (self : SieveThread) (done : Bool) (aValuesAdvanced : Nat) :
    (self.deliver done aValuesAdvanced).tap.stop = self.tap.stop ∧
      (self.deliver done aValuesAdvanced).tap.rangeALimit = self.tap.rangeALimit ∧
      (self.deliver done aValuesAdvanced).sieved = self.sieved ∧
      (self.deliver done aValuesAdvanced).sieving = self.sieving := by
  rw [deliver]
  split
  · exact ⟨AsyncNetworkDataTap.stop_onBatchComplete aValuesAdvanced,
      AsyncNetworkDataTap.rangeALimit_onBatchComplete aValuesAdvanced, rfl, rfl⟩
  · exact ⟨rfl, rfl, rfl, rfl⟩

theorem Exact.deliver (exact_ : self.Exact) {done : Bool} {aValuesAdvanced : Nat}
    (told : self.Told done aValuesAdvanced) (runs : self.tap.stop = false) :
    (self.deliver done aValuesAdvanced).tap.rangeAConsumed = self.sieved := by
  have counted := exact_.counted runs
  have bounded := exact_.bounded
  rw [SieveThread.deliver]
  cases pending : self.extractPending with
  | none => simpa [pending] using counted
  | some owed =>
    rcases told owed pending with ⟨isDone, amount⟩
    rw [pending, Option.getD_some] at counted
    have delivered : ((some owed).isSome && done) = true := by simp [isDone]
    rw [if_pos delivered]
    rw [AsyncNetworkDataTap.rangeAConsumed_onBatchComplete runs (by omega), amount, counted]

theorem Exact.batch (exact_ : self.Exact) {turn : Turn} (counts : self.CountsTurn config turn) :
    (self.batch config turn).Exact := by
  rw [SieveThread.batch]
  split
  next starts =>
    rcases counts starts with ⟨told, extracts, fits⟩
    rcases deliver_frame self turn.delivers (turn.reported config) with
      ⟨stop, _, _, sieving⟩
    constructor
    · intro runs
      have delivered := exact_.deliver told (stop.symm.trans runs)
      simp only [extracts, if_true, Option.getD_some, delivered]
    · exact fits
    · exact fun left => nomatch starts.1.symm.trans (sieving.symm.trans left)
  next => exact exact_

theorem leaveLoop_frame (self : SieveThread) (truncated remaining : Bool) :
    (self.leaveLoop truncated remaining).tap.stop = self.tap.stop ∧
      (self.leaveLoop truncated remaining).tap.rangeALimit = self.tap.rangeALimit ∧
      (self.leaveLoop truncated remaining).sieved = self.sieved := by
  rcases deliver_frame self (!truncated) 0 with ⟨stop, limit, sieved, _⟩
  rw [SieveThread.leaveLoop]
  split
  next =>
    dsimp only
    split
    · rw [AsyncNetworkDataTap.stop_onBatchComplete, AsyncNetworkDataTap.rangeALimit_onBatchComplete]
      exact ⟨stop, limit, sieved⟩
    · exact ⟨stop, limit, sieved⟩
  next => exact ⟨rfl, rfl, rfl⟩

theorem Exact.consumed_leaveLoop (exact_ : self.Exact) {truncated remaining : Bool}
    (counts : self.CountsLeave truncated remaining) (sieving : self.sieving = true)
    (runs : self.tap.stop = false) :
    (self.leaveLoop truncated remaining).tap.rangeAConsumed = self.sieved := by
  rcases counts sieving runs with ⟨told, nothing⟩
  simp only [SieveThread.leaveLoop, sieving, nothing, if_true]
  exact exact_.deliver told runs

theorem Exact.leaveLoop (exact_ : self.Exact) {truncated remaining : Bool}
    (counts : self.CountsLeave truncated remaining) :
    (self.leaveLoop truncated remaining).Exact := by
  rcases leaveLoop_frame self truncated remaining with ⟨stop, _, sieved⟩
  cases sieving : self.sieving with
  | false =>
    rw [SieveThread.leaveLoop, if_neg (by simp [sieving])]
    exact exact_
  | true =>
    have none_ : (self.leaveLoop truncated remaining).extractPending = none := by
      simp [SieveThread.leaveLoop, sieving]
    constructor
    · intro runs
      rw [exact_.consumed_leaveLoop counts sieving (stop.symm.trans runs), none_, sieved]
      rfl
    · rw [sieved]
      exact exact_.bounded
    · exact fun _ => none_

/-! ## The stop test -/

theorem batch_of_shouldStop (stops : self.tap.shouldStop = true) (turn : Turn) :
    self.batch config turn = self := by
  rw [batch, if_neg]
  exact fun starts => nomatch stops.symm.trans starts.2.1

theorem Exact.shouldStop_leaveLoop (exact_ : self.Exact) {truncated remaining : Bool}
    (counts : self.CountsLeave truncated remaining) (stops : self.tap.shouldStop = true) :
    (self.leaveLoop truncated remaining).tap.shouldStop = true := by
  rcases leaveLoop_frame self truncated remaining with ⟨stop, limit, _⟩
  cases sieving : self.sieving with
  | false =>
    rw [SieveThread.leaveLoop, if_neg (by simp [sieving])]
    exact stops
  | true =>
    apply AsyncNetworkDataTap.shouldStop_of_le stops stop limit
    intro runs
    have counted := exact_.counted runs
    rw [exact_.consumed_leaveLoop counts sieving runs]
    omega

end SieveThread

end CudaMpqs
