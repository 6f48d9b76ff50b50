import CudaMpqs.Common.SieveCheckpoint
import CudaMpqs.Foundation.Transition

/-! # Committing a checkpoint

`writeCheckpointAtomic` step by step on the three files of its directory. A crash may
fall between any two steps, and a step that fails ends the call; a rename is atomic
and lasting. -/

namespace CudaMpqs.SieveCheckpoint

open RelationIo Transition

structure Directory where
  live : Option (List UInt8)
  prev : Option (List UInt8)
  tmp : Option (List UInt8)
deriving DecidableEq

namespace Directory

def append (dir : Directory) (bytes : List UInt8) : Directory :=
  { dir with tmp := dir.tmp.map (· ++ bytes) }

def retain (dir : Directory) : Directory :=
  match dir.live with
  | some file => { dir with live := none, prev := some file }
  | none => dir

end Directory

inductive Call
  | serialize (checkpoint : Checkpoint) (unwritten : List UInt8)
  | append (checkpoint : Checkpoint) (unwritten : List UInt8)
  | retain (checkpoint : Checkpoint)
  | install (checkpoint : Checkpoint)
deriving DecidableEq

structure Session where
  dir : Directory
  call : Option Call
  committed : List Checkpoint
deriving DecidableEq

/-- `close` is the return of `serialize_v2` with true: its stream is destroyed after
`f.good()` was taken, and of what it still buffers a part reaches the file. -/
inductive Event
  | enter (checkpoint : Checkpoint)
  | write (count : Nat)
  | close (flushed : Nat)
  | sync
  | retain (renamed : Bool)
  | install
  | fail
  | crash (tmp : Option (List UInt8))
deriving DecidableEq

namespace Session

def start (dir : Directory) : Session := ⟨dir, none, []⟩

/-- The stale temporary file is removed and an empty one is opened. -/
def enter (session : Session) (checkpoint : Checkpoint) : Session :=
  match session.call with
  | none =>
    { session with
      dir := { session.dir with tmp := some [] }
      call := some (.serialize checkpoint (serializeV2 checkpoint.contents)) }
  | some _ => session

def write (session : Session) (count : Nat) : Session :=
  match session.call with
  | some (.serialize checkpoint unwritten) =>
    { session with
      dir := session.dir.append (unwritten.take count)
      call := some (.serialize checkpoint (unwritten.drop count)) }
  | some (.append checkpoint unwritten) =>
    { session with
      dir := session.dir.append (unwritten.take count)
      call := some (.append checkpoint (unwritten.drop count)) }
  | _ => session

def close (session : Session) (flushed : Nat) : Session :=
  match session.call with
  | some (.serialize checkpoint unwritten) =>
    let dir := session.dir.append (unwritten.take flushed)
    match dir.tmp with
    | some file =>
      { session with
        dir := dir
        call := some (.append checkpoint (checkpoint.tail file.length)) }
    | none => { session with call := none }
  | _ => session

def sync (session : Session) : Session :=
  match session.call with
  | some (.append checkpoint []) => { session with call := some (.retain checkpoint) }
  | _ => session

def retain (session : Session) (renamed : Bool) : Session :=
  match session.call with
  | some (.retain checkpoint) =>
    { session with
      dir := if renamed then session.dir.retain else session.dir
      call := some (.install checkpoint) }
  | _ => session

def install (session : Session) : Session :=
  match session.call, session.dir.tmp with
  | some (.install checkpoint), some file =>
    { dir := { session.dir with live := some file, tmp := none }
      call := none
      committed := checkpoint :: session.committed }
  | some (.install _), none => { session with call := none }
  | _, _ => session

/-- A crash may lose any part of the temporary file, or leave anything in it. -/
def step (session : Session) : Event → Session
  | .enter checkpoint => session.enter checkpoint
  | .write count => session.write count
  | .close flushed => session.close flushed
  | .sync => session.sync
  | .retain renamed => session.retain renamed
  | .install => session.install
  | .fail => { session with call := none }
  | .crash tmp => { session with dir := { session.dir with tmp }, call := none }

/-- Once a checkpoint was installed, the load gives the contents of the latest one or of
the one before it. -/
def LoadsCommitted (memory : Nat) (session : Session) : Prop :=
  session.committed ≠ [] → ∀ junk, ∃ checkpoint ∈ session.committed.take 2,
    loadLatestCheckpoint memory junk session.dir.live session.dir.prev .fresh =
      some (true, checkpoint.restoreOver .fresh)

def buffered (session : Session) : Nat :=
  match session.call with
  | some (.serialize _ unwritten) => unwritten.length
  | _ => 0

def Flushes (memory : Nat) (session : Session) : Event → Prop
  | .enter checkpoint => checkpoint.Storable memory
  | .close flushed => session.buffered ≤ flushed
  | _ => True

end Session

/-! ## The invariant -/

def Directory.Holds (dir : Directory) (checkpoint : Checkpoint) : Prop :=
  dir.live = some checkpoint.bytes ∨ dir.live = none ∧ dir.prev = some checkpoint.bytes

theorem Directory.Holds.load {dir : Directory} {checkpoint : Checkpoint}
    (holds : dir.Holds checkpoint) {memory : Nat} (storable : checkpoint.Storable memory)
    (junk : Nat → Nat) :
    loadLatestCheckpoint memory junk dir.live dir.prev .fresh =
      some (true, checkpoint.restoreOver .fresh) := by
  rcases holds with live | ⟨live, prev⟩
  · rw [live]
    unfold loadLatestCheckpoint
    simp only [readCheckpoint_bytes storable, Option.bind_eq_bind, Option.bind_some, if_true]
    rfl
  · rw [live, prev]
    unfold loadLatestCheckpoint
    simp only [Option.pure_def, Option.bind_eq_bind, Option.bind_some, Bool.false_eq_true, if_false]
    exact readCheckpoint_bytes storable junk .fresh

theorem Directory.Holds.retain {dir : Directory} {checkpoint : Checkpoint}
    (holds : dir.Holds checkpoint) : dir.retain.Holds checkpoint := by
  rcases holds with live | ⟨live, prev⟩
  · rw [Directory.retain, live]
    exact .inr ⟨rfl, rfl⟩
  · rw [Directory.retain, live]
    exact .inr ⟨live, prev⟩

def Directory.Completes (dir : Directory) (unwritten file : List UInt8) : Prop :=
  ∃ written, dir.tmp = some written ∧ written ++ unwritten = file

theorem Directory.Completes.append {dir : Directory} {unwritten file : List UInt8}
    (completes : dir.Completes unwritten file) (count : Nat) :
    (dir.append (unwritten.take count)).Completes (unwritten.drop count) file := by
  rcases completes with ⟨written, tmp, rfl⟩
  refine ⟨written ++ unwritten.take count, ?_, ?_⟩
  · rw [Directory.append, tmp]
    rfl
  · rw [List.append_assoc, List.take_append_drop]

theorem Directory.Completes.tmp {dir : Directory} {file : List UInt8}
    (completes : dir.Completes [] file) : dir.tmp = some file := by
  rcases completes with ⟨written, tmp, rfl⟩
  rw [tmp, List.append_nil]

def Call.Valid (memory : Nat) (dir : Directory) : Call → Prop
  | .serialize checkpoint unwritten =>
    checkpoint.Storable memory ∧ dir.Completes unwritten (serializeV2 checkpoint.contents)
  | .append checkpoint unwritten =>
    checkpoint.Storable memory ∧ dir.Completes unwritten checkpoint.bytes
  | .retain checkpoint =>
    checkpoint.Storable memory ∧ dir.tmp = some checkpoint.bytes
  | .install checkpoint =>
    checkpoint.Storable memory ∧ dir.tmp = some checkpoint.bytes

namespace Session

/-- A load finds the latest installed checkpoint, and the call in progress is on its way
to a whole file. -/
structure Inv (memory : Nat) (session : Session) : Prop where
  latest : ∀ checkpoint ∈ session.committed.head?,
    checkpoint.Storable memory ∧ session.dir.Holds checkpoint
  call : ∀ call ∈ session.call, call.Valid memory session.dir

variable {memory : Nat} {session : Session}

theorem inv_start (memory : Nat) (dir : Directory) : (start dir).Inv memory :=
  ⟨nofun, nofun⟩

theorem Inv.onTmp (inv : session.Inv memory) (tmp : Option (List UInt8)) {call : Option Call}
    (valid : ∀ next ∈ call, next.Valid memory { session.dir with tmp }) :
    Inv memory { session with dir := { session.dir with tmp }, call } :=
  ⟨inv.latest, valid⟩

theorem Inv.onCall (inv : session.Inv memory) (tmp : Option (List UInt8)) {call : Call}
    (valid : call.Valid memory { session.dir with tmp }) :
    Inv memory { session with dir := { session.dir with tmp }, call := some call } :=
  inv.onTmp tmp fun _ member => Option.mem_some.mp member ▸ valid

theorem Inv.idle (inv : session.Inv memory) : Inv memory { session with call := none } :=
  inv.onTmp session.dir.tmp nofun

theorem Inv.enter (inv : session.Inv memory) {checkpoint : Checkpoint}
    (storable : checkpoint.Storable memory) : (session.enter checkpoint).Inv memory := by
  unfold Session.enter
  split
  · exact inv.onCall (some []) ⟨storable, [], rfl, rfl⟩
  · exact inv

theorem Inv.write (inv : session.Inv memory) (count : Nat) : (session.write count).Inv memory := by
  unfold Session.write
  split
  · rename_i isCall
    have valid := inv.call _ isCall
    exact inv.onCall _ ⟨valid.1, valid.2.append count⟩
  · rename_i isCall
    have valid := inv.call _ isCall
    exact inv.onCall _ ⟨valid.1, valid.2.append count⟩
  · exact inv

theorem Inv.close (inv : session.Inv memory) {flushed : Nat}
    (lossless : session.buffered ≤ flushed) : (session.close flushed).Inv memory := by
  unfold Session.close
  split
  · rename_i checkpoint unwritten isCall
    rw [buffered, isCall] at lossless
    have valid := inv.call _ isCall
    have payload := valid.2.append flushed
    rw [List.drop_eq_nil_of_le lossless] at payload
    simp only [payload.tmp]
    exact inv.onCall _ ⟨valid.1, _, payload.tmp, rfl⟩
  · exact inv

theorem Inv.sync (inv : session.Inv memory) : session.sync.Inv memory := by
  unfold Session.sync
  split
  · rename_i isCall
    have valid := inv.call _ isCall
    exact inv.onCall session.dir.tmp ⟨valid.1, valid.2.tmp⟩
  · exact inv

private theorem tmp_retain (dir : Directory) : dir.retain.tmp = dir.tmp := by
  unfold Directory.retain
  split <;> rfl

theorem Inv.retain (inv : session.Inv memory) (renamed : Bool) :
    (session.retain renamed).Inv memory := by
  unfold Session.retain
  split
  · rename_i isCall
    have valid := inv.call _ isCall
    cases renamed with
    | false => exact inv.onCall session.dir.tmp valid
    | true =>
      constructor
      · intro checkpoint member
        have latest := inv.latest checkpoint member
        exact ⟨latest.1, latest.2.retain⟩
      · intro call member
        rw [← Option.mem_some.mp member]
        exact ⟨valid.1, (tmp_retain session.dir).trans valid.2⟩
  · exact inv

theorem Inv.install (inv : session.Inv memory) : session.install.Inv memory := by
  unfold Session.install
  split
  · rename_i isCall isTmp
    have valid := inv.call _ isCall
    refine ⟨fun latest member => ?_, nofun⟩
    rw [← Option.mem_some.mp member]
    exact ⟨valid.1, .inl (isTmp.symm.trans valid.2)⟩
  · exact inv.idle
  · exact inv

theorem Inv.step {event : Event} (inv : session.Inv memory)
    (flushes : session.Flushes memory event) : (session.step event).Inv memory := by
  cases event with
  | enter checkpoint => exact inv.enter flushes
  | write count => exact inv.write count
  | close flushed => exact inv.close flushes
  | sync => exact inv.sync
  | retain renamed => exact inv.retain renamed
  | install => exact inv.install
  | fail => exact inv.idle
  | crash tmp => exact inv.onTmp tmp nofun

theorem Inv.loads (inv : session.Inv memory) {latest : Checkpoint}
    (isLatest : session.committed.head? = some latest) (junk : Nat → Nat) :
    loadLatestCheckpoint memory junk session.dir.live session.dir.prev .fresh =
      some (true, latest.restoreOver .fresh) :=
  have committed := inv.latest latest isLatest
  committed.2.load committed.1 junk

theorem Inv.loadsCommitted (inv : session.Inv memory) : session.LoadsCommitted memory := by
  intro some_committed junk
  rcases List.exists_cons_of_ne_nil some_committed with ⟨latest, older, committed⟩
  refine ⟨latest, by simp [committed], inv.loads ?_ junk⟩
  rw [committed, List.head?_cons]

/-- Whatever crashes and failures come between the steps of any number of writes. -/
theorem run_loadsCommitted (memory : Nat) (dir : Directory) (events : List Event)
    (flushes : Meets step (Flushes memory) (start dir) events) :
    (run step (start dir) events).LoadsCommitted memory :=
  Inv.loadsCommitted
    (flushes.invariant (fun _ _ flushes inv => inv.step flushes) (inv_start memory dir))

/-! ## Runs of one writer -/

/-- The steps of a write that nothing interrupts; `kept` bytes of its payload reach the
file. -/
def writeCheckpointAtomic (checkpoint : Checkpoint) (kept : Nat) : List Event :=
  let payload := (serializeV2 checkpoint.contents).length
  [.enter checkpoint, .close kept, .write (checkpoint.tail payload).length, .sync,
    .retain true, .install]

theorem meets_writeCheckpointAtomic {memory : Nat} {checkpoint : Checkpoint}
    (storable : checkpoint.Storable memory) {kept : Nat}
    (whole : (serializeV2 checkpoint.contents).length ≤ kept) (session : Session)
    (idle : session.call = none) :
    Meets step (Flushes memory) session (writeCheckpointAtomic checkpoint kept) := by
  refine ⟨storable, ?_, trivial, trivial, trivial, trivial, trivial⟩
  simpa only [Flushes, buffered, step, enter, idle] using whole

/-- A write, a second one that a crash interrupts between its renames, and a third one
that fails in its payload. -/
def interruptedWrites : List Event :=
  writeCheckpointAtomic soloCheckpoint (2 ^ 20) ++
    ((writeCheckpointAtomic clusterCheckpoint (2 ^ 20)).take 5 ++
      [.crash (some [0]), .enter soloCheckpoint, .write 100, .fail])

theorem run_interruptedWrites :
    (run step (start ⟨none, none, none⟩) interruptedWrites).LoadsCommitted (2 ^ 40) := by
  have whole : (serializeV2 soloCheckpoint.contents).length ≤ 2 ^ 20 := by decide +kernel
  have first := meets_writeCheckpointAtomic storable_soloCheckpoint whole
    (start ⟨none, none, none⟩) rfl
  have second := meets_writeCheckpointAtomic storable_clusterCheckpoint whole
    (run step (start ⟨none, none, none⟩)
      (writeCheckpointAtomic soloCheckpoint (2 ^ 20))) (by decide +kernel)
  exact run_loadsCommitted (2 ^ 40) ⟨none, none, none⟩ interruptedWrites
    ((meets_append _ _ _ _ _).mpr ⟨first, (meets_append _ _ _ _ _).mpr
      ⟨second.of_prefix (List.take_prefix 5 _),
        trivial, storable_soloCheckpoint, trivial, trivial, trivial⟩⟩)

/-- Two writes; the last byte of the second payload is lost when its stream is closed. -/
def lossyWrites : List Event :=
  writeCheckpointAtomic soloCheckpoint (2 ^ 20) ++ writeCheckpointAtomic clusterCheckpoint
      ((serializeV2 clusterCheckpoint.contents).length - 1)

/-- The load takes the first byte of the trailer for the lost one. -/
theorem run_lossyWrites :
    ¬ (run step (start ⟨none, none, none⟩) lossyWrites).LoadsCommitted (2 ^ 40) := by
  intro loads
  have committed : (run step (start ⟨none, none, none⟩) lossyWrites).committed =
      [clusterCheckpoint, soloCheckpoint] := by decide +kernel
  obtain ⟨checkpoint, member, load⟩ := loads (by rw [committed]; nofun) fun _ => 0
  rw [committed] at member
  rcases List.mem_pair.mp member with rfl | rfl
  · revert load
    decide +kernel
  · revert load
    decide +kernel

end Session

end CudaMpqs.SieveCheckpoint
