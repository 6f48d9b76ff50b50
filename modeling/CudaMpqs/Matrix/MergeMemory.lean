import CudaMpqs.Matrix.MergeLocks

/-! # The memory of the merge kernel

A thread writes to the workspace only inside its reservation, and redirects only
rows whose locks it holds. So what another thread has read or written stays as it
was. -/

namespace CudaMpqs.BatchMerge

open Combine Function Transition PackedRow

variable {rows : Nat} {launch : Launch rows}

/-! ## Reservations -/

def Job.Apart (job other : Job rows) : Prop :=
  job.slot ≠ other.slot ∧ (job.offset + job.row.entries.length ≤ other.offset ∨
      other.offset + other.row.entries.length ≤ job.offset)

theorem Job.Apart.symm {job other : Job rows} (apart : job.Apart other) : other.Apart job :=
  ⟨apart.1.symm, apart.2.symm⟩

structure Places (jobs : launch.Thread → Option (Job rows)) (counter : DualCounter) : Prop where
  relations_le : launch.device.counter.relations.toNat ≤ counter.relations.toNat
  factors_le : launch.device.counter.factors.toNat ≤ counter.factors.toNat
  relations_bounded : counter.relations.toNat ≤ launch.context.maxRows.toNat
  factors_bounded : counter.factors.toNat ≤ launch.context.maxEntries.toNat
  slot_ge : ∀ {thread job}, jobs thread = some job →
    launch.device.counter.relations.toNat ≤ job.slot
  slot_lt : ∀ {thread job}, jobs thread = some job → job.slot < counter.relations.toNat
  offset_ge : ∀ {thread job}, jobs thread = some job →
    launch.device.counter.factors.toNat ≤ job.offset
  end_le : ∀ {thread job}, jobs thread = some job →
    job.offset + job.row.entries.length ≤ counter.factors.toNat
  apart : ∀ {thread other job job'}, jobs thread = some job → jobs other = some job' →
    thread ≠ other → job.Apart job'
  covered : ∀ slot, launch.device.counter.relations.toNat ≤ slot →
    slot < counter.relations.toNat → ∃ thread job, jobs thread = some job ∧ job.slot = slot

theorem places_start (valid : launch.device.Valid launch.context) :
    @Places rows launch (fun _ => none) launch.device.counter where
  relations_le := Nat.le_refl _
  factors_le := Nat.le_refl _
  relations_bounded := valid.relations_le
  factors_bounded := valid.factors_le
  slot_ge isJob := nomatch isJob
  slot_lt isJob := nomatch isJob
  offset_ge isJob := nomatch isJob
  end_le isJob := nomatch isJob
  apart isJob := nomatch isJob
  covered _ above below := absurd below (Nat.not_lt.mpr above)

theorem reserved_spec {context : Context rows} {counter reserved : DualCounter} {count : Nat}
    (short : count ≤ kMaxLocalBufEntries)
    (bounded : counter.factors.toNat ≤ context.maxEntries.toNat)
    (reserves : atomicReserveDual counter (BitVec.ofNat 32 count) context.maxRows
      context.maxEntries = some reserved) :
    reserved.relations.toNat = counter.relations.toNat + 1 ∧
      reserved.factors.toNat = counter.factors.toNat + count ∧
      reserved.relations.toNat ≤ context.maxRows.toNat ∧
      reserved.factors.toNat ≤ context.maxEntries.toNat := by
  have room := context.maxEntries_le
  have rowsBound := context.maxRows.isLt
  unfold kMaxLocalBufEntries at short
  have added : (counter.factors + BitVec.ofNat 32 count).toNat =
      counter.factors.toNat + count := by
    rw [BitVec.toNat_add, BitVec.toNat_ofNat, Nat.mod_eq_of_lt (show count < 2 ^ 32 by omega),
      Nat.mod_eq_of_lt (by omega)]
  unfold atomicReserveDual at reserves
  split at reserves
  · cases reserves
  · rename_i fits
    rw [not_or, BitVec.not_le, BitVec.not_lt, BitVec.lt_def, BitVec.le_def] at fits
    injection reserves with equal
    subst equal
    have next : (counter.relations + 1).toNat = counter.relations.toNat + 1 := by
      rw [BitVec.toNat_add_of_lt]
      · rfl
      · have less := fits.1
        change _ + 1 < _
        omega
    exact ⟨next, added, next.trans_le fits.1, fits.2⟩

theorem length_le_of_mergeRows {mont : Montgomery} {left right row : PackedRow}
    (merges : mergeRows mont left right = some row) :
    row.entries.length ≤ kMaxLocalBufEntries ∧ row = join mont left right := by
  rw [mergeRows_eq] at merges
  split at merges
  · rename_i fits
    injection merges with equal
    subst equal
    exact ⟨fits, rfl⟩
  · cases merges

theorem Places.reserve {jobs : launch.Thread → Option (Job rows)} {counter reserved : DualCounter}
    (places : Places jobs counter) {thread : launch.Thread} (none : jobs thread = none)
    {ptr1 ptr2 : RowPtr rows} {row : PackedRow}
    (short : row.entries.length ≤ kMaxLocalBufEntries)
    (reserves : atomicReserveDual counter (BitVec.ofNat 32 row.entries.length)
      launch.context.maxRows launch.context.maxEntries = some reserved) :
    Places (update jobs thread (some
      ⟨ptr1, ptr2, row, counter.relations.toNat, counter.factors.toNat⟩)) reserved := by
  rcases reserved_spec short places.factors_bounded reserves with
    ⟨relations, factors, relationsBounded, factorsBounded⟩
  have split : ∀ {other : launch.Thread} {job : Job rows}, update jobs thread (some
      ⟨ptr1, ptr2, row, counter.relations.toNat, counter.factors.toNat⟩) other = some job →
      other = thread ∧ job = ⟨ptr1, ptr2, row, counter.relations.toNat, counter.factors.toNat⟩ ∨
        other ≠ thread ∧ jobs other = some job := by
    intro other job isJob
    rw [update_apply] at isJob
    split at isJob
    · rename_i isOwn
      injection isJob with equal
      exact Or.inl ⟨isOwn, equal.symm⟩
    · rename_i isOther
      exact Or.inr ⟨isOther, isJob⟩
  have below : ∀ {other : launch.Thread} {job : Job rows}, jobs other = some job →
      Job.Apart job ⟨ptr1, ptr2, row, counter.relations.toNat, counter.factors.toNat⟩ := by
    intro other job isJob
    exact ⟨(places.slot_lt isJob).ne, Or.inl (places.end_le isJob)⟩
  constructor
  · exact places.relations_le.trans (by omega)
  · exact places.factors_le.trans (by omega)
  · exact relationsBounded
  · exact factorsBounded
  · intro other job isJob
    rcases split isJob with ⟨-, rfl⟩ | ⟨-, old⟩
    · exact places.relations_le
    · exact places.slot_ge old
  · intro other job isJob
    rcases split isJob with ⟨-, rfl⟩ | ⟨-, old⟩
    · exact (Nat.lt_succ_self _).trans_eq relations.symm
    · exact (places.slot_lt old).trans (by omega)
  · intro other job isJob
    rcases split isJob with ⟨-, rfl⟩ | ⟨-, old⟩
    · exact places.factors_le
    · exact places.offset_ge old
  · intro other job isJob
    rcases split isJob with ⟨-, rfl⟩ | ⟨-, old⟩
    · exact factors.ge
    · exact (places.end_le old).trans (by omega)
  · intro left right job job' isJob isJob' different
    rcases split isJob with ⟨rfl, rfl⟩ | ⟨-, old⟩
    · rcases split isJob' with ⟨rfl, rfl⟩ | ⟨-, old'⟩
      · exact absurd rfl different
      · exact (below old').symm
    · rcases split isJob' with ⟨rfl, rfl⟩ | ⟨-, old'⟩
      · exact below old
      · exact places.apart old old' different
  · intro slot above inside
    by_cases isNew : slot = counter.relations.toNat
    · exact ⟨thread, _, update_self _ _ _, isNew.symm⟩
    · rcases places.covered slot above (by omega) with ⟨other, job, isJob, isSlot⟩
      have different : other ≠ thread := by
        rintro rfl
        rw [none] at isJob
        cases isJob
      exact ⟨other, job, by rw [update_of_ne different, isJob], isSlot⟩

/-! ## What an action leaves alone -/

section Acts

variable {thread : launch.Thread} {memory memory' : Memory rows} {phase phase' : Phase rows}

theorem Acts.rowPtr (acts : Acts launch thread memory phase memory' phase') {row : Fin rows}
    (free : row ∉ phase.held (launch.candidate thread)) :
    memory'.rowPtr row = memory.rowPtr row := by
  cases acts with
  | publish =>
    apply update_of_ne
    rintro rfl
    exact free List.mem_cons_self
  | consume =>
    apply update_of_ne
    rintro rfl
    exact free (List.mem_cons_of_mem _ (List.mem_singleton_self _))
  | weigh job change => cases change <;> rfl
  | _ => rfl

theorem Acts.storedJob (acts : Acts launch thread memory phase memory' phase') {job : Job rows}
    (stored : phase.storedJob = some job) : phase'.storedJob = some job := by
  cases acts with
  | @unlock fate => cases fate <;> exact stored
  | _ => first | exact stored | cases stored

/-- The workspace outside the writer's reservation. -/
structure Confined (writer : Option (Job rows)) (workspace workspace' : Workspace) : Prop where
  entries : ∀ index, (∀ job ∈ writer,
      index < job.offset ∨ job.offset + job.row.entries.length ≤ index) →
    workspace'.entries index = workspace.entries index
  rowStarts : ∀ slot, (∀ job ∈ writer, slot ≠ job.slot) →
    workspace'.rowStarts slot = workspace.rowStarts slot
  rowLengths : ∀ slot, (∀ job ∈ writer, slot ≠ job.slot) →
    workspace'.rowLengths slot = workspace.rowLengths slot
  sqrtQ : ∀ slot, (∀ job ∈ writer, slot ≠ job.slot) → workspace'.sqrtQ slot = workspace.sqrtQ slot
  signs : ∀ slot, (∀ job ∈ writer, slot ≠ job.slot) → workspace'.signs slot = workspace.signs slot
  val2Exps : ∀ slot, (∀ job ∈ writer, slot ≠ job.slot) →
    workspace'.val2Exps slot = workspace.val2Exps slot
  charBits : ∀ slot, (∀ job ∈ writer, slot ≠ job.slot) →
    workspace'.charBits slot = workspace.charBits slot

theorem Confined.refl (writer : Option (Job rows)) (workspace : Workspace) :
    Confined writer workspace workspace where
  entries _ _ := rfl
  rowStarts _ _ := rfl
  rowLengths _ _ := rfl
  sqrtQ _ _ := rfl
  signs _ _ := rfl
  val2Exps _ _ := rfl
  charBits _ _ := rfl

theorem confined_write {job : Job rows} {written : Nat} {entry : PackedEntry}
    (isEntry : job.row.entries[written]? = some entry) (workspace : Workspace) :
    Confined (some job) workspace { workspace with
      entries := update workspace.entries (job.offset + written) entry } where
  entries index outside := by
    have inside := (List.getElem?_eq_some_iff.mp isEntry).1
    apply update_of_ne
    have sides := outside job rfl
    omega
  rowStarts _ _ := rfl
  rowLengths _ _ := rfl
  sqrtQ _ _ := rfl
  signs _ _ := rfl
  val2Exps _ _ := rfl
  charBits _ _ := rfl

private theorem confined_describe (job : Job rows) (written : Nat) (workspace : Workspace) :
    Confined (some job) workspace (workspace.describe job written) := by
  have keeps {α : Type} (values : Nat → α) (value : α) (slot : Nat)
      (other : ∀ job' ∈ some job, slot ≠ job'.slot) :
      update values job.slot value slot = values slot :=
    update_of_ne (other job rfl) _ _
  match written with
  | 0 => exact { Confined.refl (some job) workspace with rowStarts := keeps _ _ }
  | 1 => exact { Confined.refl (some job) workspace with rowLengths := keeps _ _ }
  | 2 => exact { Confined.refl (some job) workspace with sqrtQ := keeps _ _ }
  | 3 => exact { Confined.refl (some job) workspace with signs := keeps _ _ }
  | 4 => exact { Confined.refl (some job) workspace with val2Exps := keeps _ _ }
  | _ + 5 => exact { Confined.refl (some job) workspace with charBits := keeps _ _ }

theorem Acts.confined (acts : Acts launch thread memory phase memory' phase') :
    Confined phase.openJob memory.workspace memory'.workspace := by
  cases acts with
  | write isEntry => exact confined_write isEntry _
  | describe => exact confined_describe _ _ _
  | weigh job change => cases change <;> exact .refl _ _
  | _ => exact .refl _ _

end Acts

/-! ## Slots -/

/-- A slot and the entries of its row are outside the writer's reservation. -/
def Clear (writer : Option (Job rows)) (slot start length : Nat) : Prop :=
  ∀ job ∈ writer, slot ≠ job.slot ∧
    (start + length ≤ job.offset ∨ job.offset + job.row.entries.length ≤ start)

variable {writer : Option (Job rows)} {workspace workspace' : Workspace}

theorem Confined.entry (confined : Confined writer workspace workspace') {slot start length k : Nat}
    (clear : Clear writer slot start length) (inside : k < length) :
    workspace'.entries (start + k) = workspace.entries (start + k) := by
  apply confined.entries
  intro job member
  have sides := (clear job member).2
  omega

theorem Confined.row (confined : Confined writer workspace workspace') {slot : Nat}
    (clear : Clear writer slot (workspace.rowStarts slot) (workspace.rowLengths slot)) :
    workspace'.row slot = workspace.row slot := by
  have other : ∀ job ∈ writer, slot ≠ job.slot := fun job member => (clear job member).1
  rw [Workspace.row, Workspace.row, confined.rowStarts slot other,
    confined.rowLengths slot other, confined.sqrtQ slot other, confined.signs slot other,
    confined.val2Exps slot other, confined.charBits slot other]
  congr 1
  apply List.map_congr_left
  intro k member
  exact confined.entry clear (List.mem_range.mp member)

def FieldWritten (workspace : Workspace) (job : Job rows) : Nat → Prop
  | 0 => workspace.rowStarts job.slot = job.offset
  | 1 => workspace.rowLengths job.slot = job.row.entries.length
  | 2 => workspace.sqrtQ job.slot = job.row.sqrtQ
  | 3 => workspace.signs job.slot = job.row.sign
  | 4 => workspace.val2Exps job.slot = job.row.val2Exp
  | _ => workspace.charBits job.slot = job.row.charBits

def Described (workspace : Workspace) (job : Job rows) (written : Nat) : Prop :=
  ∀ field < written, FieldWritten workspace job field

def Copied (workspace : Workspace) (job : Job rows) (written : Nat) : Prop :=
  ∀ k < written, ∀ entry, job.row.entries[k]? = some entry →
    workspace.entries (job.offset + k) = entry

structure Stored (workspace : Workspace) (job : Job rows) : Prop where
  copied : Copied workspace job job.row.entries.length
  described : Described workspace job 6

private theorem fieldWritten_describe (workspace : Workspace) (job : Job rows) (written : Nat) :
    FieldWritten (workspace.describe job written) job written := by
  match written with
  | 0 => exact update_self _ _ _
  | 1 => exact update_self _ _ _
  | 2 => exact update_self _ _ _
  | 3 => exact update_self _ _ _
  | 4 => exact update_self _ _ _
  | _ + 5 => exact update_self _ _ _

theorem Described.describe {workspace : Workspace} {job : Job rows} {written : Nat}
    (described : Described workspace job written) (open' : written < 6) :
    Described (workspace.describe job written) job (written + 1) := by
  intro field below
  by_cases isNew : field = written
  · rw [isNew]
    exact fieldWritten_describe workspace job written
  · have old := described field (by omega)
    interval_cases written <;> interval_cases field <;> first | exact old | exact absurd rfl isNew

variable {job : Job rows}

theorem Stored.starts (stored : Stored workspace job) : workspace.rowStarts job.slot = job.offset :=
  stored.described 0 (by decide)

theorem Stored.lengths (stored : Stored workspace job) :
    workspace.rowLengths job.slot = job.row.entries.length :=
  stored.described 1 (by decide)

theorem Stored.row (stored : Stored workspace job) : workspace.row job.slot = job.row := by
  have copied : (List.range job.row.entries.length).map
      (fun k => workspace.entries (job.offset + k)) = job.row.entries := by
    apply List.ext_getElem (by rw [List.length_map, List.length_range])
    intro k _ inside
    rw [List.getElem_map, List.getElem_range]
    exact stored.copied k inside _ (List.getElem?_eq_getElem inside)
  rw [Workspace.row, stored.starts, stored.lengths, copied,
    show workspace.sqrtQ job.slot = job.row.sqrtQ from
      stored.described 2 (by decide), show workspace.signs job.slot = job.row.sign from
      stored.described 3 (by decide), show workspace.val2Exps job.slot = job.row.val2Exp from
      stored.described 4 (by decide), show workspace.charBits job.slot = job.row.charBits from
      stored.described 5 (by decide)]

theorem Confined.copied (confined : Confined writer workspace workspace') {written : Nat}
    (copied : Copied workspace job written)
    (clear : Clear writer job.slot job.offset job.row.entries.length) :
    Copied workspace' job written := by
  intro k below entry isEntry
  rw [confined.entry clear (List.getElem?_eq_some_iff.mp isEntry).1]
  exact copied k below entry isEntry

theorem Confined.described (confined : Confined writer workspace workspace') {written : Nat}
    (described : Described workspace job written)
    (clear : Clear writer job.slot job.offset job.row.entries.length) :
    Described workspace' job written := by
  have other : ∀ job' ∈ writer, job.slot ≠ job'.slot := fun job' member => (clear job' member).1
  intro field below
  have old := described field below
  match field with
  | 0 => exact (confined.rowStarts _ other).trans old
  | 1 => exact (confined.rowLengths _ other).trans old
  | 2 => exact (confined.sqrtQ _ other).trans old
  | 3 => exact (confined.signs _ other).trans old
  | 4 => exact (confined.val2Exps _ other).trans old
  | _ + 5 => exact (confined.charBits _ other).trans old

theorem Confined.stored (confined : Confined writer workspace workspace')
    (stored : Stored workspace job)
    (clear : Clear writer job.slot job.offset job.row.entries.length) : Stored workspace' job where
  copied := confined.copied stored.copied clear
  described := confined.described stored.described clear

/-! ## Contents -/

/-- A slot whose row does not change any more. -/
def Owned (state : KernelState launch) (slot : Nat) : Prop :=
  slot < launch.device.counter.relations.toNat ∨
    ∃ thread job, (state.threads thread).storedJob = some job ∧ job.slot = slot

def Known (state : KernelState launch) : RowPtr rows → Prop
  | .original _ => True
  | .workspace slot => Owned state slot

structure Sourced (state : KernelState launch) (job : Job rows) : Prop where
  ptr1 : Known state job.ptr1
  ptr2 : Known state job.ptr2
  merges : mergeRows launch.context.mont
    (resolve launch.context state.memory.workspace job.ptr1)
    (resolve launch.context state.memory.workspace job.ptr2) = some job.row

structure Pointing (state : KernelState launch) (thread : launch.Thread)
    (ptr1 ptr2 : Option (RowPtr rows)) : Prop where
  first : state.memory.rowPtr (launch.candidate thread).r1 = ptr1
  second : state.memory.rowPtr (launch.candidate thread).r2 = ptr2

def Backed (state : KernelState launch) (thread : launch.Thread) : Phase rows → Prop
  | .readFirst ptr1 => state.memory.rowPtr (launch.candidate thread).r1 = ptr1
  | .readBoth ptr1 ptr2 => Pointing state thread (some ptr1) (some ptr2)
  | .merged ptr1 ptr2 row => Pointing state thread (some ptr1) (some ptr2) ∧
      mergeRows launch.context.mont (resolve launch.context state.memory.workspace ptr1)
        (resolve launch.context state.memory.workspace ptr2) = some row
  | .writing job written => Pointing state thread (some job.ptr1) (some job.ptr2) ∧
      Sourced state job ∧ Copied state.memory.workspace job written
  | .describing job written => Pointing state thread (some job.ptr1) (some job.ptr2) ∧
      Sourced state job ∧ Copied state.memory.workspace job job.row.entries.length ∧
      Described state.memory.workspace job written
  | .publishing job => Pointing state thread (some job.ptr1) (some job.ptr2) ∧ Sourced state job
  | .consuming job => Pointing state thread (some (.workspace job.slot)) (some job.ptr2) ∧
      Sourced state job
  | .weighing job _ => Pointing state thread (some (.workspace job.slot)) none
  | _ => True

structure Contents (state : KernelState launch) : Prop where
  locked : Locked state
  places : Places (fun thread => (state.threads thread).job) state.memory.counter
  starts : ∀ slot < launch.device.counter.relations.toNat,
    state.memory.workspace.rowStarts slot = launch.device.workspace.rowStarts slot
  lengths : ∀ slot < launch.device.counter.relations.toNat,
    state.memory.workspace.rowLengths slot = launch.device.workspace.rowLengths slot
  kept : ∀ slot < launch.device.counter.relations.toNat,
    state.memory.workspace.row slot = launch.device.workspace.row slot
  stored : ∀ {thread job}, (state.threads thread).storedJob = some job →
    Stored state.memory.workspace job
  pointed : ∀ {row ptr}, state.memory.rowPtr row = some ptr →
    launch.device.rowPtr row = some ptr ∨ ∃ thread job,
      (state.threads thread).storedJob = some job ∧ (launch.candidate thread).r1 = row ∧
        ptr = .workspace job.slot
  backed : ∀ thread, Backed state thread (state.threads thread)

theorem contents_start (valid : launch.device.Valid launch.context) :
    Contents (kernelStart launch) where
  locked := locked_start
  places := places_start valid
  starts _ _ := rfl
  lengths _ _ := rfl
  kept _ _ := rfl
  stored isStored := nomatch isStored
  pointed isPtr := Or.inl isPtr
  backed _ := trivial

def KernelState.advance (state : KernelState launch) (thread : launch.Thread)
    (memory' : Memory rows) (phase' : Phase rows) : KernelState launch :=
  ⟨memory', update state.threads thread phase'⟩

theorem threads_advance_self (state : KernelState launch) (thread : launch.Thread)
    (memory' : Memory rows) (phase' : Phase rows) :
    (state.advance thread memory' phase').threads thread = phase' :=
  update_self _ _ _

theorem threads_advance (state : KernelState launch) (thread : launch.Thread)
    (memory' : Memory rows) (phase' : Phase rows) (other : launch.Thread) :
    (state.advance thread memory' phase').threads other =
      if other = thread then phase' else state.threads other :=
  update_apply _ _ _ _

section Step

variable {state : KernelState launch} {thread : launch.Thread} {memory' : Memory rows}
  {phase' : Phase rows} (valid : launch.device.Valid launch.context)
  (contents : Contents state)
  (acts : Acts launch thread state.memory (state.threads thread) memory' phase')

include contents in
theorem Contents.known (valid : launch.device.Valid launch.context) {row : Fin rows}
    {ptr : RowPtr rows} (isPtr : state.memory.rowPtr row = some ptr) : Known state ptr := by
  rcases contents.pointed isPtr with old | ⟨other, job, isStored, -, rfl⟩
  · cases ptr with
    | original => trivial
    | workspace slot => exact Or.inl (valid.slot_lt old)
  · exact Or.inr ⟨other, job, isStored, rfl⟩

include acts in
theorem stored_advance {other : launch.Thread} {job : Job rows}
    (isStored : (state.threads other).storedJob = some job) :
    ((state.advance thread memory' phase').threads other).storedJob = some job := by
  change (update state.threads thread phase' other).storedJob = some job
  by_cases isOwn : other = thread
  · rw [isOwn, update_self]
    rw [isOwn] at isStored
    exact acts.storedJob isStored
  · rwa [update_of_ne isOwn]

include acts in
theorem Known.advance {ptr : RowPtr rows} (known : Known state ptr) :
    Known (state.advance thread memory' phase') ptr := by
  cases ptr with
  | original => trivial
  | workspace slot =>
    rcases known with old | ⟨other, job, isStored, isSlot⟩
    · exact Or.inl old
    · exact Or.inr ⟨other, job, stored_advance acts isStored, isSlot⟩

include valid contents in
theorem Contents.clear_kept {slot : Nat} (inside : slot < launch.device.counter.relations.toNat) :
    Clear (state.threads thread).openJob slot (state.memory.workspace.rowStarts slot)
      (state.memory.workspace.rowLengths slot) := by
  intro job isOpen
  have isJob := Phase.job_of_open isOpen
  have above := contents.places.slot_ge isJob
  have offset := contents.places.offset_ge isJob
  have ends := valid.end_le slot inside
  rw [contents.starts slot inside, contents.lengths slot inside]
  exact ⟨by omega, Or.inl (by omega)⟩

include contents in
theorem Contents.clear_job {other : launch.Thread} {job : Job rows} (different : other ≠ thread)
    (isJob : (state.threads other).job = some job) :
    Clear (state.threads thread).openJob job.slot job.offset job.row.entries.length :=
  fun _ isOpen => contents.places.apart isJob (Phase.job_of_open isOpen) different

include contents in
theorem Contents.clear_stored {other : launch.Thread} {job : Job rows}
    (isStored : (state.threads other).storedJob = some job) :
    Clear (state.threads thread).openJob job.slot job.offset job.row.entries.length := by
  by_cases isOwn : other = thread
  · intro job' isOpen
    rw [← isOwn] at isOpen
    cases isPhase : state.threads other with
    | writing =>
      rw [isPhase] at isStored
      cases isStored
    | describing =>
      rw [isPhase] at isStored
      cases isStored
    | _ =>
      rw [isPhase] at isOpen
      cases isOpen
  · exact contents.clear_job isOwn (Phase.job_of_stored isStored)

include contents acts in
theorem Contents.stored_frame {other : launch.Thread} {job : Job rows}
    (isStored : (state.threads other).storedJob = some job) :
    Stored memory'.workspace job :=
  acts.confined.stored (contents.stored isStored) (contents.clear_stored isStored)

include valid contents acts in
theorem Contents.resolve_eq {ptr : RowPtr rows} (known : Known state ptr) :
    resolve launch.context memory'.workspace ptr =
      resolve launch.context state.memory.workspace ptr := by
  cases ptr with
  | original => rfl
  | workspace slot =>
    rcases known with old | ⟨other, job, isStored, rfl⟩
    · exact acts.confined.row (contents.clear_kept valid old)
    · exact (contents.stored_frame acts isStored).row.trans
        (contents.stored isStored).row.symm

include valid contents acts in
theorem Sourced.advance {job : Job rows} (sourced : Sourced state job) :
    Sourced (state.advance thread memory' phase') job where
  ptr1 := sourced.ptr1.advance acts
  ptr2 := sourced.ptr2.advance acts
  merges := by
    change mergeRows _ (resolve _ memory'.workspace _) (resolve _ memory'.workspace _) = _
    rw [contents.resolve_eq valid acts sourced.ptr1, contents.resolve_eq valid acts sourced.ptr2]
    exact sourced.merges

include contents acts in
theorem Contents.rowPtr_eq {other : launch.Thread} {row : Fin rows} (different : other ≠ thread)
    (holds : row ∈ state.held other) : memory'.rowPtr row = state.memory.rowPtr row := by
  apply acts.rowPtr
  intro also
  exact different (contents.locked.exclusive holds also)

include contents acts in
theorem Pointing.advance {other : launch.Thread} (different : other ≠ thread)
    (holds : state.held other = [(launch.candidate other).r1, (launch.candidate other).r2])
    {ptr1 ptr2 : Option (RowPtr rows)} (pointing : Pointing state other ptr1 ptr2) :
    Pointing (state.advance thread memory' phase') other ptr1 ptr2 where
  first := (contents.rowPtr_eq acts different (by rw [holds]; simp)).trans pointing.first
  second := (contents.rowPtr_eq acts different (by rw [holds]; simp)).trans pointing.second

include valid contents acts in
/-- What another thread has read and written stays as it was. -/
theorem Contents.backed_frame {other : launch.Thread} (different : other ≠ thread) :
    Backed (state.advance thread memory' phase') other (state.threads other) := by
  have backed := contents.backed other
  have isHeld : state.held other = (state.threads other).held (launch.candidate other) := rfl
  have clear : ∀ {job}, (state.threads other).job = some job →
      Clear (state.threads thread).openJob job.slot job.offset job.row.entries.length :=
    contents.clear_job different
  have confined := acts.confined
  cases isPhase : state.threads other with
  | readFirst ptr1 =>
    rw [isPhase] at backed isHeld
    exact (contents.rowPtr_eq acts different (by rw [isHeld]; simp [Phase.held])).trans backed
  | readBoth ptr1 ptr2 =>
    rw [isPhase] at backed isHeld
    exact Pointing.advance contents acts different isHeld backed
  | merged ptr1 ptr2 row =>
    rw [isPhase] at backed isHeld
    refine ⟨backed.1.advance contents acts different isHeld, ?_⟩
    change mergeRows _ (resolve _ memory'.workspace _) (resolve _ memory'.workspace _) = _
    rw [contents.resolve_eq valid acts (contents.known valid backed.1.first),
      contents.resolve_eq valid acts (contents.known valid backed.1.second)]
    exact backed.2
  | writing job written =>
    rw [isPhase] at backed isHeld clear
    exact ⟨backed.1.advance contents acts different isHeld,
      backed.2.1.advance valid contents acts, confined.copied backed.2.2 (clear rfl)⟩
  | describing job written =>
    rw [isPhase] at backed isHeld clear
    exact ⟨backed.1.advance contents acts different isHeld,
      backed.2.1.advance valid contents acts, confined.copied backed.2.2.1 (clear rfl),
      confined.described backed.2.2.2 (clear rfl)⟩
  | publishing job =>
    rw [isPhase] at backed isHeld
    exact ⟨backed.1.advance contents acts different isHeld, backed.2.advance valid contents acts⟩
  | consuming job =>
    rw [isPhase] at backed isHeld
    exact ⟨backed.1.advance contents acts different isHeld, backed.2.advance valid contents acts⟩
  | weighing job updates =>
    rw [isPhase] at backed isHeld
    exact Pointing.advance contents acts different isHeld backed
  | _ => trivial

theorem Pointing.congr {ptr1 ptr2 : Option (RowPtr rows)}
    (pointing : Pointing state thread ptr1 ptr2)
    (same : memory'.rowPtr = state.memory.rowPtr) :
    Pointing (state.advance thread memory' phase') thread ptr1 ptr2 where
  first := (congrFun same _).trans pointing.first
  second := (congrFun same _).trans pointing.second

include contents in
theorem Contents.different {phase : Phase rows} (isPhase : state.threads thread = phase)
    (holds : phase.held (launch.candidate thread) =
      [(launch.candidate thread).r1, (launch.candidate thread).r2]) :
    (launch.candidate thread).r1 ≠ (launch.candidate thread).r2 := by
  have nodup := contents.locked.held_nodup isPhase
  rw [holds] at nodup
  exact (List.pairwise_cons.mp nodup).1 _ (List.mem_singleton_self _)

include valid contents acts in
/-- What the acting thread has read and written, after its action. -/
theorem Contents.backed_own : Backed (state.advance thread memory' phase') thread phase' := by
  have backed := contents.backed thread
  have sourced : ∀ {job}, Sourced state job → Sourced (state.advance thread memory' phase') job :=
    fun before => before.advance valid contents acts
  have known : ∀ {ptr}, Known state ptr → Known (state.advance thread memory' phase') ptr :=
    fun before => before.advance acts
  generalize isPhase : state.threads thread = phase at acts backed
  cases acts with
  | readFirst => rfl
  | readBoth isPtr2 => exact ⟨backed, isPtr2⟩
  | merge merges => exact ⟨backed.congr rfl, merges⟩
  | reserve =>
    refine ⟨backed.1.congr rfl, ⟨?_, ?_, backed.2⟩, fun k below => absurd below (Nat.not_lt_zero k)⟩
    · exact known (contents.known valid backed.1.first)
    · exact known (contents.known valid backed.1.second)
  | @write job written entry isEntry =>
    refine ⟨backed.1.congr rfl, sourced backed.2.1, ?_⟩
    intro k below value isValue
    by_cases isNew : k = written
    · rw [isNew, isEntry] at isValue
      injection isValue with equal
      rw [isNew, ← equal]
      exact update_self _ _ _
    · have apart : job.offset + k ≠ job.offset + written := by omega
      exact (update_of_ne apart _ _).trans (backed.2.2 k (by omega) value isValue)
  | written complete =>
    refine ⟨backed.1.congr rfl, sourced backed.2.1, ?_,
      fun field below => absurd below (Nat.not_lt_zero field)⟩
    intro k below
    exact backed.2.2 k (by omega)
  | @describe job written open' =>
    refine ⟨backed.1.congr rfl, sourced backed.2.1, ?_, backed.2.2.2.describe open'⟩
    intro k below value isValue
    have same : (state.memory.workspace.describe job written).entries =
        state.memory.workspace.entries := by
      unfold Workspace.describe
      split <;> rfl
    exact (congrFun same _).trans (backed.2.2.1 k below value isValue)
  | described complete => exact ⟨backed.1.congr rfl, sourced backed.2.1⟩
  | publish job =>
    have different := contents.different isPhase rfl
    exact ⟨⟨update_self _ _ _, (update_of_ne different.symm _ _).trans backed.1.second⟩,
      sourced backed.2⟩
  | consume job =>
    have different := contents.different isPhase rfl
    exact ⟨(update_of_ne different _ _).trans backed.1.first, update_self _ _ _⟩
  | weigh job change => exact backed.congr (by cases change <;> rfl)
  | _ => trivial

include contents acts in
theorem Contents.places_advance :
    Places (fun other => ((state.advance thread memory' phase').threads other).job)
      memory'.counter := by
  have places := contents.places
  have backed := contents.backed thread
  have jobs : (fun other => ((state.advance thread memory' phase').threads other).job) =
      update (fun other => (state.threads other).job) thread phase'.job := by
    funext other
    change (update state.threads thread phase' other).job = _
    rw [update_apply, update_apply]
    split <;> rfl
  rw [jobs]
  have keeps : phase'.job = (state.threads thread).job → memory'.counter = state.memory.counter →
      Places (update (fun other => (state.threads other).job) thread phase'.job)
        memory'.counter := by
    intro same counter
    rw [same, counter, update_eq_self thread (fun other => (state.threads other).job)]
    exact places
  generalize isPhase : state.threads thread = phase at acts backed keeps
  cases acts with
  | reserve reserves =>
    exact places.reserve (by rw [isPhase]; rfl) (length_le_of_mergeRows backed.2).1 reserves
  | weigh job change => exact keeps rfl (by cases change <;> rfl)
  | @unlock fate => exact keeps (by cases fate <;> rfl) rfl
  | _ => exact keeps rfl rfl

include contents acts in
theorem Contents.stored_own {job : Job rows} (isStored : phase'.storedJob = some job) :
    Stored memory'.workspace job := by
  have backed := contents.backed thread
  have frame : ∀ {job}, (state.threads thread).storedJob = some job →
      Stored memory'.workspace job := contents.stored_frame acts
  generalize isPhase : state.threads thread = phase at acts backed frame
  cases acts with
  | described complete =>
    injection isStored with equal
    subst equal
    exact ⟨backed.2.2.1, fun field below => backed.2.2.2 field (by omega)⟩
  | publish => exact frame isStored
  | consume => exact frame isStored
  | weigh => exact frame isStored
  | weighed => exact frame isStored
  | @unlock fate => cases fate <;> exact frame isStored
  | finish => exact frame isStored
  | idle => exact frame isStored
  | _ => cases isStored

include contents acts in
theorem Contents.pointed_advance {row : Fin rows} {ptr : RowPtr rows}
    (isPtr : memory'.rowPtr row = some ptr) :
    launch.device.rowPtr row = some ptr ∨ ∃ other job,
      ((state.advance thread memory' phase').threads other).storedJob = some job ∧
        (launch.candidate other).r1 = row ∧ ptr = .workspace job.slot := by
  have keeps : state.memory.rowPtr row = some ptr →
      launch.device.rowPtr row = some ptr ∨ ∃ other job,
        ((state.advance thread memory' phase').threads other).storedJob = some job ∧
          (launch.candidate other).r1 = row ∧ ptr = .workspace job.slot := by
    intro old
    rcases contents.pointed old with kept | ⟨other, job, isStored, isRow, isSlot⟩
    · exact Or.inl kept
    · exact Or.inr ⟨other, job, stored_advance acts isStored, isRow, isSlot⟩
  generalize isPhase : state.threads thread = phase at acts
  cases acts with
  | publish job =>
    by_cases isOwn : row = (launch.candidate thread).r1
    · rw [isOwn] at isPtr
      have equal := (update_self _ _ state.memory.rowPtr).symm.trans isPtr
      injection equal with same
      refine Or.inr ⟨thread, job, ?_, isOwn.symm, same.symm⟩
      exact congrArg Phase.storedJob (threads_advance_self ..)
    · exact keeps ((update_of_ne isOwn _ _).symm.trans isPtr)
  | consume job =>
    by_cases isOwn : row = (launch.candidate thread).r2
    · rw [isOwn] at isPtr
      exact nomatch (update_self _ _ state.memory.rowPtr).symm.trans isPtr
    · exact keeps ((update_of_ne isOwn _ _).symm.trans isPtr)
  | weigh job change => exact keeps (by cases change <;> exact isPtr)
  | _ => exact keeps isPtr

include valid contents acts in
theorem Contents.advance : Contents (state.advance thread memory' phase') := by
  constructor
  · exact contents.locked.step (contents.locked.act rfl acts)
  · exact contents.places_advance acts
  · intro slot inside
    have clear : Clear (state.threads thread).openJob slot _ _ := contents.clear_kept valid inside
    exact (acts.confined.rowStarts slot fun job isOpen => (clear job isOpen).1).trans
      (contents.starts slot inside)
  · intro slot inside
    have clear : Clear (state.threads thread).openJob slot _ _ := contents.clear_kept valid inside
    exact (acts.confined.rowLengths slot fun job isOpen => (clear job isOpen).1).trans
      (contents.lengths slot inside)
  · intro slot inside
    exact (acts.confined.row (contents.clear_kept valid inside)).trans (contents.kept slot inside)
  · intro other job isStored
    change (update state.threads thread phase' other).storedJob = some job at isStored
    by_cases isOwn : other = thread
    · rw [isOwn, update_self] at isStored
      exact contents.stored_own acts isStored
    · rw [update_of_ne isOwn] at isStored
      exact contents.stored_frame acts isStored
  · exact contents.pointed_advance acts
  · intro other
    change Backed _ other (update state.threads thread phase' other)
    by_cases isOwn : other = thread
    · rw [isOwn, update_self]
      exact contents.backed_own valid acts
    · rw [update_of_ne isOwn]
      exact contents.backed_frame valid acts isOwn

end Step

end CudaMpqs.BatchMerge
