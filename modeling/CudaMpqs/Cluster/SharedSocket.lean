import Mathlib.Data.Fintype.Basic
import CudaMpqs.Foundation.Transition
import CudaMpqs.Cluster.TcpTransport

/-! # A socket that two threads send on

The worker's main thread and its I/O thread call `sendMsg` on one `TcpSocket`
without a lock; each `::send` is one step. -/

namespace CudaMpqs.SharedSocket

open TcpTransport Framing Transition

inductive Sender
  | main
  | io
deriving DecidableEq

instance : Fintype Sender :=
  ⟨{.main, .io}, by rintro (_ | _) <;> decide⟩

structure Call where
  frame : WireFrame
  written : List UInt8
  sending : Sending

structure Return where
  sender : Sender
  frame : WireFrame
  ok : Bool
deriving DecidableEq

/-- The socket, the calls on it and what they returned; `torn` records that a call
gave up inside its frame. -/
structure Socket where
  sendSeq : BitVec 32
  wire : List UInt8
  program : Sender → List Message
  call : Sender → Option Call
  returned : List Return
  torn : Bool

namespace Socket

def start (sendSeq : BitVec 32) (programs : Sender → List Message) : Socket :=
  ⟨sendSeq, [], programs, fun _ => none, [], false⟩

def enter (socket : Socket) (sender : Sender) : Socket :=
  match socket.call sender, socket.program sender with
  | none, message :: rest =>
    let frame := WireFrame.ofMessage socket.sendSeq message
    { socket with
      sendSeq := socket.sendSeq + 1
      program := Function.update socket.program sender rest
      call := Function.update socket.call sender (some ⟨frame, [], .start frame⟩) }
  | _, _ => socket

def advance (socket : Socket) (sender : Sender) (call : Call) : List UInt8 × Progress → Socket
  | (written, .going sending) =>
    { socket with
      wire := socket.wire ++ written
      call := Function.update socket.call sender
        (some ⟨call.frame, call.written ++ written, sending⟩) }
  | (written, .returned ok) =>
    { socket with
      wire := socket.wire ++ written
      call := Function.update socket.call sender none
      returned := socket.returned ++ [⟨sender, call.frame, ok⟩]
      torn := socket.torn || (!ok && call.written != []) }

def sent (socket : Socket) (sender : Sender) (result : SendResult) : Socket :=
  match socket.call sender with
  | none => socket
  | some call => socket.advance sender call (call.sending.resume result)

end Socket

inductive Input
  | enter (sender : Sender)
  | sent (sender : Sender) (result : SendResult)
deriving DecidableEq

def step (socket : Socket) : Input → Socket
  | .enter sender => socket.enter sender
  | .sent sender result => socket.sent sender result

/-! ## What the stream should be -/

def Socket.sentFrames (socket : Socket) : List WireFrame :=
  (socket.returned.filter Return.ok).map Return.frame

def Socket.taken (socket : Socket) (sender : Sender) : List Message :=
  ((socket.returned.filter (·.sender = sender)).map (·.frame.message)) ++
    (socket.call sender).toList.map (·.frame.message)

def Socket.Delivered (socket : Socket) : Prop :=
  ∀ reads, Cuts reads socket.wire → ∀ calls,
    receive calls [] reads <+: socket.sentFrames.map WireFrame.message ∧
      (socket.sentFrames.length + reads.length ≤ calls →
        receive calls [] reads = socket.sentFrames.map WireFrame.message)

/-- The bytes are whole frames and a prefix of one, the receiver recovers what was
sent, and each thread's messages keep their order. -/
structure Socket.WellFramed (socket : Socket) (programs : Sender → List Message) :
    Prop where
  framed : ∃ frames : List WireFrame, ∃ frame : WireFrame, ∃ tail,
    (∀ whole ∈ frames, whole.Checks) ∧ frame.Checks ∧ tail <+: frame.bytes ∧
      socket.wire = frames.flatMap WireFrame.bytes ++ tail
  delivered : socket.Delivered
  ordered : ∀ sender, socket.taken sender ++ socket.program sender = programs sender

/-! ## The invariant -/

structure Sound (frame : WireFrame) : Prop where
  checks : frame.Checks
  small : frame.payload.length ≤ kMaxPayloadBytes

structure Call.Valid (call : Call) : Prop where
  sound : Sound call.frame
  split : call.written ++ call.sending.left = call.frame.bytes
  unsent : call.sending.unsent ≠ []

structure Clear (socket : Socket) (sender : Sender) : Prop where
  whole : socket.torn = false
  others : ∀ other, other ≠ sender → ∀ call ∈ socket.call other, call.written = []

instance (socket : Socket) (sender : Sender) : Decidable (Clear socket sender) :=
  decidable_of_iff (socket.torn = false ∧
      ∀ other, other ≠ sender → ∀ call ∈ socket.call other, call.written = [])
    ⟨fun ⟨whole, others⟩ => ⟨whole, others⟩, fun ⟨whole, others⟩ => ⟨whole, others⟩⟩

inductive Tail (socket : Socket) : List UInt8 → Prop
  | boundary (whole : socket.torn = false)
      (none : ∀ sender, ∀ call ∈ socket.call sender, call.written = []) : Tail socket []
  | inside (sender : Sender) (call : Call) (current : socket.call sender = some call)
      (clear : Clear socket sender) : Tail socket call.written
  | gaveUp (frame : WireFrame) (tail : List UInt8) (torn : socket.torn = true)
      (sound : Sound frame) (isPrefix : tail <+: frame.bytes)
      (proper : tail ≠ frame.bytes) : Tail socket tail

structure Inv (socket : Socket) : Prop where
  small : ∀ sender, ∀ message ∈ socket.program sender, message.payload.length ≤ kMaxPayloadBytes
  calls : ∀ sender, ∀ call ∈ socket.call sender, call.Valid
  logged : ∀ frame ∈ socket.sentFrames, Sound frame
  wire : ∃ tail, Tail socket tail ∧ socket.wire = socket.sentFrames.flatMap WireFrame.bytes ++ tail

theorem valid_start {frame : WireFrame} (sound : Sound frame) :
    (⟨frame, [], .start frame⟩ : Call).Valid where
  sound := sound
  split := rfl
  unsent := nofun

theorem Call.Valid.proper {call : Call} (valid : call.Valid) :
    call.written <+: call.frame.bytes ∧ call.written ≠ call.frame.bytes := by
  refine ⟨⟨_, valid.split⟩, fun same => ?_⟩
  have split := valid.split
  rw [← same, List.append_right_eq_self, Sending.left, List.append_eq_nil_iff] at split
  exact valid.unsent split.1

variable {socket : Socket}

theorem Tail.eq_written {sender : Sender} {call : Call} {tail : List UInt8}
    (isTail : Tail socket tail) (current : socket.call sender = some call)
    (clear : Clear socket sender) : tail = call.written := by
  cases isTail with
  | boundary whole none => exact (none sender call current).symm
  | inside other its itsCurrent itsClear =>
    by_cases same : other = sender
    · rw [same, current, Option.some_inj] at itsCurrent
      rw [itsCurrent]
    · rw [clear.others other same its itsCurrent,
        itsClear.others sender (Ne.symm same) call current]
  | gaveUp frame tail torn =>
    rw [clear.whole] at torn
    cases torn

theorem Tail.congr {socket after : Socket} {tail : List UInt8}
    (isTail : Tail socket tail) (torn : after.torn = socket.torn)
    (kept : ∀ sender call, socket.call sender = some call →
      ∃ later, after.call sender = some later ∧ later.written = call.written)
    (added : ∀ sender later, after.call sender = some later → later.written = [] ∨
      ∃ call, socket.call sender = some call ∧ later.written = call.written) :
    Tail after tail := by
  have clears {sender : Sender} (clear : Clear socket sender) : Clear after sender := by
    refine ⟨torn.trans clear.whole, fun other different later current => ?_⟩
    rcases added other later current with fresh | ⟨call, before, same⟩
    · exact fresh
    · rw [same]
      exact clear.others other different call before
  cases isTail with
  | boundary whole none =>
    refine .boundary (torn.trans whole) fun sender later current => ?_
    rcases added sender later current with fresh | ⟨call, before, same⟩
    · exact fresh
    · rw [same]
      exact none sender call before
  | inside sender call current clear =>
    obtain ⟨later, now, same⟩ := kept sender call current
    rw [← same]
    exact .inside sender later now (clears clear)
  | gaveUp frame tail broken sound isPrefix proper =>
    exact .gaveUp frame tail (torn.trans broken) sound isPrefix proper

/-! ## Steps -/

theorem Inv.enter (inv : Inv socket) (sender : Sender) : Inv (socket.enter sender) := by
  unfold Socket.enter
  cases idle : socket.call sender with
  | some call => exact inv
  | none =>
    cases program : socket.program sender with
    | nil => exact inv
    | cons message rest =>
      have sound : Sound (WireFrame.ofMessage socket.sendSeq message) :=
        ⟨WireFrame.checks_ofMessage _ _,
          inv.small sender message (by rw [program]; exact List.mem_cons_self)⟩
      obtain ⟨tail, isTail, wire⟩ := inv.wire
      constructor
      · intro other message' member
        simp only [Function.update_apply] at member
        by_cases same : other = sender
        · rw [if_pos same] at member
          apply inv.small sender message'
          rw [program]
          exact List.mem_cons_of_mem _ member
        · rw [if_neg same] at member
          exact inv.small other message' member
      · intro other call current
        simp only [Function.update_apply] at current
        by_cases same : other = sender
        · rw [if_pos same] at current
          cases current
          exact valid_start sound
        · rw [if_neg same] at current
          exact inv.calls other call current
      · exact inv.logged
      · refine ⟨tail, isTail.congr rfl ?_ ?_, wire⟩
        · intro other call current
          have different : other ≠ sender := by
            rintro rfl
            rw [idle] at current
            cases current
          refine ⟨call, ?_, rfl⟩
          simp only [Function.update_apply]
          rw [if_neg different]
          exact current
        · intro other later current
          simp only [Function.update_apply] at current
          by_cases same : other = sender
          · rw [if_pos same] at current
            cases current
            exact .inl rfl
          · rw [if_neg same] at current
            exact .inr ⟨later, current, rfl⟩

theorem accepted_of_writes {sending : Sending} {result : SendResult}
    (writes : (sending.resume result).1 ≠ []) : ∃ count, result = .accepted (count + 1) := by
  cases result with
  | accepted count =>
    cases count with
    | zero => exact absurd rfl writes
    | succ count => exact ⟨count, rfl⟩
  | interrupted => exact absurd rfl writes
  | again =>
    simp only [Sending.resume] at writes
    by_cases stuck : 1000 < sending.eagainRetries + 1
    · rw [if_pos stuck] at writes
      exact absurd rfl writes
    · rw [if_neg stuck] at writes
      exact absurd rfl writes
  | failed => exact absurd rfl writes

section Advance

variable {sender : Sender} {call : Call} {tail : List UInt8}

theorem call_advance_of_ne {other : Sender} (different : other ≠ sender)
    (round : List UInt8 × Progress) :
    (socket.advance sender call round).call other = socket.call other := by
  rcases round with ⟨written, sending | ok⟩ <;>
    exact Function.update_of_ne different _ _

theorem tail_fails (current : socket.call sender = some call) (valid : call.Valid)
    (isTail : Tail socket tail) :
    Tail (socket.advance sender call ([], .returned false)) tail := by
  have gone : (socket.advance sender call ([], .returned false)).call sender = none :=
    Function.update_self _ _ _
  have others {other : Sender} {its : Call}
      (now : (socket.advance sender call ([], .returned false)).call other = some its) :
      other ≠ sender ∧ socket.call other = some its := by
    have different : other ≠ sender := by
      rintro rfl
      rw [gone] at now
      cases now
    exact ⟨different, call_advance_of_ne different _ ▸ now⟩
  by_cases fresh : call.written = []
  · have torn : (socket.advance sender call ([], .returned false)).torn = socket.torn := by
      simp [Socket.advance, fresh]
    cases isTail with
    | boundary whole none =>
      exact .boundary (torn.trans whole) fun other its now =>
        none other its (others now).2
    | inside other its itsCurrent itsClear =>
      by_cases same : other = sender
      · rw [same, current, Option.some_inj] at itsCurrent
        rw [← itsCurrent, fresh]
        rw [same] at itsClear
        exact .boundary (torn.trans itsClear.whole) fun one its now =>
          itsClear.others one (others now).1 its (others now).2
      · refine .inside other its ?_ ⟨torn.trans itsClear.whole, ?_⟩
        · rw [call_advance_of_ne same]
          exact itsCurrent
        · intro one different its now
          exact itsClear.others one different its (others now).2
    | gaveUp frame tail broken sound isPrefix proper =>
      exact .gaveUp frame tail (torn.trans broken) sound isPrefix proper
  · have torn : (socket.advance sender call ([], .returned false)).torn = true := by
      simp [Socket.advance, fresh]
    cases isTail with
    | boundary whole none => exact absurd (none sender call current) fresh
    | inside other its itsCurrent itsClear =>
      by_cases same : other = sender
      · rw [same, current, Option.some_inj] at itsCurrent
        rw [← itsCurrent]
        exact .gaveUp call.frame call.written torn valid.sound valid.proper.1
          valid.proper.2
      · exact absurd (itsClear.others sender (Ne.symm same) call current) fresh
    | gaveUp frame tail broken sound isPrefix proper =>
      exact .gaveUp frame tail torn sound isPrefix proper

theorem tail_last (clear : Clear socket sender) (written : List UInt8) :
    Tail (socket.advance sender call (written, .returned true)) [] := by
  refine .boundary ?_ fun other its now => ?_
  · simp [Socket.advance, clear.whole]
  · by_cases same : other = sender
    · rw [same] at now
      have gone : (socket.advance sender call (written, .returned true)).call sender = none :=
        Function.update_self _ _ _
      rw [gone] at now
      cases now
    · rw [call_advance_of_ne same] at now
      exact clear.others other same its now

theorem tail_on (clear : Clear socket sender) (written : List UInt8) (after : Sending) :
    Tail (socket.advance sender call (written, .going after)) (call.written ++ written) := by
  refine .inside sender ⟨call.frame, call.written ++ written, after⟩ ?_
    ⟨clear.whole, fun other different its now => ?_⟩
  · exact Function.update_self _ _ _
  · rw [call_advance_of_ne different] at now
    exact clear.others other different its now

theorem tail_quiet (current : socket.call sender = some call) (isTail : Tail socket tail)
    (after : Sending) : Tail (socket.advance sender call ([], .going after)) tail := by
  have now : (socket.advance sender call ([], .going after)).call sender =
      some ⟨call.frame, call.written ++ [], after⟩ := Function.update_self _ _ _
  refine isTail.congr rfl ?_ ?_
  · intro other its before
    by_cases same : other = sender
    · rw [same, current, Option.some_inj] at before
      rw [same]
      exact ⟨_, now, by rw [← before, List.append_nil]⟩
    · exact ⟨its, by rw [call_advance_of_ne same]; exact before, rfl⟩
  · intro other later present
    right
    by_cases same : other = sender
    · rw [same, now, Option.some_inj] at present
      rw [same]
      exact ⟨call, current, by rw [← present, List.append_nil]⟩
    · rw [call_advance_of_ne same] at present
      exact ⟨later, present, rfl⟩

theorem calls_advance (valid : ∀ sender, ∀ call ∈ socket.call sender, call.Valid)
    (round : List UInt8 × Progress)
    (mine : ∀ later ∈ (socket.advance sender call round).call sender, later.Valid) :
    ∀ other, ∀ later ∈ (socket.advance sender call round).call other, later.Valid := by
  intro other later present
  by_cases same : other = sender
  · rw [same] at present
    exact mine later present
  · rw [call_advance_of_ne same] at present
    exact valid other later present

end Advance

def Exclusive (socket : Socket) : Input → Prop
  | .sent sender (.accepted (_ + 1)) => (socket.call sender).isSome → Clear socket sender
  | _ => True

instance (socket : Socket) : ∀ input, Decidable (Exclusive socket input)
  | .sent sender (.accepted (_ + 1)) =>
    inferInstanceAs (Decidable ((socket.call sender).isSome → Clear socket sender))
  | .sent _ (.accepted 0) | .sent _ .interrupted | .sent _ .again | .sent _ .failed
  | .enter _ => inferInstanceAs (Decidable True)

theorem Inv.sent (inv : Inv socket) (sender : Sender) (result : SendResult)
    (exclusive : Exclusive socket (.sent sender result)) : Inv (socket.sent sender result) := by
  unfold Socket.sent
  cases current : socket.call sender with
  | none => exact inv
  | some call =>
    have valid := inv.calls sender call current
    obtain ⟨tail, isTail, wire⟩ := inv.wire
    have clear : (call.sending.resume result).1 ≠ [] → Clear socket sender := by
      intro writes
      obtain ⟨count, rfl⟩ := accepted_of_writes writes
      exact exclusive (by rw [current]; rfl)
    have round := call.sending.resume_round result
    simp only
    generalize call.sending.resume result = resumed at round clear ⊢
    cases round with
    | fails =>
      refine ⟨inv.small, calls_advance inv.calls _ ?_, ?_, tail,
        tail_fails current valid isTail, ?_⟩
      · intro later present
        have gone : (socket.advance sender call ([], .returned false)).call sender =
            none := Function.update_self _ _ _
        rw [gone] at present
        cases present
      · have frames : (socket.advance sender call ([], .returned false)).sentFrames =
            socket.sentFrames := by
          simp [Socket.sentFrames, Socket.advance]
        rw [frames]
        exact inv.logged
      · have frames : (socket.advance sender call ([], .returned false)).sentFrames =
            socket.sentFrames := by
          simp [Socket.sentFrames, Socket.advance]
        rw [frames, ← wire]
        exact List.append_nil _
    | last written all =>
      have writes : written ≠ [] := by
        rw [all, Sending.left]
        exact fun none => valid.unsent (List.append_eq_nil_iff.mp none).1
      have frames : (socket.advance sender call (written, .returned true)).sentFrames =
          socket.sentFrames ++ [call.frame] := by
        simp [Socket.sentFrames, Socket.advance]
      refine ⟨inv.small, calls_advance inv.calls _ ?_, ?_, [],
        tail_last (clear writes) written, ?_⟩
      · intro later present
        have gone : (socket.advance sender call (written, .returned true)).call sender =
            none := Function.update_self _ _ _
        rw [gone] at present
        cases present
      · rw [frames]
        intro frame member
        rcases List.mem_append.mp member with member | member
        · exact inv.logged frame member
        · rw [List.mem_singleton.mp member]
          exact valid.sound
      · have bytes : call.written ++ written = call.frame.bytes := by
          rw [all]
          exact valid.split
        rw [frames, List.flatMap_append, List.flatMap_singleton, ← bytes, List.append_nil]
        change socket.wire ++ written = _
        rw [wire, isTail.eq_written current (clear writes), List.append_assoc]
    | on written after split more =>
      have mine : (⟨call.frame, call.written ++ written, after⟩ : Call).Valid := by
        refine ⟨valid.sound, ?_, more valid.unsent⟩
        rw [List.append_assoc, split]
        exact valid.split
      have now : (socket.advance sender call (written, .going after)).call sender =
          some ⟨call.frame, call.written ++ written, after⟩ := Function.update_self _ _ _
      by_cases quiet : written = []
      · rw [quiet] at now mine ⊢
        refine ⟨inv.small, calls_advance inv.calls _ ?_, inv.logged, tail,
          tail_quiet current isTail after, ?_⟩
        · intro later present
          rw [now, Option.mem_some] at present
          rw [← present]
          exact mine
        · change socket.wire ++ [] = _
          rw [List.append_nil, wire]
          rfl
      · refine ⟨inv.small, calls_advance inv.calls _ ?_, inv.logged, _,
          tail_on (clear quiet) written after, ?_⟩
        · intro later present
          rw [now, Option.mem_some] at present
          rw [← present]
          exact mine
        · change socket.wire ++ written = _
          rw [wire, isTail.eq_written current (clear quiet), List.append_assoc]
          rfl

theorem Inv.step {socket : Socket} (inv : Inv socket) (input : Input)
    (exclusive : Exclusive socket input) : Inv (step socket input) := by
  cases input with
  | enter sender => exact inv.enter sender
  | sent sender result => exact inv.sent sender result exclusive

def Small (programs : Sender → List Message) : Prop :=
  ∀ sender, ∀ message ∈ programs sender, message.payload.length ≤ kMaxPayloadBytes

instance (programs : Sender → List Message) : Decidable (Small programs) :=
  inferInstanceAs (Decidable (∀ sender, ∀ message ∈ programs sender,
    message.payload.length ≤ kMaxPayloadBytes))

theorem inv_start (sendSeq : BitVec 32) {programs : Sender → List Message}
    (small : Small programs) : Inv (.start sendSeq programs) where
  small := small
  calls := fun _ _ current => nomatch current
  logged := fun _ member => absurd member List.not_mem_nil
  wire := ⟨[], .boundary rfl (fun _ _ current => nomatch current), rfl⟩

/-! ## What a state of the invariant promises -/

theorem Tail.part (inv : Inv socket) {tail : List UInt8} (isTail : Tail socket tail) :
    ∃ frame, Sound frame ∧ tail <+: frame.bytes ∧ tail ≠ frame.bytes := by
  cases isTail with
  | boundary whole none =>
    exact ⟨.ofMessage 0 ⟨0, []⟩, ⟨rfl, Nat.zero_le _⟩, List.nil_prefix, nofun⟩
  | inside sender call current clear =>
    have valid := inv.calls sender call current
    exact ⟨call.frame, valid.sound, valid.proper.1, valid.proper.2⟩
  | gaveUp frame tail torn sound isPrefix proper => exact ⟨frame, sound, isPrefix, proper⟩

theorem Inv.delivered (inv : Inv socket) : socket.Delivered := by
  intro reads cuts calls
  obtain ⟨tail, isTail, stream⟩ := inv.wire
  obtain ⟨frame, sound, isPrefix, proper⟩ := isTail.part inv
  have delimited : ∀ piece ∈ socket.sentFrames.map WireFrame.piece,
      Delimited parseFrame piece := by
    intro piece member
    obtain ⟨sentFrame, inside, rfl⟩ := List.mem_map.mp member
    exact delimited_piece (inv.logged sentFrame inside).small
  have incomplete : Incomplete parseFrame tail :=
    (delimited_piece sound.small).incomplete isPrefix proper
  have carries : Carries (socket.sentFrames.map WireFrame.piece) tail [] reads :=
    ⟨socket.wire, cuts, by rw [List.nil_append, stream, Framing.wire, List.flatMap_map]; rfl⟩
  have messages : (socket.sentFrames.map WireFrame.piece).filterMap Piece.message =
      socket.sentFrames.map WireFrame.message := by
    rw [List.filterMap_map, ← List.filterMap_eq_map]
    apply List.filterMap_congr
    intro sentFrame member
    exact if_pos (inv.logged sentFrame member).checks
  have yields := receive_pieces delimited incomplete calls [] reads carries
  rwa [messages, List.length_map] at yields

theorem taken_advance {sender : Sender} {call : Call} (current : socket.call sender = some call)
    (round : List UInt8 × Progress) (other : Sender) :
    (socket.advance sender call round).taken other = socket.taken other := by
  by_cases same : other = sender
  · rw [same]
    rcases round with ⟨written, after | ok⟩
    · simp [Socket.taken, Socket.advance, current]
    · simp [Socket.taken, Socket.advance, current]
  · unfold Socket.taken
    rw [call_advance_of_ne same]
    rcases round with ⟨written, after | ok⟩
    · rfl
    · simp [Socket.advance, Ne.symm same]

private theorem taken_enter {sender : Sender} {message : Message} {rest : List Message}
    (idle : socket.call sender = none) (program : socket.program sender = message :: rest)
    (other : Sender) :
    (socket.enter sender).taken other ++ (socket.enter sender).program other =
      socket.taken other ++ socket.program other := by
  unfold Socket.taken Socket.enter
  rw [idle, program]
  by_cases same : other = sender
  · simp [same, idle, program]
  · simp [Function.update_of_ne same]

private theorem ordered_step {programs : Sender → List Message}
    (ordered : ∀ sender, socket.taken sender ++ socket.program sender = programs sender)
    (input : Input) (other : Sender) :
    (step socket input).taken other ++ (step socket input).program other = programs other := by
  rw [← ordered other]
  cases input with
  | enter sender =>
    rw [step]
    cases idle : socket.call sender with
    | some call => rw [Socket.enter, idle]
    | none =>
      cases program : socket.program sender with
      | nil => rw [Socket.enter, idle, program]
      | cons message rest => exact taken_enter idle program other
  | sent sender result =>
    rw [step, Socket.sent]
    cases current : socket.call sender with
    | none => rfl
    | some call =>
      simp only [taken_advance current]
      rcases call.sending.resume result with ⟨written, after | ok⟩ <;> rfl

private theorem ordered_run (sendSeq : BitVec 32) (programs : Sender → List Message)
    (inputs : List Input) :
    ∀ sender, (run step (.start sendSeq programs) inputs).taken sender ++
      (run step (.start sendSeq programs) inputs).program sender = programs sender :=
  @run_invariant _ _ step (fun socket => ∀ sender,
      socket.taken sender ++ socket.program sender = programs sender)
    (fun _ input ordered => ordered_step ordered input) _ (fun _ => rfl) inputs

/-- While no thread writes inside the frame of another call, the stream is framed. -/
theorem run_wellFramed (sendSeq : BitVec 32) (programs : Sender → List Message)
    (small : Small programs) (inputs : List Input)
    (exclusive : Meets step Exclusive (.start sendSeq programs) inputs) :
    (run step (.start sendSeq programs) inputs).WellFramed programs := by
  have inv := exclusive.invariant (fun _ input guarded inv => inv.step input guarded)
    (inv_start sendSeq small)
  obtain ⟨tail, isTail, stream⟩ := inv.wire
  obtain ⟨frame, sound, isPrefix, -⟩ := isTail.part inv
  exact ⟨⟨_, frame, tail, fun whole member => (inv.logged whole member).checks,
    sound.checks, isPrefix, stream⟩, inv.delivered, ordered_run sendSeq programs inputs⟩

def smallPrograms : Sender → List Message
  | .main => [⟨0x15, []⟩, ⟨0x14, [3]⟩]
  | .io => [⟨0x30, [1, 2]⟩]

def takingTurns : List Input :=
  [.enter .main, .sent .main (.accepted 5), .enter .io, .sent .main (.accepted 6),
    .sent .main (.accepted 4), .sent .io .again, .sent .io (.accepted 13), .enter .main,
    .sent .io (.accepted 4), .sent .main (.accepted 3)]

theorem run_wellFramed_takingTurns :
    (run step (.start 0 smallPrograms) takingTurns).WellFramed smallPrograms :=
  run_wellFramed 0 smallPrograms (by decide +kernel) takingTurns (by decide +kernel)

def interrupting : List Input :=
  [.enter .main, .enter .io, .sent .main (.accepted 11), .sent .io (.accepted 13),
    .sent .io (.accepted 4), .sent .main (.accepted 4)]

theorem run_interrupting_not_wellFramed :
    ¬ (run step (.start 0 smallPrograms) interrupting).WellFramed smallPrograms := by
  intro wellFramed
  have yields := (wellFramed.delivered _ (cuts_readAll _) 10).2 (by decide +kernel)
  revert yields
  decide +kernel

/-! ## After a call that gave up -/

def Sequential (socket : Socket) : Input → Prop
  | .enter _ => ∀ other, (socket.call other).isNone
  | .sent _ _ => True

def Unused (socket : Socket) : Input → Prop
  | .sent sender (.accepted (_ + 1)) => (socket.call sender).isSome → socket.torn = false
  | _ => True

instance (socket : Socket) : ∀ input, Decidable (Sequential socket input)
  | .enter _ => inferInstanceAs (Decidable (∀ other, (socket.call other).isNone))
  | .sent _ _ => inferInstanceAs (Decidable True)

instance (socket : Socket) : ∀ input, Decidable (Unused socket input)
  | .sent sender (.accepted (_ + 1)) =>
    inferInstanceAs (Decidable ((socket.call sender).isSome → socket.torn = false))
  | .sent _ (.accepted 0) | .sent _ .interrupted | .sent _ .again | .sent _ .failed
  | .enter _ => inferInstanceAs (Decidable True)

def Alone (socket : Socket) : Prop :=
  ∀ sender call, socket.call sender = some call → ∀ other, other ≠ sender → socket.call other = none

theorem Alone.step {socket : Socket} (alone : Alone socket) (input : Input)
    (sequential : Sequential socket input) : Alone (step socket input) := by
  cases input with
  | enter sender =>
    have idle (other : Sender) : socket.call other = none :=
      Option.isNone_iff_eq_none.mp (sequential other)
    have others (other : Sender) (different : other ≠ sender) :
        (socket.enter sender).call other = none := by
      unfold Socket.enter
      rw [idle sender]
      cases socket.program sender with
      | nil => exact idle other
      | cons message rest =>
        exact (Function.update_of_ne different _ _).trans (idle other)
    intro one call current other different
    by_cases same : one = sender
    · exact others other (same ▸ different)
    · rw [CudaMpqs.SharedSocket.step, others one same] at current
      cases current
  | sent sender result =>
    rw [CudaMpqs.SharedSocket.step, Socket.sent]
    cases current : socket.call sender with
    | none => exact alone
    | some call =>
      have others (other : Sender) (different : other ≠ sender) :
          (socket.advance sender call (call.sending.resume result)).call other = none := by
        rw [call_advance_of_ne different]
        exact alone sender call current other different
      intro one its now other different
      by_cases same : one = sender
      · exact others other (same ▸ different)
      · simp only [others one same] at now
        cases now

private theorem exclusive_iff_unused (alone : Alone socket) (input : Input) :
    Exclusive socket input ↔ Unused socket input := by
  cases input with
  | enter sender => exact Iff.rfl
  | sent sender result =>
    cases result with
    | accepted count =>
      cases count with
      | zero => exact Iff.rfl
      | succ count =>
        refine forall_congr' fun busy => ⟨fun clear => clear.whole, fun whole => ?_⟩
        obtain ⟨call, current⟩ := Option.isSome_iff_exists.mp busy
        refine ⟨whole, fun other different its now => ?_⟩
        rw [alone sender call current other different] at now
        cases now
    | interrupted => exact Iff.rfl
    | again => exact Iff.rfl
    | failed => exact Iff.rfl

/-- A connection that is not used after a torn frame delivers every message that was
sent. -/
theorem run_delivered (sendSeq : BitVec 32) (programs : Sender → List Message)
    (small : Small programs) (inputs : List Input)
    (sequential : Meets step Sequential (.start sendSeq programs) inputs)
    (unused : Meets step Unused (.start sendSeq programs) inputs) :
    (run step (.start sendSeq programs) inputs).Delivered := by
  have alone : Alone (.start sendSeq programs) := fun _ _ current => nomatch current
  have exclusive : Meets step Exclusive (.start sendSeq programs) inputs :=
    (@Meets.iff_of_invariant _ _ step Sequential Exclusive Unused Alone
      (fun _ input allowed _ alone => alone.step input allowed)
      (fun _ input _ alone => exclusive_iff_unused alone input) _ _ sequential alone).mpr
      unused
  exact (exclusive.invariant (fun _ input guarded inv => inv.step input guarded)
    (inv_start sendSeq small)).delivered

def stoppingShort : List Input :=
  [.enter .main, .sent .main (.accepted 11), .sent .main (.accepted 4), .enter .io,
    .sent .io (.accepted 5), .sent .io .failed]

theorem run_delivered_stoppingShort : (run step (.start 0 smallPrograms) stoppingShort).Delivered :=
  run_delivered 0 smallPrograms (by decide +kernel) stoppingShort (by decide +kernel)
    (by decide +kernel)

def sendingOn : List Input :=
  [.enter .main, .sent .main (.accepted 5), .sent .main .failed, .enter .main,
    .sent .main (.accepted 12), .sent .main (.accepted 4)]

theorem run_sendingOn_not_delivered :
    (run step (.start 0 smallPrograms) sendingOn).sentFrames.map WireFrame.message = [⟨0x14, [3]⟩] ∧
      ¬ (run step (.start 0 smallPrograms) sendingOn).Delivered := by
  refine ⟨by decide +kernel, fun delivered => ?_⟩
  have yields := (delivered _ (cuts_readAll _) 10).2 (by decide +kernel)
  revert yields
  decide +kernel

end CudaMpqs.SharedSocket
