import Mathlib.Data.List.GetD
import CudaMpqs.Foundation.ByteStream
import CudaMpqs.Foundation.Framing

/-! # Framed messages over TCP

`TcpSocket` of `tcp_transport.cpp`: frames with a checksum, the transfers of
`sendMsg` and the buffered `recvMsg`. -/

namespace CudaMpqs.TcpTransport

open ByteStream Framing

/-! ## Frames -/

def crc32Table (i : BitVec 32) : BitVec 32 :=
  (List.range 8).foldl
    (fun crc _ => (crc >>> 1) ^^^ (if crc &&& 1 != 0 then 0xEDB88320 else 0)) i

def computeCRC32 (data : List UInt8) : BitVec 32 :=
  data.foldl (fun (crc : BitVec 32) byte =>
    (crc >>> 8) ^^^ crc32Table ((crc ^^^ BitVec.ofNat 32 byte.toNat) &&& 0xFF))
    0xFFFFFFFF ^^^ 0xFFFFFFFF

example : computeCRC32 [49, 50, 51, 52, 53, 54, 55, 56, 57] = 0xCBF43926 := by
  decide +kernel

structure FrameHeader where
  magic : BitVec 16
  msgType : BitVec 8
  seqNo : BitVec 32
  payloadLen : BitVec 32
deriving DecidableEq

def kProtocolMagic : BitVec 16 := 0x4D52

def kCRC32Size : Nat := 4

def kMaxPayloadBytes : Nat := 64 * 1024 * 1024

namespace FrameHeader

def size : Nat := 11

def bytes (hdr : FrameHeader) : List UInt8 :=
  littleEndian 2 hdr.magic.toNat ++ littleEndian 1 hdr.msgType.toNat ++
    littleEndian 4 hdr.seqNo.toNat ++ littleEndian 4 hdr.payloadLen.toNat

def ofBytes (buffer : List UInt8) : FrameHeader where
  magic := BitVec.ofNat 16 (value (buffer.take 2))
  msgType := BitVec.ofNat 8 (value ((buffer.drop 2).take 1))
  seqNo := BitVec.ofNat 32 (value ((buffer.drop 3).take 4))
  payloadLen := BitVec.ofNat 32 (value ((buffer.drop 7).take 4))

@[simp] theorem length_bytes (hdr : FrameHeader) : hdr.bytes.length = size := by
  simp [bytes, size]

theorem take_drop_field {before field after : List UInt8} {start width : Nat}
    (place : before.length = start) (length : field.length = width) :
    ((before ++ (field ++ after)).drop start).take width = field := by
  rw [List.drop_left' place, List.take_left' length]

theorem ofBytes_bytes (hdr : FrameHeader) (rest : List UInt8) :
    ofBytes (hdr.bytes ++ rest) = hdr := by
  have field {width bits : Nat} (number : BitVec bits) (wide : 2 ^ bits = 256 ^ width) :
      BitVec.ofNat bits (value (littleEndian width number.toNat)) = number := by
    rw [value_littleEndian (wide ▸ number.isLt), BitVec.ofNat_toNat, BitVec.setWidth_eq]
  unfold ofBytes bytes
  simp only [List.append_assoc]
  rcases hdr with ⟨magic, msgType, seqNo, payloadLen⟩
  congr 1
  · rw [List.take_left' (length_littleEndian 2 _)]
    exact field magic rfl
  · rw [take_drop_field (length_littleEndian 2 _) (length_littleEndian 1 _)]
    exact field msgType rfl
  · rw [← List.append_assoc, take_drop_field (by simp) (length_littleEndian 4 _)]
    exact field seqNo rfl
  · rw [← List.append_assoc, ← List.append_assoc,
      take_drop_field (by simp) (length_littleEndian 4 _)]
    exact field payloadLen rfl

end FrameHeader

structure Message where
  msgType : BitVec 8
  payload : List UInt8
deriving DecidableEq

structure WireFrame where
  msgType : BitVec 8
  seqNo : BitVec 32
  payload : List UInt8
  wireCrc : BitVec 32
deriving DecidableEq

namespace WireFrame

def header (frame : WireFrame) : FrameHeader :=
  ⟨kProtocolMagic, frame.msgType, frame.seqNo, BitVec.ofNat 32 frame.payload.length⟩

def frameBuf (frame : WireFrame) : List UInt8 := frame.header.bytes ++ frame.payload

def crcBytes (frame : WireFrame) : List UInt8 := littleEndian kCRC32Size frame.wireCrc.toNat

def bytes (frame : WireFrame) : List UInt8 := frame.frameBuf ++ frame.crcBytes

def message (frame : WireFrame) : Message := ⟨frame.msgType, frame.payload⟩

def Checks (frame : WireFrame) : Prop := frame.wireCrc = computeCRC32 frame.frameBuf

instance (frame : WireFrame) : Decidable frame.Checks :=
  inferInstanceAs (Decidable (_ = _))

def ofMessage (seqNo : BitVec 32) (message : Message) : WireFrame where
  msgType := message.msgType
  seqNo := seqNo
  payload := message.payload
  wireCrc := computeCRC32
    ((⟨kProtocolMagic, message.msgType, seqNo,
      BitVec.ofNat 32 message.payload.length⟩ : FrameHeader).bytes ++ message.payload)

theorem checks_ofMessage (seqNo : BitVec 32) (message : Message) :
    (ofMessage seqNo message).Checks := rfl

@[simp] theorem message_ofMessage (seqNo : BitVec 32) (message : Message) :
    (ofMessage seqNo message).message = message := rfl

theorem magic_header {frame : WireFrame} : frame.header.magic = kProtocolMagic := rfl

def piece (frame : WireFrame) : Piece UInt8 Message :=
  ⟨frame.bytes, if frame.Checks then some frame.message else none⟩

theorem length_frameBuf (frame : WireFrame) :
    frame.frameBuf.length = FrameHeader.size + frame.payload.length := by
  rw [frameBuf, List.length_append, FrameHeader.length_bytes]

theorem length_bytes (frame : WireFrame) :
    frame.bytes.length = FrameHeader.size + frame.payload.length + kCRC32Size := by
  rw [bytes, List.length_append, length_frameBuf, crcBytes, length_littleEndian]

end WireFrame

/-! ## Receiving -/

def parseFrame (recvBuf : List UInt8) : Found UInt8 Message :=
  if FrameHeader.size ≤ recvBuf.length then
    let hdr := FrameHeader.ofBytes recvBuf
    if hdr.magic ≠ kProtocolMagic then .unframed
    else if kMaxPayloadBytes < hdr.payloadLen.toNat then .unframed
    else
      let hdrPlusPayload := FrameHeader.size + hdr.payloadLen.toNat
      let frameTotal := hdrPlusPayload + kCRC32Size
      if frameTotal ≤ recvBuf.length then
        let wireCrc := BitVec.ofNat 32 (value ((recvBuf.drop hdrPlusPayload).take kCRC32Size))
        if wireCrc ≠ computeCRC32 (recvBuf.take hdrPlusPayload) then
          .skipped (recvBuf.drop frameTotal)
        else
          .delivered ⟨hdr.msgType, (recvBuf.take hdrPlusPayload).drop FrameHeader.size⟩
            (recvBuf.drop frameTotal)
      else .needMore
  else .needMore

inductive RecvResult
  | data (first : UInt8) (more : List UInt8)
  | interrupted
  | again
  | closed
  | failed
deriving DecidableEq

inductive RecvStatus
  | gotMsg
  | timeout
  | closed
deriving DecidableEq

/-- What a call returns, the buffer it leaves and the reads still to come. -/
structure Received where
  status : RecvStatus
  message : Option Message
  recvBuf : List UInt8
  reads : List RecvResult
deriving DecidableEq

/-- `recvMsg`; a stream without further reads has ended. -/
def recvMsg (recvBuf : List UInt8) (reads : List RecvResult) : Received :=
  match parseFrame recvBuf with
  | .unframed => ⟨.timeout, none, [], reads⟩
  | .skipped rest => ⟨.timeout, none, rest, reads⟩
  | .delivered message rest => ⟨.gotMsg, some message, rest, reads⟩
  | .needMore =>
    match reads with
    | [] => ⟨.closed, none, recvBuf, []⟩
    | .data first more :: reads => recvMsg (recvBuf ++ first :: more) reads
    | .interrupted :: reads => recvMsg recvBuf reads
    | .again :: reads => ⟨.timeout, none, recvBuf, reads⟩
    | .closed :: reads => ⟨.closed, none, recvBuf, reads⟩
    | .failed :: reads => ⟨.closed, none, recvBuf, reads⟩

def receive : Nat → List UInt8 → List RecvResult → List Message
  | 0, _, _ => []
  | calls + 1, recvBuf, reads =>
    let received := recvMsg recvBuf reads
    received.message.toList ++ receive calls received.recvBuf received.reads

inductive Cuts : List RecvResult → List UInt8 → Prop
  | done : Cuts [] []
  | data {reads stream} (first : UInt8) (more : List UInt8) (rest : Cuts reads stream) :
      Cuts (.data first more :: reads) (first :: more ++ stream)
  | interrupted {reads stream} (rest : Cuts reads stream) :
      Cuts (.interrupted :: reads) stream
  | again {reads stream} (rest : Cuts reads stream) : Cuts (.again :: reads) stream

/-! ## Frames are told apart -/

section Parse

variable {frame : WireFrame}

theorem toNat_payloadLen (small : frame.payload.length ≤ kMaxPayloadBytes) :
    frame.header.payloadLen.toNat = frame.payload.length := by
  rw [WireFrame.header, BitVec.toNat_ofNat]
  exact Nat.mod_eq_of_lt (lt_of_le_of_lt small (by decide))

private theorem ofBytes_front {front : List UInt8} (isPrefix : front <+: frame.bytes)
    (enough : FrameHeader.size ≤ front.length) :
    FrameHeader.ofBytes front = frame.header := by
  have split : frame.bytes = frame.header.bytes ++ (frame.payload ++ frame.crcBytes) := by
    rw [WireFrame.bytes, WireFrame.frameBuf, List.append_assoc]
  have inFrame : frame.header.bytes <+: frame.bytes := by
    rw [split]
    exact List.prefix_append _ _
  have headerPrefix : frame.header.bytes <+: front :=
    List.prefix_of_prefix_length_le inFrame isPrefix (by rwa [FrameHeader.length_bytes])
  obtain ⟨rest, rfl⟩ := headerPrefix
  exact FrameHeader.ofBytes_bytes frame.header rest

/-- `recvMsg` takes a frame up to 64 MiB whole, whatever its checksum says. -/
theorem delimited_piece (small : frame.payload.length ≤ kMaxPayloadBytes) :
    Delimited parseFrame frame.piece where
  waits := by
    intro front isPrefix proper
    unfold parseFrame
    by_cases enough : FrameHeader.size ≤ front.length
    · have short : front.length < frame.bytes.length :=
        lt_of_le_of_ne isPrefix.length_le fun same => proper (isPrefix.eq_of_length same)
      rw [WireFrame.length_bytes] at short
      rw [if_pos enough, ofBytes_front isPrefix enough]
      simp only [toNat_payloadLen small]
      rw [if_neg (not_not.mpr WireFrame.magic_header), if_neg (not_lt.mpr small),
        if_neg (not_le.mpr short)]
    · rw [if_neg enough]
  takes := by
    intro rest
    have header : FrameHeader.ofBytes (frame.bytes ++ rest) = frame.header := by
      rw [WireFrame.bytes, WireFrame.frameBuf, List.append_assoc, List.append_assoc]
      exact FrameHeader.ofBytes_bytes _ _
    have total : FrameHeader.size + frame.payload.length + kCRC32Size ≤
        (frame.bytes ++ rest).length := by
      rw [List.length_append, WireFrame.length_bytes]
      exact Nat.le_add_right _ _
    have enough : FrameHeader.size ≤ (frame.bytes ++ rest).length :=
      le_trans (by rw [Nat.add_assoc]; exact Nat.le_add_right _ _) total
    have front : (frame.bytes ++ rest).take (FrameHeader.size + frame.payload.length) =
        frame.frameBuf := by
      rw [WireFrame.bytes, List.append_assoc]
      exact List.take_left' frame.length_frameBuf
    have crc : ((frame.bytes ++ rest).drop (FrameHeader.size + frame.payload.length)).take
        kCRC32Size = frame.crcBytes := by
      rw [WireFrame.bytes, List.append_assoc]
      exact FrameHeader.take_drop_field frame.length_frameBuf (length_littleEndian _ _)
    have wireCrc : BitVec.ofNat 32 (value frame.crcBytes) = frame.wireCrc := by
      rw [WireFrame.crcBytes, value_littleEndian (by exact frame.wireCrc.isLt),
        BitVec.ofNat_toNat, BitVec.setWidth_eq]
    have after : (frame.bytes ++ rest).drop
        (FrameHeader.size + frame.payload.length + kCRC32Size) = rest :=
      List.drop_left' frame.length_bytes
    have payload : frame.frameBuf.drop FrameHeader.size = frame.payload :=
      List.drop_left' (FrameHeader.length_bytes _)
    change parseFrame (frame.bytes ++ rest) = frame.piece.found rest
    unfold parseFrame
    rw [if_pos enough, header]
    simp only [toNat_payloadLen small]
    rw [if_neg (not_not.mpr WireFrame.magic_header), if_neg (not_lt.mpr small), if_pos total, front,
      crc,
      wireCrc, after, payload]
    by_cases same : frame.wireCrc = computeCRC32 frame.frameBuf
    · have checks : frame.Checks := same
      rw [if_neg (not_not.mpr same), Piece.found, WireFrame.piece, if_pos checks]
      rfl
    · have fails : ¬ frame.Checks := same
      rw [if_pos same, Piece.found, WireFrame.piece, if_neg fails]

theorem incomplete_nil : Incomplete parseFrame [] := by
  intro front isPrefix
  rw [List.prefix_nil.mp isPrefix]
  rfl

end Parse

/-! ## Every call of `recvMsg` -/

def Carries (pieces : List (Piece UInt8 Message)) (tail recvBuf : List UInt8)
    (reads : List RecvResult) : Prop :=
  ∃ unread, Cuts reads unread ∧ recvBuf ++ unread = wire pieces ++ tail

/-- A call takes the first piece, or it leaves the stream as it is. -/
inductive Takes (pieces : List (Piece UInt8 Message)) (tail : List UInt8)
    (reads : List RecvResult) (received : Received) : Prop
  | piece (piece) (rest) (isFirst : pieces = piece :: rest)
      (yields : received.message = piece.message)
      (carries : Carries rest tail received.recvBuf received.reads)
      (fewer : received.reads.length ≤ reads.length)
  | none (yields : received.message = none)
      (carries : Carries pieces tail received.recvBuf received.reads)
      (fewer : pieces = [] ∨ received.reads.length < reads.length)

variable {pieces : List (Piece UInt8 Message)}

theorem Takes.mono {tail : List UInt8} {reads longer : List RecvResult} {received : Received}
    (takes : Takes pieces tail reads received) (le : reads.length ≤ longer.length) :
    Takes pieces tail longer received := by
  cases takes with
  | piece piece rest isFirst yields carries fewer =>
    exact .piece piece rest isFirst yields carries (fewer.trans le)
  | none yields carries fewer =>
    exact .none yields carries (fewer.imp id fun less => lt_of_lt_of_le less le)

theorem recvMsg_takes (delimited : ∀ piece ∈ pieces, Delimited parseFrame piece) {tail : List UInt8}
    (incomplete : Incomplete parseFrame tail) (recvBuf : List UInt8) (reads : List RecvResult)
    (carries : Carries pieces tail recvBuf reads) :
    Takes pieces tail reads (recvMsg recvBuf reads) := by
  induction reads generalizing recvBuf with
  | nil =>
    obtain ⟨unread, cuts, stream⟩ := carries
    rcases parse_cases delimited incomplete stream with
      ⟨waits, ends⟩ | ⟨piece, rest, more, isFirst, found, after⟩
    · cases cuts
      rw [recvMsg, waits]
      exact .none rfl ⟨[], .done, stream⟩ (.inl (ends rfl))
    · rw [recvMsg.eq_def, found, Piece.found]
      cases kind : piece.message <;>
        exact .piece piece rest isFirst kind.symm ⟨unread, cuts, after⟩ le_rfl
  | cons read reads induction =>
    obtain ⟨unread, cuts, stream⟩ := carries
    rcases parse_cases delimited incomplete stream with
      ⟨waits, -⟩ | ⟨piece, rest, more, isFirst, found, after⟩
    · have longer : reads.length ≤ (read :: reads).length := Nat.le_succ _
      cases cuts with
      | data first more cuts =>
        rw [recvMsg.eq_def, waits]
        refine (induction _ ⟨_, cuts, ?_⟩).mono longer
        rw [List.append_assoc, ← stream]
      | interrupted cuts =>
        rw [recvMsg.eq_def, waits]
        exact (induction _ ⟨unread, cuts, stream⟩).mono longer
      | again cuts =>
        rw [recvMsg.eq_def, waits]
        exact .none rfl ⟨unread, cuts, stream⟩ (.inr (Nat.lt_succ_self _))
    · rw [recvMsg.eq_def, found, Piece.found]
      cases kind : piece.message <;>
        exact .piece piece rest isFirst kind.symm ⟨unread, cuts, after⟩ le_rfl

/-- The calls yield the messages of the pieces in order, and with enough calls
all of them. -/
theorem receive_pieces (delimited : ∀ piece ∈ pieces, Delimited parseFrame piece)
    {tail : List UInt8} (incomplete : Incomplete parseFrame tail) (calls : Nat)
    (recvBuf : List UInt8) (reads : List RecvResult) (carries : Carries pieces tail recvBuf reads) :
    receive calls recvBuf reads <+: pieces.filterMap Piece.message ∧
      (pieces.length + reads.length ≤ calls →
        receive calls recvBuf reads = pieces.filterMap Piece.message) := by
  induction calls generalizing pieces recvBuf reads with
  | zero =>
    refine ⟨List.nil_prefix, fun enough => ?_⟩
    have none : pieces = [] := List.length_eq_zero_iff.mp (by omega)
    rw [none]
    rfl
  | succ calls induction =>
    rw [receive]
    cases recvMsg_takes delimited incomplete recvBuf reads carries with
    | piece piece rest isFirst yields after fewer =>
      subst isFirst
      have messages : (piece :: rest).filterMap Piece.message =
          piece.message.toList ++ rest.filterMap Piece.message := by
        cases kind : piece.message with
        | none => rw [List.filterMap_cons_none kind, Option.toList_none, List.nil_append]
        | some message =>
          rw [List.filterMap_cons_some kind, Option.toList_some, List.singleton_append]
      obtain ⟨front, all⟩ := induction
        (fun item member => delimited item (List.mem_cons_of_mem _ member)) _ _ after
      simp only [yields, messages]
      refine ⟨(List.prefix_append_right_inj _).mpr front, fun enough => ?_⟩
      rw [all]
      rw [List.length_cons] at enough
      omega
    | none yields after fewer =>
      obtain ⟨front, all⟩ := induction delimited _ _ after
      simp only [yields, Option.toList_none, List.nil_append]
      refine ⟨front, fun enough => ?_⟩
      rcases fewer with rfl | fewer
      · exact List.prefix_nil.mp front
      · exact all (by omega)

/-! ## Sending -/

inductive SendResult
  | accepted (count : Nat)
  | interrupted
  | again
  | failed
deriving DecidableEq

/-- A call of `sendMsg` between two `::send`: the bytes that the running
`sendExact` still has, and those of the next one. -/
structure Sending where
  unsent : List UInt8
  next : List UInt8
  eagainRetries : Nat
deriving DecidableEq

inductive Progress
  | going (sending : Sending)
  | returned (ok : Bool)
deriving DecidableEq

def Sending.resume (sending : Sending) : SendResult → List UInt8 × Progress
  | .accepted 0 => ([], .returned false)
  | .accepted (count + 1) =>
    let left := sending.unsent.drop (count + 1)
    let written := sending.unsent.take (count + 1)
    if left = [] then
      if sending.next = [] then (written, .returned true)
      else (written, .going ⟨sending.next, [], 0⟩)
    else (written, .going ⟨left, sending.next, 0⟩)
  | .interrupted => ([], .going sending)
  | .again =>
    if 1000 < sending.eagainRetries + 1 then ([], .returned false)
    else ([], .going { sending with eagainRetries := sending.eagainRetries + 1 })
  | .failed => ([], .returned false)

def Sending.start (frame : WireFrame) : Sending := ⟨frame.frameBuf, frame.crcBytes, 0⟩

/-- The whole call under the results of its `::send`s; without a further result
it does not return. -/
def Sending.finish (sending : Sending) : List SendResult → List UInt8 × Option Bool
  | [] => ([], none)
  | result :: results =>
    match sending.resume result with
    | (written, .returned ok) => (written, some ok)
    | (written, .going sending) =>
      let rest := sending.finish results
      (written ++ rest.1, rest.2)

def sendMsg (sendSeq : BitVec 32) (message : Message) (results : List SendResult) :
    List UInt8 × Option Bool :=
  (Sending.start (WireFrame.ofMessage sendSeq message)).finish results

def Sending.left (sending : Sending) : List UInt8 := sending.unsent ++ sending.next

inductive Sending.Round (sending : Sending) : List UInt8 × Progress → Prop
  | fails : Round sending ([], .returned false)
  | last (written : List UInt8) (all : written = sending.left) :
      Round sending (written, .returned true)
  | on (written : List UInt8) (after : Sending) (split : written ++ after.left = sending.left)
      (more : sending.unsent ≠ [] → after.unsent ≠ []) :
      Round sending (written, .going after)

theorem Sending.resume_round (sending : Sending) (result : SendResult) :
    sending.Round (sending.resume result) := by
  cases result with
  | accepted count =>
    cases count with
    | zero => exact .fails
    | succ count =>
      have split := List.take_append_drop (count + 1) sending.unsent
      simp only [resume]
      by_cases whole : sending.unsent.drop (count + 1) = []
      · rw [whole, List.append_nil] at split
        rw [if_pos whole]
        by_cases last : sending.next = []
        · rw [if_pos last]
          exact .last _ (by rw [split, left, last, List.append_nil])
        · rw [if_neg last]
          refine .on _ _ ?_ fun _ => last
          rw [split, left, left, List.append_nil]
      · rw [if_neg whole]
        refine .on _ _ ?_ fun _ => whole
        rw [left, left, ← List.append_assoc, split]
  | interrupted => exact .on [] sending rfl id
  | again =>
    simp only [resume]
    by_cases stuck : 1000 < sending.eagainRetries + 1
    · rw [if_pos stuck]
      exact .fails
    · rw [if_neg stuck]
      exact .on [] _ rfl id
  | failed => exact .fails

theorem Sending.finish_ok (sending : Sending) (results : List SendResult)
    (ok : (sending.finish results).2 = some true) :
    (sending.finish results).1 = sending.left := by
  induction results generalizing sending with
  | nil => cases ok
  | cons result results induction =>
    have round := sending.resume_round result
    unfold Sending.finish at ok ⊢
    generalize sending.resume result = resumed at round ok ⊢
    cases round with
    | fails => cases ok
    | last written all => exact all
    | on written after split more =>
      simp only at ok ⊢
      rw [induction after ok]
      exact split

variable {sendSeq : BitVec 32}

theorem sendMsg_ok {message : Message} {results : List SendResult}
    (ok : (sendMsg sendSeq message results).2 = some true) :
    (sendMsg sendSeq message results).1 = (WireFrame.ofMessage sendSeq message).bytes :=
  Sending.finish_ok _ _ ok

/-! ## From `sendMsg` to `recvMsg` -/

/-- A message, the results of its `::send`s, and the frame that arrives where the
wire damages its own. -/
structure Sent where
  message : Message
  results : List SendResult
  damaged : Option WireFrame

def Sent.arrives (sendSeq : BitVec 32) (sent : Sent) : List UInt8 :=
  match sent.damaged with
  | none => (sendMsg sendSeq sent.message sent.results).1
  | some frame => frame.bytes

def arrivals : BitVec 32 → List Sent → List UInt8
  | _, [] => []
  | sendSeq, sent :: sends => sent.arrives sendSeq ++ arrivals (sendSeq + 1) sends

def AllAccepted : BitVec 32 → List Sent → Prop
  | _, [] => True
  | sendSeq, sent :: sends =>
    (sendMsg sendSeq sent.message sent.results).2 = some true ∧ AllAccepted (sendSeq + 1) sends

def Sent.Framed (sent : Sent) : Prop :=
  ∀ frame ∈ sent.damaged, frame.payload.length = sent.message.payload.length ∧ ¬ frame.Checks

instance (sent : Sent) : Decidable sent.Framed :=
  inferInstanceAs (Decidable (∀ frame ∈ sent.damaged, _ ∧ ¬ frame.Checks))

def Sent.undamaged (sent : Sent) : Bool := sent.damaged.isNone

def Sent.frame (sendSeq : BitVec 32) (sent : Sent) : WireFrame :=
  sent.damaged.getD (WireFrame.ofMessage sendSeq sent.message)

def arrivingPieces : BitVec 32 → List Sent → List (Piece UInt8 Message)
  | _, [] => []
  | sendSeq, sent :: sends =>
    (sent.frame sendSeq).piece :: arrivingPieces (sendSeq + 1) sends

theorem length_arrivingPieces (sendSeq : BitVec 32) (sends : List Sent) :
    (arrivingPieces sendSeq sends).length = sends.length := by
  induction sends generalizing sendSeq with
  | nil => rfl
  | cons sent sends induction =>
    rw [arrivingPieces, List.length_cons, induction, List.length_cons]

theorem arrivals_eq_wire {sends : List Sent} (accepted : AllAccepted sendSeq sends) :
    arrivals sendSeq sends = wire (arrivingPieces sendSeq sends) := by
  induction sends generalizing sendSeq with
  | nil => rfl
  | cons sent sends induction =>
    have bytes : sent.arrives sendSeq = (sent.frame sendSeq).bytes := by
      unfold Sent.arrives Sent.frame
      cases sent.damaged with
      | none => exact sendMsg_ok accepted.1
      | some frame => rfl
    rw [arrivals, arrivingPieces, induction accepted.2, bytes]
    rfl

theorem delimited_arrivingPieces {sends : List Sent}
    (limit : ∀ sent ∈ sends, sent.message.payload.length ≤ kMaxPayloadBytes)
    (framed : ∀ sent ∈ sends, sent.Framed) :
    ∀ piece ∈ arrivingPieces sendSeq sends, Delimited parseFrame piece := by
  induction sends generalizing sendSeq with
  | nil => exact fun piece member => absurd member List.not_mem_nil
  | cons sent sends induction =>
    intro piece member
    rcases List.mem_cons.mp member with rfl | member
    · apply delimited_piece
      have small := limit sent List.mem_cons_self
      unfold Sent.frame
      cases kind : sent.damaged with
      | none => exact small
      | some frame =>
        rw [Option.getD_some, (framed sent List.mem_cons_self frame kind).1]
        exact small
    · exact induction (fun item inside => limit item (List.mem_cons_of_mem _ inside))
        (fun item inside => framed item (List.mem_cons_of_mem _ inside)) piece member

private theorem messages_arrivingPieces {sends : List Sent} (framed : ∀ sent ∈ sends, sent.Framed) :
    (arrivingPieces sendSeq sends).filterMap Piece.message =
      (sends.filter Sent.undamaged).map Sent.message := by
  induction sends generalizing sendSeq with
  | nil => rfl
  | cons sent sends induction =>
    have rest := @induction (sendSeq + 1)
      fun item inside => framed item (List.mem_cons_of_mem _ inside)
    rw [arrivingPieces]
    cases kind : sent.damaged with
    | none =>
      have message : (sent.frame sendSeq).piece.message = some sent.message := by
        rw [Sent.frame, kind]
        exact if_pos (WireFrame.checks_ofMessage _ _)
      have kept : sent.undamaged = true := by
        rw [Sent.undamaged, kind]
        rfl
      rw [List.filterMap_cons_some message, rest, List.filter_cons_of_pos kept, List.map_cons]
    | some frame =>
      have message : (sent.frame sendSeq).piece.message = none := by
        rw [Sent.frame, kind]
        exact if_neg (framed sent List.mem_cons_self frame kind).2
      have dropped : ¬ sent.undamaged = true := by
        rw [Sent.undamaged, kind]
        exact nofun
      rw [List.filterMap_cons_none message, rest, List.filter_cons_of_neg dropped]

/-- However the stream is cut, `recvMsg` yields the messages whose frames arrive
undamaged, in order. -/
theorem receive_arrivals (sendSeq : BitVec 32) (sends : List Sent)
    (accepted : AllAccepted sendSeq sends)
    (limit : ∀ sent ∈ sends, sent.message.payload.length ≤ kMaxPayloadBytes)
    (framed : ∀ sent ∈ sends, sent.Framed) (reads : List RecvResult)
    (cuts : Cuts reads (arrivals sendSeq sends)) (calls : Nat) :
    receive calls [] reads <+: (sends.filter Sent.undamaged).map Sent.message ∧
      (sends.length + reads.length ≤ calls → receive calls [] reads =
        (sends.filter Sent.undamaged).map Sent.message) := by
  have carries : Carries (arrivingPieces sendSeq sends) [] [] reads :=
    ⟨_, cuts, by rw [List.nil_append, List.append_nil, arrivals_eq_wire accepted]⟩
  have yields := receive_pieces (delimited_arrivingPieces limit framed) incomplete_nil
    calls [] reads carries
  rwa [messages_arrivingPieces framed, length_arrivingPieces] at yields

/-! ## What is never yielded -/

private theorem parseFrame_delivered_le {recvBuf rest : List UInt8} {message : Message}
    (delivered : parseFrame recvBuf = .delivered message rest) :
    message.payload.length ≤ kMaxPayloadBytes := by
  unfold parseFrame at delivered
  simp only at delivered
  by_cases enough : FrameHeader.size ≤ recvBuf.length
  · by_cases magic : (FrameHeader.ofBytes recvBuf).magic = kProtocolMagic
    · by_cases large : kMaxPayloadBytes < (FrameHeader.ofBytes recvBuf).payloadLen.toNat
      · rw [if_pos enough, if_neg (not_not.mpr magic), if_pos large] at delivered
        cases delivered
      · rw [if_pos enough, if_neg (not_not.mpr magic), if_neg large] at delivered
        split at delivered
        · split at delivered
          · cases delivered
          · cases delivered
            rw [List.length_drop, List.length_take]
            omega
        · cases delivered
    · rw [if_pos enough, if_pos magic] at delivered
      cases delivered
  · rw [if_neg enough] at delivered
    cases delivered

private theorem recvMsg_message_le (recvBuf : List UInt8) (reads : List RecvResult) :
    ∀ message ∈ (recvMsg recvBuf reads).message, message.payload.length ≤ kMaxPayloadBytes := by
  induction reads generalizing recvBuf with
  | nil =>
    rw [recvMsg.eq_def]
    cases found : parseFrame recvBuf with
    | delivered message rest =>
      rintro _ ⟨⟩
      exact parseFrame_delivered_le found
    | needMore => exact nofun
    | unframed => exact nofun
    | skipped rest => exact nofun
  | cons read reads induction =>
    rw [recvMsg.eq_def]
    cases found : parseFrame recvBuf with
    | delivered message rest =>
      rintro _ ⟨⟩
      exact parseFrame_delivered_le found
    | needMore =>
      cases read with
      | data first more => exact induction _
      | interrupted => exact induction _
      | again => exact nofun
      | closed => exact nofun
      | failed => exact nofun
    | unframed => exact nofun
    | skipped rest => exact nofun

theorem receive_le (calls : Nat) (recvBuf : List UInt8) (reads : List RecvResult) :
    ∀ message ∈ receive calls recvBuf reads, message.payload.length ≤ kMaxPayloadBytes := by
  induction calls generalizing recvBuf reads with
  | zero => exact fun message member => absurd member List.not_mem_nil
  | succ calls induction =>
    intro message member
    rcases List.mem_append.mp member with member | member
    · exact recvMsg_message_le recvBuf reads message (Option.mem_toList.mp member)
    · exact induction _ _ message member

private theorem sendMsg_accepted (sendSeq : BitVec 32) (message : Message) :
    (sendMsg sendSeq message
      [.accepted (FrameHeader.size + message.payload.length), .accepted kCRC32Size]).2 =
        some true := by
  have length := (WireFrame.ofMessage sendSeq message).length_frameBuf
  have frame : (WireFrame.ofMessage sendSeq message).frameBuf.drop
      (FrameHeader.size + message.payload.length) = [] :=
    List.drop_of_length_le length.le
  have count : FrameHeader.size + message.payload.length = 10 + message.payload.length + 1 := by
    rw [FrameHeader.size]
    omega
  have crc : (WireFrame.ofMessage sendSeq message).crcBytes ≠ [] := nofun
  have crcSent : (WireFrame.ofMessage sendSeq message).crcBytes.drop (3 + 1) = [] :=
    List.drop_of_length_le (length_littleEndian _ _).le
  rw [sendMsg, Sending.start, count, show kCRC32Size = 3 + 1 from rfl]
  rw [count] at frame
  simp only [Sending.finish, Sending.resume, frame, crcSent, crc, if_true, if_false]

/-- The last byte of the length field counts. -/
theorem receive_loses : (∃ message results, (sendMsg 0 message results).2 = some true ∧
      ∀ calls recvBuf reads, message ∉ receive calls recvBuf reads) ∧
    let first := (WireFrame.ofMessage 0 ⟨0x30, [7]⟩).bytes.set 7 0
    let second := (WireFrame.ofMessage 1 ⟨0x15, []⟩).bytes
    (∃ rest, parseFrame first = .skipped rest) ∧
      Cuts [.data 0x52 (first.tail ++ second)] (first ++ second) ∧
      receive 10 [] [.data 0x52 (first.tail ++ second)] ≠ [⟨0x15, []⟩] := by
  refine ⟨⟨⟨0x22, List.replicate (kMaxPayloadBytes + 1) 0⟩, _, sendMsg_accepted _ _, ?_⟩,
    ?_, ?_, ?_⟩
  · intro calls recvBuf reads member
    have small := receive_le calls recvBuf reads _ member
    rw [List.length_replicate] at small
    omega
  · exact ⟨(WireFrame.ofMessage 0 ⟨0x30, [7]⟩).crcBytes.drop 3, by decide +kernel⟩
  · exact .data 0x52 _ .done
  · decide +kernel

def damagedSends : List Sent :=
  [⟨⟨0x30, [7]⟩, [.accepted 12, .accepted 4], some ⟨0x30, 0, [8], 0⟩⟩,
    ⟨⟨0x15, []⟩, [.accepted 5, .again, .accepted 6, .accepted 4], none⟩]

def readAll : List UInt8 → List RecvResult
  | [] => []
  | first :: more => [.data first more]

theorem cuts_readAll (stream : List UInt8) : Cuts (readAll stream) stream := by
  cases stream with
  | nil => exact .done
  | cons first more =>
    have cuts := Cuts.data first more .done
    rwa [List.append_nil] at cuts

theorem Cuts.append {left right : List RecvResult} {front back : List UInt8}
    (first : Cuts left front) (second : Cuts right back) :
    Cuts (left ++ right) (front ++ back) := by
  induction first with
  | done => exact second
  | data byte more _ induction =>
    rw [List.append_assoc]
    exact .data byte more induction
  | interrupted _ induction => exact .interrupted induction
  | again _ induction => exact .again induction

def damagedReads : List RecvResult :=
  readAll ((arrivals 0 damagedSends).take 9) ++ .again :: readAll ((arrivals 0 damagedSends).drop 9)

private theorem cuts_damagedReads : Cuts damagedReads (arrivals 0 damagedSends) := by
  have cuts := (cuts_readAll ((arrivals 0 damagedSends).take 9)).append
    (.again (cuts_readAll ((arrivals 0 damagedSends).drop 9)))
  rwa [List.take_append_drop] at cuts

theorem receive_damagedReads :
    receive 5 [] damagedReads <+: (damagedSends.filter Sent.undamaged).map Sent.message ∧
      (damagedSends.length + damagedReads.length ≤ 5 → receive 5 [] damagedReads =
        (damagedSends.filter Sent.undamaged).map Sent.message) :=
  receive_arrivals 0 damagedSends ⟨by decide +kernel, by decide +kernel, trivial⟩
    (by decide) (by decide +kernel) damagedReads cuts_damagedReads 5

end CudaMpqs.TcpTransport
