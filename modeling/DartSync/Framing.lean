import DartSync.Tracker.PollQueues

/-!
# Messages in a stream

What the check functions write on a socket, and how `handle_client_msg`, `handle_tracker_msg` and
`handle_peer_msg` read it on the other side. A header says how many bytes follow it, and for every
message the receiver reads as many as the sender has written: the messages are received whatever the
pieces in which the bytes arrive (`messages_received`).
-/

namespace DartSync

/-- The bytes that `send` writes, of a buffer and the length it is told. -/
def sendBytes (buf : Option (List UInt8)) (len : Int32) : List UInt8 :=
  (buf.getD []).take len.toInt.toNat

/-- The length that goes with a buffer is that of its bytes. -/
def IsLength (buf : Option (List UInt8)) (len : Int32) : Prop := len.toInt = ((buf.getD []).length : ℤ)

instance (buf : Option (List UInt8)) (len : Int32) : Decidable (IsLength buf len) :=
  inferInstanceAs (Decidable (len.toInt = ((buf.getD []).length : ℤ)))

/-- Why a receiver does not get to the end of a message: it returns -1, or aborts. -/
inductive ReceiveFailure
  | returned
  | abort (why : Abort)

/-- `safe_recv`, after which the receivers return -1 when the buffer is not full. -/
def recvFull (length : ℕ) (socket : SegmentedStream UInt8) :
    Except ReceiveFailure (List UInt8 × SegmentedStream UInt8) :=
  (safeRecv length socket).mapError fun _ => .returned

/-- What follows a header, if it says that there is something. -/
def recvBuf (len : Int32) (socket : SegmentedStream UInt8) :
    Except ReceiveFailure (Option (List UInt8) × SegmentedStream UInt8) :=
  if 0 < len.toInt then do
    let (buf, socket) ← recvFull len.toInt.toNat socket
    return (some buf, socket)
  else .ok (none, socket)

/-! ## Client and tracker -/

/-- `client_data_t`, as the tracker is sent it. -/
structure ClientData where
  dataLen : Int32
  data : Option (List UInt8)

/-- What a client sends to the tracker. -/
inductive ClientSend
  | heartbeat
  | curStatus (queueItem : ClientData)
  | fileAcq (queueItem : ClientData)
  | updatedFs (queueItem : ClientData)
  | masterReq

/-- The header and the bytes that are written for an item of a queue. -/
def sendItem (type : ClientToTracker) (queueItem : ClientData) : List UInt8 :=
  Pkt.bytes ⟨type.code, queueItem.dataLen⟩ ++ sendBytes queueItem.data queueItem.dataLen

/-- What is written by `send_tracker_message`, `check_cur_status_q`, `check_file_acq_q`,
`check_updated_fs_q` and `check_master_req_q`. -/
def ClientSend.bytes : ClientSend → List UInt8
  | .heartbeat => Pkt.bytes ⟨ClientToTracker.heartbeat.code, 0⟩
  | .curStatus queueItem => sendItem .clientState queueItem
  | .fileAcq queueItem => sendItem .chunkGot queueItem
  | .updatedFs queueItem => sendItem .clientUpdate queueItem
  | .masterReq => Pkt.bytes ⟨ClientToTracker.requestMaster.code, 0⟩

/-- What is written for a message of the tracker. -/
def Sent.bytes (m : Sent) : List UInt8 := m.pkt.bytes ++ sendBytes (some m.data) m.pkt.dataLen

/-- A header, and the buffer with what followed it. -/
structure ReceivedMessage where
  pkt : Pkt
  buf : Option (List UInt8)

/-- A header, and what it says that follows. -/
def recvMessage (socket : SegmentedStream UInt8) :
    Except ReceiveFailure (ReceivedMessage × SegmentedStream UInt8) := do
  let (header, socket) ← recvFull Pkt.size socket
  let pkt ← (Pkt.read header).mapError .abort
  let (buf, socket) ← recvBuf pkt.dataLen socket
  return (⟨pkt, buf⟩, socket)

/-- `handle_client_msg`, up to the switch on the type of what has been received. -/
def handleClientMsg (table : List Peer) (sockfd : ℤ) (socket : SegmentedStream UInt8) :
    Except ReceiveFailure (ReceivedMessage × SegmentedStream UInt8) :=
  match getPeerBySocket table sockfd with
  | none => .error .returned
  | some _ => recvMessage socket

/-- `handle_tracker_msg`, up to the switch. -/
def handleTrackerMsg (socket : SegmentedStream UInt8) :
    Except ReceiveFailure (ReceivedMessage × SegmentedStream UInt8) := recvMessage socket

/-! ## Client and client -/

/-- `chunk_data_t` -/
structure ChunkDataT where
  jobId : Int32
  clientId : ℤ
  chunkNum : Int32
  fileStrLen : Int32
  fileName : Option (List UInt8)
  dataLen : Int32
  data : Option (List UInt8)
  deriving DecidableEq

/-- What a client sends to another; `srcClient` is whatever that field of the header holds, which is
never set. -/
inductive PeerSend
  | chunkRequest (queueItem : ChunkDataT) (srcClient : Int32)
  | chunk (queueItem : ChunkDataT) (srcClient : Int32)
  | reqReject (queueItem : ChunkDataT) (srcClient : Int32)

/-- The header of a message about a chunk. -/
def ChunkDataT.pkt (queueItem : ChunkDataT) (type : ClientToClient) (srcClient : Int32) : C2cPkt :=
  ⟨type.code, srcClient, queueItem.chunkNum, queueItem.fileStrLen, queueItem.dataLen, queueItem.jobId⟩

/-- What is written by `check_req_chunk_q`, `check_send_chunk_q` and `check_req_error_q`. -/
def PeerSend.bytes : PeerSend → List UInt8
  | .chunkRequest queueItem srcClient => (queueItem.pkt .chunkRequest srcClient).bytes ++
      sendBytes queueItem.fileName queueItem.fileStrLen
  | .chunk queueItem srcClient => (queueItem.pkt .chunk srcClient).bytes ++
      sendBytes queueItem.fileName queueItem.fileStrLen ++ sendBytes queueItem.data queueItem.dataLen
  | .reqReject queueItem srcClient => (queueItem.pkt .reqReject srcClient).bytes ++
      sendBytes queueItem.fileName queueItem.fileStrLen

/-- What `handle_peer_msg` hands to the client. -/
inductive PeerNotice
  | chunkRequest (queueItem : ChunkDataT)
  | chunkReceived (queueItem : ChunkDataT)
  | errorReceived (queueItem : ChunkDataT)
  | handled (type : Int32)
  deriving DecidableEq

/-- The switch of `handle_peer_msg`, whose cases read the record of the peer. -/
def peerNotice (peer : Option Peer) (pkt : C2cPkt) (fileNameBuf dataBuf : Option (List UInt8)) :
    Except ReceiveFailure PeerNotice :=
  if pkt.type = ClientToClient.chunkRequest.code then
    match peer with
    | none => .error (.abort .nullPointer)
    | some peer => .ok (.chunkRequest
        ⟨pkt.jobId, peer.id, pkt.chunkNum, pkt.fileStrLen, fileNameBuf, 0, none⟩)
  else if pkt.type = ClientToClient.chunk.code then
    match peer with
    | none => .error (.abort .nullPointer)
    | some peer => .ok (.chunkReceived
        ⟨pkt.jobId, peer.id, pkt.chunkNum, pkt.fileStrLen, fileNameBuf, pkt.dataLen, dataBuf⟩)
  else if pkt.type = ClientToClient.reqReject.code then
    match peer with
    | none => .error (.abort .nullPointer)
    | some peer => .ok (.errorReceived
        ⟨pkt.jobId, peer.id, pkt.chunkNum, pkt.fileStrLen, fileNameBuf, pkt.dataLen, none⟩)
  else .ok (.handled pkt.type)

/-- `handle_peer_msg`: the header that it has received, and what it hands to the client. -/
def handlePeerMsg (table : List Peer) (sockfd : ℤ) (socket : SegmentedStream UInt8) :
    Except ReceiveFailure ((C2cPkt × PeerNotice) × SegmentedStream UInt8) := do
  let peer := getPeerBySocket table sockfd
  let (header, socket) ← recvFull C2cPkt.size socket
  let pkt ← (C2cPkt.read header).mapError .abort
  let (fileNameBuf, socket) ← recvBuf pkt.fileStrLen socket
  let (dataBuf, socket) ← recvBuf pkt.dataLen socket
  let notice ← peerNotice peer pkt fileNameBuf dataBuf
  return ((pkt, notice), socket)

/-! ## What is well-formed, and what has to arrive -/

/-- A buffer as it arrives: NULL if nothing is sent. -/
def arrives (buf : Option (List UInt8)) (len : Int32) : Option (List UInt8) :=
  if 0 < len.toInt then some (buf.getD []) else none

def ClientSend.WellFormed : ClientSend → Prop
  | .curStatus queueItem | .fileAcq queueItem | .updatedFs queueItem =>
    IsLength queueItem.data queueItem.dataLen
  | .heartbeat | .masterReq => True

def ClientSend.received : ClientSend → ReceivedMessage
  | .heartbeat => ⟨⟨ClientToTracker.heartbeat.code, 0⟩, none⟩
  | .curStatus queueItem =>
    ⟨⟨ClientToTracker.clientState.code, queueItem.dataLen⟩, arrives queueItem.data queueItem.dataLen⟩
  | .fileAcq queueItem =>
    ⟨⟨ClientToTracker.chunkGot.code, queueItem.dataLen⟩, arrives queueItem.data queueItem.dataLen⟩
  | .updatedFs queueItem =>
    ⟨⟨ClientToTracker.clientUpdate.code, queueItem.dataLen⟩, arrives queueItem.data queueItem.dataLen⟩
  | .masterReq => ⟨⟨ClientToTracker.requestMaster.code, 0⟩, none⟩

def Sent.WellFormed (m : Sent) : Prop := IsLength (some m.data) m.pkt.dataLen

def Sent.received (m : Sent) : ReceivedMessage := ⟨m.pkt, arrives (some m.data) m.pkt.dataLen⟩

/-- A request has no data, and a rejection less than none. -/
def PeerSend.WellFormed : PeerSend → Prop
  | .chunkRequest queueItem _ =>
    IsLength queueItem.fileName queueItem.fileStrLen ∧ queueItem.dataLen = 0
  | .chunk queueItem _ => IsLength queueItem.fileName queueItem.fileStrLen ∧
      IsLength queueItem.data queueItem.dataLen
  | .reqReject queueItem _ =>
    IsLength queueItem.fileName queueItem.fileStrLen ∧ queueItem.dataLen = -1

/-- The header, and the item, which then is one of the peer that has sent it. -/
def PeerSend.received (peer : Peer) : PeerSend → C2cPkt × PeerNotice
  | .chunkRequest queueItem srcClient => (queueItem.pkt .chunkRequest srcClient,
      .chunkRequest { queueItem with
        clientId := peer.id
        fileName := arrives queueItem.fileName queueItem.fileStrLen
        data := none })
  | .chunk queueItem srcClient => (queueItem.pkt .chunk srcClient,
      .chunkReceived { queueItem with
        clientId := peer.id
        fileName := arrives queueItem.fileName queueItem.fileStrLen
        data := arrives queueItem.data queueItem.dataLen })
  | .reqReject queueItem srcClient => (queueItem.pkt .reqReject srcClient,
      .errorReceived { queueItem with
        clientId := peer.id
        fileName := arrives queueItem.fileName queueItem.fileStrLen
        data := none })

variable {socket : SegmentedStream UInt8} {table : List Peer} {sockfd : ℤ} {peer : Peer}
  {buf : Option (List UInt8)} {len : Int32} {data rest : List UInt8}

/-! ## One message -/

theorem ok_bind {ε α β : Type} (a : α) (k : α → Except ε β) : (Except.ok a >>= k) = k a := rfl

theorem mapError_ok {ε ε' α : Type} (a : α) (f : ε → ε') :
    (Except.ok a : Except ε α).mapError f = .ok a := rfl

theorem recvFull_of_holds {length : ℕ} (h : socket.Holds (data ++ rest))
    (hlength : data.length = length) :
    ∃ socket', recvFull length socket = .ok (data, socket') ∧ socket'.Holds rest := by
  obtain ⟨socket', hrecv, h'⟩ := safeRecv_of_holds h hlength
  refine ⟨socket', ?_, h'⟩
  unfold recvFull
  rw [hrecv]
  rfl

/-- What is sent with its length is received. -/
theorem recvBuf_of_holds (hlen : IsLength buf len) (h : socket.Holds (sendBytes buf len ++ rest)) :
    ∃ socket', recvBuf len socket = .ok (arrives buf len, socket') ∧ socket'.Holds rest := by
  unfold recvBuf arrives
  unfold sendBytes at h
  unfold IsLength at hlen
  rw [List.take_of_length_le (by omega)] at h
  split_ifs with hpos
  · obtain ⟨socket', hrecv, h'⟩ := recvFull_of_holds h (by omega : _ = len.toInt.toNat)
    refine ⟨socket', ?_, h'⟩
    rw [hrecv]
    rfl
  · rw [List.length_eq_zero_iff.mp (by omega : (buf.getD []).length = 0)] at h
    exact ⟨socket, rfl, h⟩

/-- The header says that nothing follows. -/
theorem recvBuf_of_not_pos (hlen : ¬ 0 < len.toInt) : recvBuf len socket = .ok (none, socket) := by
  unfold recvBuf
  rw [if_neg hlen]

/-- A header and what follows it. -/
theorem recvMessage_of_holds {pkt : Pkt} (hlen : IsLength buf pkt.dataLen)
    (h : socket.Holds (pkt.bytes ++ sendBytes buf pkt.dataLen ++ rest)) :
    ∃ socket', recvMessage socket = .ok (⟨pkt, arrives buf pkt.dataLen⟩, socket') ∧
      socket'.Holds rest := by
  rw [List.append_assoc] at h
  obtain ⟨socket₁, hheader, h₁⟩ := recvFull_of_holds h pkt.length_bytes
  obtain ⟨socket₂, hbuf, h₂⟩ := recvBuf_of_holds hlen h₁
  refine ⟨socket₂, ?_, h₂⟩
  unfold recvMessage
  rw [hheader, ok_bind]
  dsimp only
  rw [Pkt.read_bytes, mapError_ok, ok_bind, hbuf, ok_bind]
  rfl

/-- `handle_client_msg` -/
theorem handleClientMsg_of_holds (hclient : getPeerBySocket table sockfd = some peer) (m : ClientSend)
    (hm : m.WellFormed) (h : socket.Holds (m.bytes ++ rest)) :
    ∃ socket', handleClientMsg table sockfd socket = .ok (m.received, socket') ∧
      socket'.Holds rest := by
  unfold handleClientMsg
  rw [hclient]
  cases m with
  | heartbeat | masterReq =>
    have hnone : IsLength none 0 := Int32.toInt_zero
    exact recvMessage_of_holds hnone h
  | curStatus queueItem | fileAcq queueItem | updatedFs queueItem => exact recvMessage_of_holds hm h

/-- `handle_tracker_msg` -/
theorem handleTrackerMsg_of_holds (m : Sent) (hm : m.WellFormed) (h : socket.Holds (m.bytes ++ rest)) :
    ∃ socket', handleTrackerMsg socket = .ok (m.received, socket') ∧ socket'.Holds rest :=
  recvMessage_of_holds hm h

theorem handlePeerMsg_eq {pkt : C2cPkt} {name data : Option (List UInt8)} {notice : PeerNotice}
    {socket₁ socket₂ socket₃ : SegmentedStream UInt8}
    (hheader : recvFull C2cPkt.size socket = .ok (pkt.bytes, socket₁))
    (hname : recvBuf pkt.fileStrLen socket₁ = .ok (name, socket₂))
    (hdata : recvBuf pkt.dataLen socket₂ = .ok (data, socket₃))
    (hnotice : peerNotice (getPeerBySocket table sockfd) pkt name data = .ok notice) :
    handlePeerMsg table sockfd socket = .ok ((pkt, notice), socket₃) := by
  unfold handlePeerMsg
  rw [hheader, ok_bind]
  dsimp only
  rw [C2cPkt.read_bytes, mapError_ok, ok_bind, hname, ok_bind]
  dsimp only
  rw [hdata, ok_bind]
  dsimp only
  rw [hnotice, ok_bind]
  rfl

/-- The header and the name of the file, which every message about a chunk has. -/
theorem recvName_of_holds {pkt : C2cPkt} {name : Option (List UInt8)}
    (hlength : IsLength name pkt.fileStrLen)
    (h : socket.Holds (pkt.bytes ++ (sendBytes name pkt.fileStrLen ++ rest))) :
    ∃ socket₁ socket₂, recvFull C2cPkt.size socket = .ok (pkt.bytes, socket₁) ∧
      recvBuf pkt.fileStrLen socket₁ = .ok (arrives name pkt.fileStrLen, socket₂) ∧
      socket₂.Holds rest := by
  obtain ⟨socket₁, hheader, h₁⟩ := recvFull_of_holds h pkt.length_bytes
  obtain ⟨socket₂, hname, h₂⟩ := recvBuf_of_holds hlength h₁
  exact ⟨socket₁, socket₂, hheader, hname, h₂⟩

/-- `handle_peer_msg` -/
theorem handlePeerMsg_of_holds (hpeer : getPeerBySocket table sockfd = some peer) (m : PeerSend)
    (hm : m.WellFormed) (h : socket.Holds (m.bytes ++ rest)) :
    ∃ socket', handlePeerMsg table sockfd socket = .ok (m.received peer, socket') ∧
      socket'.Holds rest := by
  cases m with
  | chunkRequest queueItem srcClient =>
    obtain ⟨hlength, hzero⟩ := hm
    have htype : (queueItem.pkt .chunkRequest srcClient).type = ClientToClient.chunkRequest.code := rfl
    unfold PeerSend.bytes at h
    rw [List.append_assoc] at h
    obtain ⟨socket₁, socket₂, hheader, hname, h₂⟩ := recvName_of_holds hlength h
    have hdata : recvBuf queueItem.dataLen socket₂ = .ok (none, socket₂) :=
      recvBuf_of_not_pos (by rw [hzero]; decide)
    refine ⟨socket₂, handlePeerMsg_eq hheader hname hdata ?_, h₂⟩
    rw [hpeer]
    unfold peerNotice
    rw [if_pos htype, ← hzero]
    rfl
  | chunk queueItem srcClient =>
    obtain ⟨hlength, hdataLen⟩ := hm
    have htype : (queueItem.pkt .chunk srcClient).type = ClientToClient.chunk.code := rfl
    unfold PeerSend.bytes at h
    rw [List.append_assoc, List.append_assoc] at h
    obtain ⟨socket₁, socket₂, hheader, hname, h₂⟩ := recvName_of_holds hlength h
    obtain ⟨socket₃, hdata, h₃⟩ := recvBuf_of_holds hdataLen h₂
    refine ⟨socket₃, handlePeerMsg_eq hheader hname hdata ?_, h₃⟩
    rw [hpeer]
    unfold peerNotice
    rw [if_neg (by rw [htype]; decide), if_pos htype]
    rfl
  | reqReject queueItem srcClient =>
    obtain ⟨hlength, hneg⟩ := hm
    have htype : (queueItem.pkt .reqReject srcClient).type = ClientToClient.reqReject.code := rfl
    unfold PeerSend.bytes at h
    rw [List.append_assoc] at h
    obtain ⟨socket₁, socket₂, hheader, hname, h₂⟩ := recvName_of_holds hlength h
    have hdata : recvBuf queueItem.dataLen socket₂ = .ok (none, socket₂) :=
      recvBuf_of_not_pos (by rw [hneg]; decide)
    refine ⟨socket₂, handlePeerMsg_eq hheader hname hdata ?_, h₂⟩
    rw [hpeer]
    unfold peerNotice
    rw [if_neg (by rw [htype]; decide), if_neg (by rw [htype]; decide), if_pos htype]
    rfl

/-! ## Sequences of messages -/

open Receiver

/-- **Messages.** Whatever the pieces in which a stream arrives, the receivers get from it the
messages that have been written, one call each, and leave what is behind them. -/
theorem messages_received (socket : SegmentedStream UInt8) (hsocket : socket.Reliable)
    (rest : List UInt8) :
    (∀ table sockfd client, getPeerBySocket table sockfd = some client →
      ∀ ms : List ClientSend, (∀ m ∈ ms, m.WellFormed) →
      socket.incoming = ms.flatMap ClientSend.bytes ++ rest →
      ∃ socket', receiveN (handleClientMsg table sockfd) ms.length socket =
        .ok (ms.map ClientSend.received, socket') ∧ socket'.Holds rest) ∧
    (∀ ms : List Sent, (∀ m ∈ ms, m.WellFormed) →
      socket.incoming = ms.flatMap Sent.bytes ++ rest →
      ∃ socket', receiveN handleTrackerMsg ms.length socket = .ok (ms.map Sent.received, socket') ∧
        socket'.Holds rest) ∧
    ∀ table sockfd peer, getPeerBySocket table sockfd = some peer →
      ∀ ms : List PeerSend, (∀ m ∈ ms, m.WellFormed) →
      socket.incoming = ms.flatMap PeerSend.bytes ++ rest →
      ∃ socket', receiveN (handlePeerMsg table sockfd) ms.length socket =
        .ok (ms.map (PeerSend.received peer), socket') ∧ socket'.Holds rest := by
  refine ⟨fun table sockfd client hclient ms hms hincoming => ?_, fun ms hms hincoming => ?_,
    fun table sockfd peer hpeer ms hms hincoming => ?_⟩
  · have hs : socket.Holds (ms.flatMap ClientSend.bytes ++ rest) := ⟨hsocket, hincoming⟩
    exact receiveN_eq SegmentedStream.Holds
      (fun m _ _ hm h => handleClientMsg_of_holds hclient m hm h) hms hs
  · have hs : socket.Holds (ms.flatMap Sent.bytes ++ rest) := ⟨hsocket, hincoming⟩
    exact receiveN_eq SegmentedStream.Holds
      (fun m _ _ hm h => handleTrackerMsg_of_holds m hm h) hms hs
  · have hs : socket.Holds (ms.flatMap PeerSend.bytes ++ rest) := ⟨hsocket, hincoming⟩
    exact receiveN_eq SegmentedStream.Holds
      (fun m _ _ hm h => handlePeerMsg_of_holds hpeer m hm h) hms hs

/-- A chunk of the file `a` and the rejection of another, three bytes at a time. -/
def chunkAndReject : List PeerSend :=
  [.chunk ⟨7, 2, 0, 2, some [97, 0], 3, some [1, 2, 3]⟩ 0,
    .reqReject ⟨8, 2, 1, 2, some [97, 0], -1, none⟩ 0]

theorem wellFormed_chunkAndReject : ∀ m ∈ chunkAndReject, m.WellFormed := by
  intro m hm
  rcases List.mem_cons.mp hm with rfl | hm
  · exact ⟨by decide, by decide⟩
  · rw [List.mem_singleton.mp hm]
    exact ⟨by decide, rfl⟩

theorem messages_received_chunkAndReject : ∃ socket',
    receiveN (handlePeerMsg [⟨2, [10, 0, 0, 2], 5⟩] 5) 2
        ⟨chunkAndReject.flatMap PeerSend.bytes ++ [9], fun _ => 3⟩ =
      .ok (chunkAndReject.map (PeerSend.received ⟨2, [10, 0, 0, 2], 5⟩), socket') ∧
    socket'.Holds [9] := by
  have hsocket : SegmentedStream.Reliable
      ⟨chunkAndReject.flatMap PeerSend.bytes ++ [9], fun _ => 3⟩ := fun _ => (by decide : (1 : ℤ) ≤ 3)
  exact (messages_received _ hsocket [9]).2.2 [⟨2, [10, 0, 0, 2], 5⟩] 5 ⟨2, [10, 0, 0, 2], 5⟩ rfl
    chunkAndReject wellFormed_chunkAndReject rfl

end DartSync
