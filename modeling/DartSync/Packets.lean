import DartSync.Serial
import DartSync.Library.Stream

/-!
# Packets

The headers of `packets.h`, which are sent in front of a message as they are in memory: the tracker
and a client send each other a type and the length of what follows, two clients the numbers of a
chunk as well. `safe_recv` reads as many bytes as it is asked for, in as many pieces as it takes.
-/

namespace DartSync

/-- `tracker_to_client_t` -/
inductive TrackerToClient
  | transactionUpdate
  | fileAcqUpdate
  | fsUpdate
  | masterStatus
  | peerAdded
  | peerDeleted
  | peerTable
  | masterFt
  deriving DecidableEq

def TrackerToClient.code : TrackerToClient → Int32
  | .transactionUpdate => 0
  | .fileAcqUpdate => 1
  | .fsUpdate => 2
  | .masterStatus => 3
  | .peerAdded => 4
  | .peerDeleted => 5
  | .peerTable => 6
  | .masterFt => 7

/-- `client_to_tracker_t` -/
inductive ClientToTracker
  | heartbeat
  | clientState
  | clientUpdate
  | requestMaster
  | chunkGot
  deriving DecidableEq

def ClientToTracker.code : ClientToTracker → Int32
  | .heartbeat => 0
  | .clientState => 1
  | .clientUpdate => 2
  | .requestMaster => 3
  | .chunkGot => 4

/-- `client_to_client_t` -/
inductive ClientToClient
  | chunkRequest
  | chunk
  | reqReject
  deriving DecidableEq

def ClientToClient.code : ClientToClient → Int32
  | .chunkRequest => 0
  | .chunk => 1
  | .reqReject => 2

/-! ## Headers -/

/-- `tracker_pkt_t` and `client_pkt_t`. A type that arrives is any `int`. -/
structure Pkt where
  type : Int32
  dataLen : Int32
  deriving DecidableEq

/-- `c2c_pkt_t` -/
structure C2cPkt where
  type : Int32
  srcClient : Int32
  chunkNum : Int32
  fileStrLen : Int32
  dataLen : Int32
  jobId : Int32
  deriving DecidableEq

/-- The fields of a header, one after the other. -/
def fieldBytes (fields : List Int32) : List UInt8 := fields.flatMap intBytes

/-- `sizeof(tracker_pkt_t)` and `sizeof(client_pkt_t)` -/
def Pkt.size : ℕ := 8

def Pkt.bytes (pkt : Pkt) : List UInt8 := fieldBytes [pkt.type, pkt.dataLen]

/-- The header that a buffer holds. -/
def Pkt.read (buf : List UInt8) : Except Abort Pkt := do
  return { type := ← readInt buf, dataLen := ← readInt (buf.drop 4) }

/-- `sizeof(c2c_pkt_t)` -/
def C2cPkt.size : ℕ := 24

def C2cPkt.bytes (pkt : C2cPkt) : List UInt8 :=
  fieldBytes [pkt.type, pkt.srcClient, pkt.chunkNum, pkt.fileStrLen, pkt.dataLen, pkt.jobId]

def C2cPkt.read (buf : List UInt8) : Except Abort C2cPkt := do
  return {
    type := ← readInt buf
    srcClient := ← readInt (buf.drop 4)
    chunkNum := ← readInt (buf.drop 8)
    fileStrLen := ← readInt (buf.drop 12)
    dataLen := ← readInt (buf.drop 16)
    jobId := ← readInt (buf.drop 20) }

theorem readInt_fieldBytes (x : Int32) (fields : List Int32) :
    readInt (fieldBytes (x :: fields)) = .ok x := readInt_intBytes

/-- The field behind the first one. -/
theorem drop_fieldBytes (x : Int32) (fields : List Int32) (n : ℕ) :
    (fieldBytes (x :: fields)).drop (n + 4) = (fieldBytes fields).drop n := rfl

@[simp] theorem Pkt.length_bytes (pkt : Pkt) : pkt.bytes.length = Pkt.size := rfl

@[simp] theorem C2cPkt.length_bytes (pkt : C2cPkt) : pkt.bytes.length = C2cPkt.size := rfl

/-- A header is read as it was written. -/
theorem Pkt.read_bytes (pkt : Pkt) : Pkt.read pkt.bytes = .ok pkt := by
  unfold Pkt.read Pkt.bytes
  rw [drop_fieldBytes _ _ 0]
  simp only [List.drop_zero, readInt_fieldBytes]
  rfl

theorem C2cPkt.read_bytes (pkt : C2cPkt) : C2cPkt.read pkt.bytes = .ok pkt := by
  unfold C2cPkt.read C2cPkt.bytes
  simp only [drop_fieldBytes _ _ 0, drop_fieldBytes _ _ 4, drop_fieldBytes _ _ 8,
    drop_fieldBytes _ _ 12, drop_fieldBytes _ _ 16, List.drop_zero, readInt_fieldBytes]
  rfl

/-! ## Reading -/

/-- `safe_recv`: the bytes in the buffer when it is full, and otherwise what is returned. -/
def safeRecv (length : ℕ) (socket : SegmentedStream UInt8) :
    Except ℤ (List UInt8 × SegmentedStream UInt8) :=
  if length = 0 then .ok ([], socket)
  else
    let (ret, bytes, socket) := socket.recv length
    if ret ≤ 0 then .error ret
    else
      match safeRecv (length - ret.toNat) socket with
      | .error ret => .error ret
      | .ok (rest, socket) => .ok (bytes ++ rest, socket)
termination_by length

/-- **`safe_recv`.** It gets the bytes in front, and leaves those behind them. -/
theorem safeRecv_of_holds {length : ℕ} {socket : SegmentedStream UInt8} {data rest : List UInt8}
    (h : socket.Holds (data ++ rest)) (hlength : data.length = length) :
    ∃ socket', safeRecv length socket = .ok (data, socket') ∧ socket'.Holds rest := by
  induction length using Nat.strong_induction_on generalizing socket data with
  | _ length ih =>
    rw [safeRecv]
    split_ifs with hzero
    · obtain rfl := List.length_eq_zero_iff.mp (hlength.trans hzero)
      exact ⟨socket, rfl, h⟩
    · have hne : data ++ rest ≠ [] := fun hnil => by
        rw [(List.append_eq_nil_iff.mp hnil).1] at hlength
        exact hzero hlength.symm
      obtain ⟨k, socket₁, hk, hkn, -, hrecv, h₁⟩ := h.recv hne hzero
      -- the first read stays within the bytes that are asked for
      rw [List.drop_append_of_le_length (by omega)] at h₁
      obtain ⟨socket₂, hrest, h₂⟩ := ih (length - k) (by omega) h₁ (by rw [List.length_drop]; omega)
      refine ⟨socket₂, ?_, h₂⟩
      rw [hrecv]
      dsimp only
      rw [if_neg (by omega), Int.toNat_natCast, hrest, List.take_append_of_le_length (by omega)]
      dsimp only
      rw [List.take_append_drop]

end DartSync
