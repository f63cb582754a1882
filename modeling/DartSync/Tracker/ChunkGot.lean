import DartSync.Framing
import DartSync.Messages

/-!
# Acquisitions on the wire

A client announces a chunk by its number and its path (`sendChunkGot`); the tracker passes it on with
the id of the client between the two (`sendGotChunkUpdate`). `receive_client_got` moves what follows
the number into a buffer for a path. It takes the length from the packet, so a message is decoded
safely exactly if the rest fits the buffer and leaves a NUL there (`chunkGot_iff`).
-/

namespace DartSync

/-- `PATH_MAX` of `limits.h` -/
def pathMax : ℕ := 4096

/-- The buffer `file_got` of the tracker's main loop. -/
structure PathBuffer where
  bytes : List UInt8
  length_eq : bytes.length = pathMax + 1

/-- `client_data_t` in the tracker -/
structure ClientDataT where
  clientId : Int32
  dataLen : Int32
  data : Option (List UInt8)

/-- What `receive_client_got` fills in. -/
structure ClientGot where
  path : PathBuffer
  chunkNum : Int32
  clientId : Int32

/-- The `queue_item` of `send_chunk_got` -/
def sendChunkGot (path : CString) (chunkNum : Int32) : ClientData where
  dataLen := .ofNat (path.length + 1 + 4)
  data := some (intBytes chunkNum ++ pushString path)

/-- What `handle_client_msg` queues for a CHUNK_GOT of the client `id`. -/
def handleChunkGot (id : Int32) (m : ReceivedMessage) : ClientDataT := ⟨id, m.pkt.dataLen, m.buf⟩

/-- `memmove(path, data + 4, n)` -/
def movePath (path : PathBuffer) (data : List UInt8) (n : ℕ) : Except Abort PathBuffer :=
  if h : n ≤ (data.drop 4).length ∧ n ≤ pathMax + 1 then
    .ok ⟨(data.drop 4).take n ++ path.bytes.drop n, by
      rw [List.length_append, List.length_take_of_le h.1, List.length_drop, path.length_eq]
      exact Nat.add_sub_of_le h.2⟩
  else .error .outOfBounds

/-- `data_len - sizeof(int)`, as a `size_t` -/
def pathSize (dataLen : Int32) : ℕ := ((dataLen.toInt - 4) % 2 ^ 64).toNat

/-- `receive_client_got` -/
def receiveClientGot (path : PathBuffer) : Option ClientDataT → Except Abort (ℤ × Option ClientGot)
  | none => .ok (-1, none)
  | some dataPkt =>
    match dataPkt.data with
    | none => .error .nullPointer
    | some data => do
      let chunkNum ← readInt data
      let path ← movePath path data (pathSize dataPkt.dataLen)
      return (1, some ⟨path, chunkNum, dataPkt.clientId⟩)

/-- `send_got_chunk_update`: what it returns, and what it queues. -/
def sendGotChunkUpdate (peerTable : List Int32) (destId gotId : Int32) (filename : CString)
    (chunkNum : Int32) : ℤ × Option QueueItem :=
  if destId ∈ peerTable then
    (1, some ⟨destId, intBytes chunkNum ++ (intBytes gotId ++ pushString filename)⟩)
  else (-1, none)

/-- `receive_chunk_got`: what it returns, and the client, the path and the chunk number. -/
def receiveChunkGot : Option QueueItem → Except Abort (ℤ × Option (Int32 × CString × Int32))
  | none => .ok (-1, none)
  | some queueItem => do
    let chunkNum ← readInt queueItem.data
    let clientId ← readInt (queueItem.data.drop 4)
    let (filename, _) ← readString (queueItem.data.drop 8)
    return (1, some (clientId, filename, chunkNum))

variable {path : PathBuffer} {payload : List UInt8} {id : Int32} {p : CString}

/-! ## Decoding -/

/-- A CHUNK_GOT as it arrives, with these bytes behind its header. -/
def chunkGotMessage (payload : List UInt8) : ReceivedMessage :=
  ⟨⟨ClientToTracker.chunkGot.code, .ofNat payload.length⟩,
    arrives (some payload) (.ofNat payload.length)⟩

/-- The decoding stays in the buffers, and leaves a NUL in the path unless it rejects the message. -/
def DecodesSafely (path : PathBuffer) (id : Int32) (payload : List UInt8) : Prop :=
  ∃ ret got, receiveClientGot path (some (handleChunkGot id (chunkGotMessage payload))) = .ok (ret, got) ∧
    ∀ g ∈ got, 0 ∈ g.path.bytes

theorem readInt_isOk {data : List UInt8} : (∃ x, readInt data = .ok x) ↔ 4 ≤ data.length := by
  rcases data with _ | ⟨b0, _ | ⟨b1, _ | ⟨b2, _ | ⟨b3, data⟩⟩⟩⟩ <;> simp [readInt]

theorem toInt_ofNat_length (hlen : payload.length < 2 ^ 31) :
    (Int32.ofNat payload.length).toInt = payload.length := Int32.toInt_ofNat_of_lt hlen

theorem arrives_payload (hlen : payload.length < 2 ^ 31) (h : 0 < payload.length) :
    arrives (some payload) (.ofNat payload.length) = some payload := by
  unfold arrives
  rw [toInt_ofNat_length hlen, if_pos (by omega)]
  rfl

theorem pathSize_payload (hlen : payload.length < 2 ^ 31) (h : 4 ≤ payload.length) :
    pathSize (.ofNat payload.length) = payload.length - 4 := by
  unfold pathSize
  rw [toInt_ofNat_length hlen]
  omega

theorem movePath_isOk {data : List UInt8} {n : ℕ} :
    (∃ path', movePath path data n = .ok path') ↔ n ≤ (data.drop 4).length ∧ n ≤ pathMax + 1 := by
  unfold movePath
  constructor
  · rintro ⟨path', h⟩
    by_contra hn
    rw [dif_neg hn] at h
    cases h
  · intro hn
    exact ⟨_, dif_pos hn⟩

theorem bytes_movePath {path' : PathBuffer} {data : List UInt8} {n : ℕ}
    (h : movePath path data n = .ok path') :
    path'.bytes = (data.drop 4).take n ++ path.bytes.drop n := by
  unfold movePath at h
  split_ifs at h with hn
  cases h
  rfl

/-- What the decoding of a message comes to: the number, and the rest moved in front of the buffer. -/
theorem receiveClientGot_iff {ret : ℤ} {got : Option ClientGot} (hlen : payload.length < 2 ^ 31) :
    receiveClientGot path (some (handleChunkGot id (chunkGotMessage payload))) = .ok (ret, got) ↔
      ∃ path' chunkNum, ret = 1 ∧ got = some ⟨path', chunkNum, id⟩ ∧ readInt payload = .ok chunkNum ∧
        movePath path payload (payload.length - 4) = .ok path' := by
  unfold receiveClientGot handleChunkGot chunkGotMessage
  dsimp only
  rcases Nat.eq_zero_or_pos payload.length with hzero | hpos
  · rw [List.length_eq_zero_iff.mp hzero]
    constructor
    · rintro ⟨⟩
    · rintro ⟨_, _, -, -, ⟨⟩, -⟩
  · rw [arrives_payload hlen hpos]
    dsimp only
    constructor
    · intro h
      obtain ⟨chunkNum, hread, h⟩ := bind_eq_ok.mp h
      obtain ⟨path', hmove, h⟩ := bind_eq_ok.mp h
      cases h
      rw [pathSize_payload hlen (readInt_isOk.mp ⟨chunkNum, hread⟩)] at hmove
      exact ⟨path', chunkNum, rfl, rfl, hread, hmove⟩
    · rintro ⟨path', chunkNum, rfl, rfl, hread, hmove⟩
      rw [← pathSize_payload hlen (readInt_isOk.mp ⟨chunkNum, hread⟩)] at hmove
      exact bind_eq_ok.mpr ⟨chunkNum, hread, bind_eq_ok.mpr ⟨path', hmove, rfl⟩⟩

theorem decodesSafely_iff (hlen : payload.length < 2 ^ 31) : DecodesSafely path id payload ↔
    4 ≤ payload.length ∧ payload.length ≤ 4 + (pathMax + 1) ∧
      (0 ∈ payload.drop 4 ∨ 0 ∈ path.bytes.drop (payload.length - 4)) := by
  unfold DecodesSafely
  simp only [receiveClientGot_iff hlen]
  constructor
  · rintro ⟨ret, got, ⟨path', chunkNum, rfl, rfl, hread, hmove⟩, hnul⟩
    have h4 := readInt_isOk.mp ⟨chunkNum, hread⟩
    have hfits := (movePath_isOk.mp ⟨path', hmove⟩).2
    have hmem : 0 ∈ path'.bytes := hnul _ rfl
    rw [bytes_movePath hmove, List.mem_append,
      List.take_of_length_le (by rw [List.length_drop])] at hmem
    exact ⟨h4, by omega, hmem⟩
  · rintro ⟨h4, hfits, hmem⟩
    obtain ⟨chunkNum, hread⟩ := readInt_isOk.mpr h4
    obtain ⟨path', hmove⟩ : ∃ path', movePath path payload (payload.length - 4) = .ok path' :=
      movePath_isOk.mpr ⟨by rw [List.length_drop], by omega⟩
    refine ⟨1, _, ⟨path', chunkNum, rfl, rfl, hread, hmove⟩, fun g hg => ?_⟩
    cases hg
    show 0 ∈ path'.bytes
    rw [bytes_movePath hmove, List.mem_append, List.take_of_length_le (by rw [List.length_drop])]
    exact hmem

/-! ## The relay -/

theorem length_intBytes (x : Int32) : (intBytes x).length = 4 := rfl

theorem length_announcement (p : CString) (chunkNum : Int32) :
    (intBytes chunkNum ++ pushString p).length = p.length + 1 + 4 := by
  rw [List.length_append, length_pushString, length_intBytes, Nat.add_comm]

/-- An announcement arrives as the number and the path with its NUL. -/
theorem received_sendChunkGot (p : CString) (chunkNum : Int32) :
    (ClientSend.fileAcq (sendChunkGot p chunkNum)).received =
      chunkGotMessage (intBytes chunkNum ++ pushString p) := by
  unfold chunkGotMessage
  rw [length_announcement]
  rfl

/-- The header of an announcement says how long it is, so it is received as it was sent. -/
theorem wellFormed_sendChunkGot (hp : p.length ≤ pathMax) (chunkNum : Int32) :
    (ClientSend.fileAcq (sendChunkGot p chunkNum)).WellFormed := by
  have hlt : p.length + 1 + 4 < 2 ^ 31 := by
    unfold pathMax at hp
    omega
  show (Int32.ofNat (p.length + 1 + 4)).toInt = _
  rw [Int32.toInt_ofNat_of_lt hlt]
  exact congrArg Nat.cast (length_announcement p chunkNum).symm

/-- A path that fits the buffer is decoded. -/
theorem receiveClientGot_sendChunkGot (path : PathBuffer) (id chunkNum : Int32) (hp : p.length ≤ pathMax) :
    ∃ path', receiveClientGot path
        (some (handleChunkGot id (ClientSend.fileAcq (sendChunkGot p chunkNum)).received)) =
          .ok (1, some ⟨path', chunkNum, id⟩) ∧ CString.ofBytes path'.bytes = p := by
  have hdrop : (intBytes chunkNum ++ pushString p).drop 4 = pushString p :=
    List.drop_left' (length_intBytes chunkNum)
  have hlen : (intBytes chunkNum ++ pushString p).length - 4 = (pushString p).length := by
    rw [length_announcement, length_pushString, Nat.add_sub_cancel]
  have hlt : (intBytes chunkNum ++ pushString p).length < 2 ^ 31 := by
    rw [length_announcement]
    unfold pathMax at hp
    omega
  obtain ⟨path', hmove⟩ : ∃ path', movePath path (intBytes chunkNum ++ pushString p)
      ((intBytes chunkNum ++ pushString p).length - 4) = .ok path' := by
    rw [movePath_isOk, hdrop, hlen, length_pushString]
    exact ⟨le_refl _, Nat.succ_le_succ hp⟩
  refine ⟨path', ?_, ?_⟩
  · rw [received_sendChunkGot, receiveClientGot_iff hlt]
    exact ⟨path', chunkNum, rfl, rfl, readInt_intBytes, hmove⟩
  · rw [bytes_movePath hmove, hdrop, hlen, List.take_of_length_le (le_refl _), ofBytes_pushString]

theorem receiveChunkGot_sendGotChunkUpdate {peerTable : List Int32} {destId : Int32}
    (hdest : destId ∈ peerTable) (id : Int32) (p : CString) (chunkNum : Int32) :
    (sendGotChunkUpdate peerTable destId id p chunkNum).2.map (fun item => receiveChunkGot (some item)) =
      some (.ok (1, some (id, p, chunkNum))) := by
  unfold sendGotChunkUpdate
  rw [if_pos hdest]
  refine congrArg some (bind_eq_ok.mpr ⟨chunkNum, readInt_intBytes, bind_eq_ok.mpr ⟨id, ?_, ?_⟩⟩)
  · exact readInt_intBytes
  · have hread : readString (pushString p) = .ok (p, []) := by
      have h : readString (pushString p ++ []) = .ok (p, []) := readString_pushString
      rwa [List.append_nil] at h
    exact bind_eq_ok.mpr ⟨_, hread, rfl⟩

/-- **Acquisitions.** Whatever the buffer for the path holds before, a CHUNK_GOT is decoded safely
exactly if it has room for a chunk number, what follows fits the buffer, and a NUL is left in it. An
announcement of a path of at most `PATH_MAX` bytes is decoded, and what the tracker then sends to a
peer of its table is read as the same path and chunk, and the client that has announced it. -/
theorem chunkGot_iff (path : PathBuffer) (id : Int32) (payload : List UInt8)
    (hlen : payload.length < 2 ^ 31) :
    (DecodesSafely path id payload ↔ 4 ≤ payload.length ∧ payload.length ≤ 4 + (pathMax + 1) ∧
      (0 ∈ payload.drop 4 ∨ 0 ∈ path.bytes.drop (payload.length - 4))) ∧
    ∀ (p : CString) (chunkNum : Int32), p.length ≤ pathMax →
      ∃ path', receiveClientGot path
          (some (handleChunkGot id (ClientSend.fileAcq (sendChunkGot p chunkNum)).received)) =
            .ok (1, some ⟨path', chunkNum, id⟩) ∧
        ∀ (peerTable : List Int32) (destId : Int32), destId ∈ peerTable →
          (sendGotChunkUpdate peerTable destId id (.ofBytes path'.bytes) chunkNum).2.map
              (fun item => receiveChunkGot (some item)) = some (.ok (1, some (id, p, chunkNum))) := by
  refine ⟨decodesSafely_iff hlen, fun p chunkNum hp => ?_⟩
  obtain ⟨path', hreceive, hpath⟩ := receiveClientGot_sendChunkGot path id chunkNum hp
  refine ⟨path', hreceive, fun peerTable destId hdest => ?_⟩
  rw [hpath]
  exact receiveChunkGot_sendGotChunkUpdate hdest id p chunkNum

namespace ChunkGotExample

/-- The buffer as the main loop clears it. -/
def cleared : PathBuffer := ⟨List.replicate (pathMax + 1) 0, List.length_replicate⟩

/-- Chunk 1 of `/a`, without the NUL. -/
def announcement : List UInt8 := [1, 0, 0, 0, 47, 97]

end ChunkGotExample

open ChunkGotExample

theorem chunkGot_iff_cleared : (DecodesSafely cleared 2 announcement ↔
      4 ≤ announcement.length ∧ announcement.length ≤ 4 + (pathMax + 1) ∧
        (0 ∈ announcement.drop 4 ∨ 0 ∈ cleared.bytes.drop (announcement.length - 4))) ∧
    ∃ path', receiveClientGot cleared (some (handleChunkGot 2
        (ClientSend.fileAcq (sendChunkGot (.ofBytes [47, 97]) 1)).received)) =
          .ok (1, some ⟨path', 1, 2⟩) ∧
      ∀ (peerTable : List Int32) (destId : Int32), destId ∈ peerTable →
        (sendGotChunkUpdate peerTable destId 2 (.ofBytes path'.bytes) 1).2.map
          (fun item => receiveChunkGot (some item)) = some (.ok (1, some (2, .ofBytes [47, 97], 1))) := by
  obtain ⟨hiff, hrelay⟩ := chunkGot_iff cleared 2 announcement (by decide)
  exact ⟨hiff, hrelay (.ofBytes [47, 97]) 1 (by decide)⟩

/-- A CHUNK_GOT of three bytes is read beyond its end. -/
theorem not_decodesSafely_short : ¬ DecodesSafely cleared 2 [1, 0, 0] := by
  rw [decodesSafely_iff (by decide)]
  decide

end DartSync
