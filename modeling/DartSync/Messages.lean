import DartSync.FileSystem.Codec

/-!
# Diffs on the wire

A client sends the additions and the deletions of a diff one behind the other
(`sendUpdatedFiles`), and the tracker passes them on with the id of the author (`sendFSUpdate`). The
receivers find the second tree where the first one ends.
-/

namespace DartSync

/-- `client_data_t`, `tracker_data_t`; `data_len` is the length of `data`. -/
structure QueueItem where
  clientId : Int32
  data : List UInt8

/-- The data that `send_updated_files` queues. -/
def sendUpdatedFiles (additions deletions : FileSystem) : List UInt8 :=
  filesystemSerialize additions ++ filesystemSerialize deletions

/-- The `queue_item` of `send_FS_update`. -/
def fsUpdateItem (destinationClient originatorClient : Int32) (additions deletions : FileSystem) :
    QueueItem where
  clientId := destinationClient
  data := filesystemSerialize additions ++ (filesystemSerialize deletions ++ intBytes originatorClient)

/-- `send_FS_update`: what it returns, and what it queues. -/
def sendFSUpdate (peerTable : List Int32) (destinationClient originatorClient : Int32)
    (additions deletions : FileSystem) : ℤ × Option QueueItem :=
  if destinationClient ∈ peerTable then
    ((filesystemSerialize additions).length + (filesystemSerialize deletions).length,
      some (fsUpdateItem destinationClient originatorClient additions deletions))
  else (-1, none)

/-- `receive_client_update`: what it returns, and the author, the additions and the deletions. -/
def receiveClientUpdate : Option QueueItem →
    Except Abort (ℤ × Option (Int32 × FileSystem × FileSystem))
  | none => .ok (-1, none)
  | some queueItem => do
    let (additions, additionsLength) ← filesystemDeserialize queueItem.data
    let (deletions, deletionsLength) ← filesystemDeserialize (queueItem.data.drop additionsLength)
    pure (if 0 < additionsLength then (additionsLength + deletionsLength : ℤ) else -1,
      some (queueItem.clientId, additions, deletions))

/-- `recv_diff`: what it returns, and the additions, the deletions and the author. -/
def recvDiff : Option QueueItem → Except Abort (ℤ × Option (FileSystem × FileSystem × Int32))
  | none => .ok (-1, none)
  | some queueItem => do
    let (additions, len1) ← filesystemDeserialize queueItem.data
    let (deletions, len2) ← filesystemDeserialize (queueItem.data.drop len1)
    let authorId ← readInt (queueItem.data.drop (len1 + len2))
    pure (if 0 < len1 then 1 else -1, some (additions, deletions, authorId))

variable {additions deletions filesystem : FileSystem} {clientId originator destination : Int32}
  {rest : List UInt8}

theorem length_filesystemSerialize_pos : 0 < (filesystemSerialize filesystem).length := by
  unfold filesystemSerialize
  rw [filesystemSerializeHelper_eq]
  exact Nat.succ_pos _

/-- The second of two trees. -/
theorem filesystemDeserialize_drop (additions deletions : FileSystem) (rest : List UInt8) :
    filesystemDeserialize
    ((filesystemSerialize additions ++ (filesystemSerialize deletions ++ rest)).drop
      (filesystemSerialize additions).length) =
      .ok (⟨none, deletions.root⟩, (filesystemSerialize deletions).length) := by
  rw [List.drop_left]
  exact filesystemDeserialize_append

theorem receiveClientUpdate_sendUpdatedFiles :
    receiveClientUpdate (some ⟨clientId, sendUpdatedFiles additions deletions⟩) =
      .ok ((sendUpdatedFiles additions deletions).length,
        some (clientId, ⟨none, additions.root⟩, ⟨none, deletions.root⟩)) := by
  have hsecond := filesystemDeserialize_drop additions deletions []
  rw [List.append_nil] at hsecond
  unfold receiveClientUpdate sendUpdatedFiles
  dsimp only
  rw [filesystemDeserialize_append]
  show (filesystemDeserialize _ >>= _) = _
  rw [hsecond]
  show Except.ok (if _ then _ else _, _) = _
  rw [if_pos length_filesystemSerialize_pos, List.length_append, Int.natCast_add]

theorem recvDiff_fsUpdateItem :
    recvDiff (some (fsUpdateItem destination originator additions deletions)) =
      .ok (1, some (⟨none, additions.root⟩, ⟨none, deletions.root⟩, originator)) := by
  have hauthor : (filesystemSerialize additions ++ (filesystemSerialize deletions ++
      intBytes originator)).drop ((filesystemSerialize additions).length +
        (filesystemSerialize deletions).length) = intBytes originator ++ [] := by
    rw [← List.drop_drop, List.drop_left, List.drop_left, List.append_nil]
  unfold recvDiff fsUpdateItem
  dsimp only
  rw [filesystemDeserialize_append]
  show (filesystemDeserialize _ >>= _) = _
  rw [filesystemDeserialize_drop]
  show (readInt _ >>= _) = _
  rw [hauthor, readInt_intBytes]
  show Except.ok (if _ then _ else _, _) = _
  rw [if_pos length_filesystemSerialize_pos]

/-- What `send_FS_update` queues for a peer is read by `recv_diff`. -/
theorem recvDiff_sendFSUpdate {peerTable : List Int32} :
    (sendFSUpdate peerTable destination originator additions deletions).2.map
        (fun queueItem => recvDiff (some queueItem)) =
      if destination ∈ peerTable then
        some (.ok (1, some (⟨none, additions.root⟩, ⟨none, deletions.root⟩, originator)))
      else none := by
  unfold sendFSUpdate
  split_ifs
  · exact congrArg some recvDiff_fsUpdateItem
  · rfl

/-- **Trees on the wire.** A tree written before any bytes is read back, with the length of what was
written; a client's update reaches the tracker, and the tracker's diff a client, as the trees and the
author that were sent. -/
theorem filesystem_roundTrip (filesystem additions deletions : FileSystem) (suffix : List UInt8)
    (clientId destination originator : Int32) (peerTable : List Int32) :
    filesystemDeserialize (filesystemSerialize filesystem ++ suffix) =
        .ok (⟨none, filesystem.root⟩, (filesystemSerialize filesystem).length) ∧
      receiveClientUpdate (some ⟨clientId, sendUpdatedFiles additions deletions⟩) =
        .ok ((sendUpdatedFiles additions deletions).length,
          some (clientId, ⟨none, additions.root⟩, ⟨none, deletions.root⟩)) ∧
      (sendFSUpdate peerTable destination originator additions deletions).2.map
          (fun queueItem => recvDiff (some queueItem)) =
        if destination ∈ peerTable then
          some (.ok (1, some (⟨none, additions.root⟩, ⟨none, deletions.root⟩, originator)))
        else none :=
  ⟨filesystemDeserialize_append, receiveClientUpdate_sendUpdatedFiles, recvDiff_sendFSUpdate⟩

end DartSync
