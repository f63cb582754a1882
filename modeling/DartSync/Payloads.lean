import DartSync.FileSystem.Decode
import DartSync.FileTable.Decode
import DartSync.Messages

/-!
# Payloads that are decoded

Which bytes of a message reach `filesystem_deserialize` and `filetable_deserialize`. The decoders are not
told how long the buffer is, so they stay in it exactly if the payload is what they read: two trees one
behind the other for an update, a tree or a table for the tracker's state (`staysInside_iff`).
-/

namespace DartSync

/-- A message with a payload that is decoded. -/
inductive DecodedMessage
  | clientUpdate
  | fsUpdate
  | masterStatus
  | masterFt
  deriving DecidableEq

/-- The decoders that `receive_client_update`, `recv_diff` and `handle_tracker_msg` call return, inside
the payload. Without a payload the buffer is NULL, and the decoders abort as they do on an empty one. -/
def StaysInside : DecodedMessage → List UInt8 → Prop
  | .clientUpdate, payload | .fsUpdate, payload =>
    ∃ rest rest', ReturnsInside filesystemDeserialize payload rest ∧
      ReturnsInside filesystemDeserialize rest rest'
  | .masterStatus, payload => ∃ rest, ReturnsInside filesystemDeserialize payload rest
  | .masterFt, payload => ∃ rest, ReturnsInside filetableDecode payload rest

/-- A complete payload; bytes may follow. -/
def IsPayload : DecodedMessage → List UInt8 → Prop
  | .clientUpdate, payload | .fsUpdate, payload => ∃ rest rest', IsTree payload rest ∧ IsTree rest rest'
  | .masterStatus, payload => ∃ rest, IsTree payload rest
  | .masterFt, payload => ∃ rest, IsTable payload rest

variable {payload rest : List UInt8} {clientId : Int32}

theorem staysInside_iff_isPayload {message : DecodedMessage} :
    StaysInside message payload ↔ IsPayload message payload := by
  cases message with
  | clientUpdate | fsUpdate =>
    unfold StaysInside IsPayload
    simp only [returnsInside_filesystemDeserialize]
  | masterStatus => exact exists_congr fun _ => returnsInside_filesystemDeserialize
  | masterFt => exact exists_congr fun _ => returnsInside_filetableDecode

/-- `receive_client_update` returns exactly if its two calls of the decoder do. -/
theorem receiveClientUpdate_isOk : (∃ r, receiveClientUpdate (some ⟨clientId, payload⟩) = .ok r) ↔
    StaysInside .clientUpdate payload := by
  constructor
  · rintro ⟨r, hok⟩
    obtain ⟨⟨additions, additionsLength⟩, hadditions, hok⟩ := bind_eq_ok.mp hok
    obtain ⟨⟨deletions, deletionsLength⟩, hdeletions, -⟩ := bind_eq_ok.mp hok
    obtain ⟨hpos, hle, -⟩ := filesystemDeserialize_ok hadditions
    obtain ⟨hpos', hle', -⟩ := filesystemDeserialize_ok hdeletions
    exact ⟨_, _, ⟨additions, _, hadditions, hpos, hle, rfl⟩,
      ⟨deletions, _, hdeletions, hpos', hle', rfl⟩⟩
  · rintro ⟨rest, rest', ⟨additions, additionsLength, hadditions, -, -, rfl⟩,
      ⟨deletions, deletionsLength, hdeletions, -⟩⟩
    exact ⟨_, bind_eq_ok.mpr ⟨_, hadditions, bind_eq_ok.mpr ⟨_, hdeletions, rfl⟩⟩⟩

/-- `recv_diff` reads the id of the author behind the two trees. -/
theorem recvDiff_isOk : (∃ r, recvDiff (some ⟨clientId, payload⟩) = .ok r) ↔
    ∃ rest rest', ReturnsInside filesystemDeserialize payload rest ∧
      ReturnsInside filesystemDeserialize rest rest' ∧ ∃ authorId, readInt rest' = .ok authorId := by
  constructor
  · rintro ⟨r, hok⟩
    obtain ⟨⟨additions, len1⟩, hadditions, hok⟩ := bind_eq_ok.mp hok
    obtain ⟨⟨deletions, len2⟩, hdeletions, hok⟩ := bind_eq_ok.mp hok
    obtain ⟨authorId, hauthor, -⟩ := bind_eq_ok.mp hok
    obtain ⟨hpos, hle, -⟩ := filesystemDeserialize_ok hadditions
    obtain ⟨hpos', hle', -⟩ := filesystemDeserialize_ok hdeletions
    rw [← List.drop_drop] at hauthor
    exact ⟨_, _, ⟨additions, _, hadditions, hpos, hle, rfl⟩,
      ⟨deletions, _, hdeletions, hpos', hle', rfl⟩, authorId, hauthor⟩
  · rintro ⟨rest, rest', ⟨additions, len1, hadditions, -, -, rfl⟩,
      ⟨deletions, len2, hdeletions, -, -, rfl⟩, authorId, hauthor⟩
    rw [List.drop_drop] at hauthor
    exact ⟨_, bind_eq_ok.mpr ⟨_, hadditions, bind_eq_ok.mpr ⟨_, hdeletions,
      bind_eq_ok.mpr ⟨_, hauthor, rfl⟩⟩⟩⟩

/-- **Payloads.** Neither decoder ever goes on without reading, and the decoders stay in the payload of a
message exactly if it is complete. -/
theorem staysInside_iff (message : DecodedMessage) (payload : List UInt8) :
    filesystemDeserialize payload ≠ .error .diverges ∧ filetableDecode payload ≠ .error .diverges ∧
    (StaysInside message payload ↔ IsPayload message payload) :=
  ⟨filesystemDeserialize_ne_diverges, filetableDecode_ne_diverges, staysInside_iff_isPayload⟩

/-- A root without its end. -/
theorem not_staysInside_truncated : ¬ StaysInside .masterStatus [0xFE, 0] := by
  rintro ⟨rest, fs, bytesRead, hok, -⟩
  have herror : filesystemDeserialize [0xFE, 0] = .error .outOfBounds := rfl
  rw [herror] at hok
  cases hok

end DartSync
