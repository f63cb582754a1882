import DartSync.FileTable.Entries
import DartSync.Tracker.Keys

/-!
# Late acquisitions

A client announces a chunk by path and number. When the tracker gets to the message the file may
have been deleted or replaced by a shorter one. `filetable_set_that_peer_has_file_chunk` then ends in
`assert(0)`, or, for the first chunk number that is too large, beyond the end of the array.
-/

namespace DartSync

open FileTable Runs

variable {t t' : Tracker} {fileGot : CString} {chunkGot peerGotId : ℤ} {ft : FileTable}
  {sent : List (ℤ × TrackerMessage)}

/-- `t'` is `t` but for the owners of that chunk, if there is such a chunk. -/
structure SameButOwners (t t' : Tracker) (fileGot : CString) (chunkGot : ℤ) : Prop where
  fs : t'.fs = t.fs
  peerTable : t'.peerTable = t.peerTable
  filetable : ∀ p, t'.filetable.lookup p = t.filetable.lookup p ∨ p = fileGot ∧
    ∃ e owners, t.filetable.lookup fileGot = some e ∧ 0 ≤ chunkGot ∧ chunkGot < e.chunks.length ∧
      t'.filetable.lookup fileGot =
        some { e with chunks := e.chunks.set chunkGot.toNat owners }

theorem SameButOwners.refl (t : Tracker) (fileGot : CString) (chunkGot : ℤ) :
    SameButOwners t t fileGot chunkGot :=
  ⟨rfl, rfl, fun _ => Or.inl rfl⟩

/-- The message is handled, and changes at most the owners of that chunk. -/
def HandlesGot (t : Tracker) (fileGot : CString) (chunkGot peerGotId : ℤ) : Prop :=
  ∃ t' sent, t.step (.clientGot fileGot chunkGot peerGotId) = .ok (t', sent) ∧
    SameButOwners t t' fileGot chunkGot

/-- Only the entry of the path changes, and there only the owners of the chunk. -/
theorem lookup_filetableSetThatPeerHasFileChunk {ft' : FileTable}
    (h : filetableSetThatPeerHasFileChunk ft fileGot peerGotId chunkGot = .ok ft') (p : CString) :
    ft'.lookup p = ft.lookup p ∨ p = fileGot ∧
      ∃ e owners, ft.lookup fileGot = some e ∧ 0 ≤ chunkGot ∧ chunkGot < e.chunks.length ∧
        ft'.lookup fileGot = some { e with chunks := e.chunks.set chunkGot.toNat owners } := by
  obtain ⟨e, owners, he, hpos, howners, rfl⟩ := filetableSetThatPeerHasFileChunk_ok h
  split_ifs with hmem
  · exact Or.inl rfl
  · have hlt := (List.getElem?_eq_some_iff.mp howners).1
    have hpath := path_of_lookup he
    have hlook : FileTable.IsUpdate ft _ fileGot { e with
        chunks := e.chunks.set chunkGot.toNat (owners ++ [peerGotId]) } :=
      isUpdate_overwrite he hpath
    by_cases hp : p = fileGot
    · exact Or.inr ⟨hp, e, _, he, hpos, by omega, by rw [hlook, if_pos rfl]⟩
    · exact Or.inl (by rw [hlook, if_neg hp])

theorem step_clientGot_of_contains (h : containsPeer t.peerTable peerGotId = true) :
    t.step (.clientGot fileGot chunkGot peerGotId) = (do
      let filetable ← filetableSetThatPeerHasFileChunk t.filetable fileGot peerGotId chunkGot
      return ({ t with filetable := filetable },
        clientGotBroadcast t.peerTable fileGot chunkGot peerGotId)) :=
  if_pos h

theorem step_clientGot_of_not (h : containsPeer t.peerTable peerGotId = false) :
    t.step (.clientGot fileGot chunkGot peerGotId) = .ok (t, []) :=
  if_neg (by rw [h]; decide)

theorem handlesGot_of_not (h : containsPeer t.peerTable peerGotId = false) :
    HandlesGot t fileGot chunkGot peerGotId :=
  ⟨t, [], step_clientGot_of_not h, .refl t fileGot chunkGot⟩

theorem handlesGot_of_hasChunk (h : t.filetable.HasChunk fileGot chunkGot) :
    HandlesGot t fileGot chunkGot peerGotId := by
  cases hpeer : containsPeer t.peerTable peerGotId with
  | false => exact handlesGot_of_not hpeer
  | true =>
    obtain ⟨ft', hft⟩ := filetableSetThatPeerHasFileChunk_isOk.mpr h
    refine ⟨_, _, (step_clientGot_of_contains hpeer).trans (bind_eq_ok.mpr ⟨ft', hft, rfl⟩),
      rfl, rfl, ?_⟩
    exact lookup_filetableSetThatPeerHasFileChunk hft

/-- **Late acquisitions.** The tracker gets through an acquisition, whatever has happened to the
file, exactly when the peer has left the peer table or the entry still has that chunk. -/
theorem handlesGot_iff : HandlesGot t fileGot chunkGot peerGotId ↔
    containsPeer t.peerTable peerGotId = false ∨ t.filetable.HasChunk fileGot chunkGot := by
  constructor
  · rintro ⟨t', sent, h, -⟩
    cases hpeer : containsPeer t.peerTable peerGotId with
    | false => exact Or.inl rfl
    | true =>
      rw [step_clientGot_of_contains hpeer] at h
      obtain ⟨ft', hft, -⟩ := bind_eq_ok.mp h
      exact Or.inr (filetableSetThatPeerHasFileChunk_isOk.mp ⟨ft', hft⟩)
  · rintro (h | h)
    · exact handlesGot_of_not h
    · exact handlesGot_of_hasChunk h

/-! ## A file that is deleted in the meantime -/

open UpdateRun

/-- Peers 1 and 2 join and peer 1 adds a file. Peer 2 gets its chunk from peer 1; its message would
be handled, but peer 1 deletes the file first. -/
theorem got_of_deleted_file :
    ∃ s t, Run TrackerRun.step IsLegal .initial [.joins 1, .joins 2, .update 1 0 withFile] s ∧
      HandlesGot s.tracker (.ofBytes [47, 100, 47, 121]) 0 2 ∧
      Run TrackerRun.step IsLegal s [.update 1 0 emptyFilesystem] t ∧
      t.tracker.step (.clientGot (.ofBytes [47, 100, 47, 121]) 0 2) = .error .chunkDoesNotExist ∧
      ¬ HandlesGot t.tracker (.ofBytes [47, 100, 47, 121]) 0 2 := by
  have hrun : (runIf TrackerRun.step isLegalTest .initial
      [.joins 1, .joins 2, .update 1 0 withFile]).any (fun s =>
      (s.tracker.filetable.lookup (.ofBytes [47, 100, 47, 121])).any (fun e => e.chunks.length = 1) &&
      (runIf TrackerRun.step isLegalTest s [.update 1 0 emptyFilesystem]).any fun t =>
        failsWith .chunkDoesNotExist
          (t.tracker.step (.clientGot (.ofBytes [47, 100, 47, 121]) 0 2))) = true := by decide +kernel
  obtain ⟨s, hs, htest⟩ := (Option.any_eq_true _ _).mp hrun
  rw [Bool.and_eq_true] at htest
  obtain ⟨e, he, hlen⟩ := (Option.any_eq_true _ _).mp htest.1
  obtain ⟨t, ht, hfail⟩ := (Option.any_eq_true _ _).mp htest.2
  rw [decide_eq_true_eq] at hlen
  have hfail := failsWith_iff.mp hfail
  refine ⟨s, t, run_of_runIf isLegal_of_test hs, ?_, run_of_runIf isLegal_of_test ht, hfail, ?_⟩
  · exact handlesGot_of_hasChunk ⟨e, he, le_refl 0, by omega⟩
  · rintro ⟨t', sent, h, -⟩
    rw [hfail] at h
    cases h

end DartSync
