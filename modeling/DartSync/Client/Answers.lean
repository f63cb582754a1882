import DartSync.Client.Delivery

/-!
# Answers that come too late

A file can change or go away while a request for one of its chunks is in transit. The job id is
what tells a late answer apart: it is outstanding in no entry any more. The handler looks the id up
through the entry of the path without asking whether there is one, and it cannot tell the id 0 from
the NULL that `queue_remove` returns.
-/

namespace DartSync

open FileTable Runs

variable {c : Client} {filepath : CString} {chunkId requestId : ℤ} {data : Option (List UInt8)}
  {e : FileTableEntry}

/-- The entry of the path waits for the answer to that request. -/
def Client.WaitsFor (c : Client) (filepath : CString) (requestId : ℤ) : Prop :=
  ∃ e, c.ft.lookup filepath = some e ∧ requestId ∈ e.outstandingRequests

/-- The job id is looked up in an entry that is there, and an answer that the entry does not wait for
changes nothing and sends nothing. -/
def IgnoresStale (c : Client) (filepath : CString) (chunkId : ℤ) (data : Option (List UInt8))
    (requestId : ℤ) : Prop :=
  (∃ r, filetableFindAndRemoveJobId c.ft filepath requestId = .ok r) ∧
    (¬ c.WaitsFor filepath requestId →
      receiveChunk c filepath chunkId data requestId = .ok (c, []))

/-! ## One answer -/

/-- An answer that the entry does not wait for is ignored, unless its id is 0 and the entry has a
file. -/
theorem receiveChunk_of_stale (he : c.ft.lookup filepath = some e)
    (hnot : requestId ∉ e.outstandingRequests) (h : requestId ≠ 0 ∨ e.file = none) :
    receiveChunk c filepath chunkId data requestId = .ok (c, []) := by
  unfold receiveChunk
  rw [filetableFindAndRemoveJobId_of_notMem he hnot]
  show (if (0 : ℤ) ≠ requestId then _ else _) = _
  split_ifs with hid
  · rfl
  · have hfile : filetableGetChunkyfile c.ft filepath = none := by
      unfold filetableGetChunkyfile
      rw [he]
      exact h.resolve_left fun hne => hid hne.symm
    dsimp only
    rw [hfile]
    rfl

/-- An accepted answer leaves a trace: a chunk that is announced or a queued request. -/
theorem ChunkReceived.ne {c' : Client} {sent : List ClientMessage}
    (h : ChunkReceived c e filepath chunkId data requestId c' sent)
    (he : c.ft.lookup filepath = some e) (hawait : e.Awaits requestId) : (c', sent) ≠ (c, []) := by
  intro heq
  obtain ⟨hc, hsent⟩ := Prod.mk.inj heq
  cases h with
  | ignored hnot => exact hnot hawait
  | rejected _ _ hft =>
    have hft' := congrArg Client.ft hc
    have hlook := hft filepath
    dsimp only at hft'
    rw [if_pos rfl, hft', he] at hlook
    have hqueue := congrArg FileTableEntry.workQueue (Option.some.inj hlook)
    simp at hqueue
  | completed => cases hsent
  | stored => cases hsent

theorem receiveChunk_ne_of_awaits (he : c.ft.lookup filepath = some e) (hawait : e.Awaits requestId) :
    receiveChunk c filepath chunkId data requestId ≠ .ok (c, []) := by
  intro h
  obtain ⟨e', he', hreceived⟩ := receiveChunk_ok h
  obtain rfl := Option.some.inj (he.symm.trans he')
  exact hreceived.ne he hawait rfl

/-- **Stale answers.** The handler ignores an answer that is not waited for exactly when the path
still has an entry and the id, if it is 0, cannot be taken for a job's. -/
theorem ignoresStale_iff : IgnoresStale c filepath chunkId data requestId ↔
    ∃ e, c.ft.lookup filepath = some e ∧
      (requestId = 0 → 0 ∈ e.outstandingRequests ∨ e.file = none) := by
  unfold IgnoresStale
  rw [filetableFindAndRemoveJobId_isOk]
  constructor
  · rintro ⟨⟨e, he⟩, hignore⟩
    refine ⟨e, he, ?_⟩
    rintro rfl
    by_contra hcon
    rw [not_or] at hcon
    have hwait : ¬ c.WaitsFor filepath 0 := by
      rintro ⟨e', he', hmem⟩
      obtain rfl := Option.some.inj (he.symm.trans he')
      exact hcon.1 hmem
    exact receiveChunk_ne_of_awaits he ⟨Or.inr rfl, Option.isSome_iff_ne_none.mpr hcon.2⟩
      (hignore hwait)
  · rintro ⟨e, he, hzero⟩
    refine ⟨⟨e, he⟩, fun hwait => ?_⟩
    have hnot : requestId ∉ e.outstandingRequests := fun hmem => hwait ⟨e, he, hmem⟩
    apply receiveChunk_of_stale he hnot
    by_cases hid : requestId = 0
    · subst hid
      exact Or.inr ((hzero rfl).resolve_left hnot)
    · exact Or.inl hid

/-! ## A file that is deleted in the meantime -/

open RequestsExample

/-- The chunk of the file `a` comes after the file has been deleted by another diff. -/
theorem answer_of_removed_path :
    ∃ s, Run ClientNetwork.step (fun _ _ => True) start
        (request ++ [.client (.diff emptyFilesystem OwnersExample.withFile 3),
          .peerMsg 5 ⟨1, 2, 0, .ofBytes [47, 97], some [65]⟩]) s ∧
      s.step .receive = .error .nullPointer ∧
      ¬ IgnoresStale s.client (.ofBytes [47, 97]) 0 (some [65]) 1 := by
  have hrun : (runIf ClientNetwork.step (fun _ _ => true) start
      (request ++ [.client (.diff emptyFilesystem OwnersExample.withFile 3),
          .peerMsg 5 ⟨1, 2, 0, .ofBytes [47, 97], some [65]⟩])).any
      (fun s => failsWith .nullPointer (s.step .receive) &&
        (s.client.ft.lookup (.ofBytes [47, 97])).isNone) = true := by decide +kernel
  obtain ⟨s, hs, htest⟩ := (Option.any_eq_true _ _).mp hrun
  rw [Bool.and_eq_true, Option.isNone_iff_eq_none] at htest
  refine ⟨s, run_of_runIf (fun _ _ _ => trivial) hs, failsWith_iff.mp htest.1, fun h => ?_⟩
  obtain ⟨e, he⟩ := filetableFindAndRemoveJobId_isOk.mp h.1
  rw [htest.2] at he
  cases he

end DartSync
