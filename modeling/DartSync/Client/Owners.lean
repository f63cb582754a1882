import DartSync.Client.Steps
import DartSync.Client.WorkQueue

/-!
# Sources of queued chunks

Every queued chunk has an owner as long as no departure takes the last owner of a queued chunk, a
chunk is put back after a rejection only while it has an owner, and the table knows owners for all
chunks of the files that a master adds. Then `assert(num_peers_with_chunk)` never fails.
-/

namespace DartSync

open FileTable Runs

variable {c c' : Client} {ev : ClientEvent} {sent : List ClientMessage} {es : List ClientEvent}
  {e : FileTableEntry} {item : IteratorItem} {peer : ℤ} {workQueue : List ℤ}

/-- The handling of an event, without what is sent. -/
def Client.stepState (c : Client) (ev : ClientEvent) : Except Abort Client := do
  let (c, _) ← c.step ev
  return c

theorem Client.stepState_ok (h : c.stepState ev = .ok c') : ∃ sent, c.step ev = .ok (c', sent) := by
  obtain ⟨⟨c1, sent⟩, h1, h⟩ := bind_eq_ok.mp h
  cases h
  exact ⟨sent, h1⟩

/-- The event leaves every queued chunk an owner: a peer leaves no queued chunk behind that only it
owns; the chunk of a rejection that the client has waited for has an owner; and so has every chunk of
a file that a master adds. -/
def KeepsOwners (c : Client) : ClientEvent → Prop
  | .peerDeleted peerId => c.ft.All fun e => ∀ k ∈ e.workQueue,
      (removePeerFromEntry peerId e).HasOwner k
  | .chunk filepath chunkId none requestId => ∀ e, c.ft.lookup filepath = some e →
      e.Awaits requestId → e.HasOwner chunkId
  | .master master => ∀ item ∈ filesystemIteratorRelative true (filesystemDiff c.curFs master).1,
      0 ≤ item.length → ∀ e, c.ft.lookup item.path = some e →
        ∀ k ∈ chunkNumbers (numChunksForSize item.length), e.HasOwner k
  | _ => True

/-! ## Steps -/

theorem served_newEntry (h : workQueue ⊆ chunkNumbers (numChunksForSize item.length)) :
    (newEntry item peer workQueue).Served := by
  intro k hk
  have hmem := h hk
  refine ⟨(mem_chunkNumbers.mp hmem).1, [peer], ?_, List.cons_ne_nil _ _⟩
  obtain ⟨i, hi, rfl⟩ := List.mem_map.mp hmem
  show ((chunkNumbers _).map fun _ => [peer])[i]? = _
  unfold chunkNumbers
  rw [List.map_map, List.getElem?_map, List.getElem?_range (List.mem_range.mp hi)]
  rfl

theorem served_filetableAddFilesystem {ft : FileTable} {fs : Folder} {needsData : Bool}
    {rand : Rand} (h : ft.All FileTableEntry.Served) :
    (filetableAddFilesystem ft fs peer needsData rand).1.All FileTableEntry.Served := by
  refine all_filetableAddFilesystem h fun item _ workQueue _ hperm => served_newEntry ?_
  refine List.Subset.trans hperm.subset ?_
  split_ifs
  · exact List.Subset.refl _
  · exact List.nil_subset _

/-- More owners do no harm. -/
theorem FileTableEntry.Served.addOwner (he : e.Served) {k : ℤ} {owners : List ℤ} :
    FileTableEntry.Served { e with chunks := e.chunks.set k.toNat (owners ++ [peer]) } := by
  intro i hi
  obtain ⟨hpos, owners', howners, hne⟩ := he i hi
  refine ⟨hpos, ?_⟩
  show ∃ owners', (e.chunks.set _ _)[i.toNat]? = some owners' ∧ _
  rw [List.getElem?_set]
  split_ifs with heq hlt
  · exact ⟨_, rfl, by simp⟩
  · rw [← heq, List.getElem?_eq_none (not_lt.mp hlt)] at howners
    cases howners
  · exact ⟨owners', howners, hne⟩

theorem served_updateLocalFilesystem {master : Folder} (h : c.ft.All FileTableEntry.Served)
    (hkeep : KeepsOwners c (.master master))
    (hok : updateLocalFilesystem c master = .ok (c', sent)) : c'.ft.All FileTableEntry.Served := by
  obtain ⟨rand, st, rfl, hft, -, -⟩ := updateLocalFilesystem_ok hok rfl
  intro p e' he'
  obtain ⟨e1, he1, henq⟩ := lookup_filetableEnqueueWorkForFilesystem hft he'
  -- the entry with its queue as it was before the master came
  obtain ⟨e, he, hserved, hchunks⟩ : ∃ e, c.ft.lookup p = some e ∧ e1.Served ∧
      e1.chunks = e.chunks := by
    obtain ⟨e, he, hset⟩ := filesSet_prepareAdditions p e1 he1
    have hold := lookup_of_filetableRemoveFilesystem he
    have hserved := h p e hold
    rcases hset with rfl | ⟨item, -, -, -, rfl⟩
    exacts [⟨_, hold, hserved, rfl⟩, ⟨e, hold, hserved, rfl⟩]
  intro k hk
  unfold FileTableEntry.HasOwner
  rw [henq.chunks]
  rcases (henq.mem_workQueue k).mp hk with hk | ⟨item, hitem, hlen, rfl, hpos, hlt⟩
  · exact hserved k hk
  · rw [hchunks]
    exact hkeep item hitem hlen e he k (mem_chunkNumbers.mpr ⟨hpos, hlt⟩)

/-- What one event does to the work queues. -/
theorem served_step (h : c.ft.All FileTableEntry.Served) (hkeep : KeepsOwners c ev)
    (hok : c.step ev = .ok (c', sent)) : c'.ft.All FileTableEntry.Served := by
  cases ev with
  | peerAdded peerId => cases hok; exact h
  | edit dir => cases hok; exact h
  | peerDeleted peerId =>
    cases hok
    exact all_filetableRemovePeer.mpr hkeep
  | chunkRequest peerId filepath chunkId requestId =>
    obtain ⟨rfl | ⟨-, content, rfl⟩, -⟩ := receiveChunkRequest_ok hok
    · exact h
    · exact all_filetableSetChunkyfile h fun e he => h _ e he
  | chunk filepath chunkId data requestId =>
    obtain ⟨e, he, hrec⟩ := receiveChunk_ok hok
    have hserved := h _ e he
    cases hrec with
    | ignored _ hft => exact hft.all h hserved
    | rejected hawait hdata hft =>
      subst hdata
      refine hft.all h fun k hk => ?_
      rcases List.mem_append.mp hk with hk | hk
      · exact hserved k hk
      · rw [List.mem_singleton.mp hk]
        exact hkeep e he hawait
    | completed _ _ _ _ _ _ hft => exact hft.all h hserved
    | stored _ _ _ _ _ hft => exact hft.all h hserved
  | chunkGot peerId filepath chunkId =>
    obtain ⟨ft, hft, hok⟩ := bind_eq_ok.mp hok
    cases hok
    exact all_filetableSetThatPeerHasFileChunk hft h fun e owners he _ => (h _ e he).addOwner
  | diff additions deletions peerId =>
    obtain ⟨rand, hget, -, -⟩ := receiveDiff_ok hok
    exact (filesSet_getFileAdditions hget).all
      (served_filetableAddFilesystem (all_filetableRemoveFilesystem h)) fun _ _ he => he
  | master master => exact served_updateLocalFilesystem h hkeep hok
  | workQueue =>
    obtain ⟨requests, jobs, -, hwork, -⟩ := checkWorkQueue_ok hok
    intro p e' he'
    obtain ⟨e, taken, he, htaken, -⟩ := hwork.lookup p e' he'
    exact htaken.served (h p e he)
  | checkLocal now =>
    rcases checkLocalFilesystem_ok (Except.ok.inj hok) with ⟨prevFs, prevTime, rfl, -⟩ | ⟨rand, rfl, -⟩
    · exact h
    · exact served_filetableAddFilesystem (all_filetableRemoveFilesystem h)

namespace OwnersExample

/-- A tree with a file `a` of one byte. -/
def withFile : Folder := ⟨.empty, [⟨.ofBytes [97], 1, 1, 0⟩], []⟩

/-- A client that knows of no file. -/
def start : Client := .initial .empty filetableNew 0 fun _ => 0

end OwnersExample

open OwnersExample

end DartSync
