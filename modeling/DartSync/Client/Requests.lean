import DartSync.Client.Network
import DartSync.Client.Owners
import DartSync.Client.Steps

/-!
# Requests for chunks

A chunk leaves the work queue when its request is handed to the network, and only an answer brings it
back or writes it. As long as no step loses a request that an entry waits for, every chunk that has
not been written is queued, or its request or the answer is under way.
-/

namespace DartSync

open FileTable Runs

variable {c c' : Client} {ev : ClientEvent} {sent : List ClientMessage} {ft ft' : FileTable}
  {e e' : FileTableEntry} {file file' : ChunkyFile} {r : ChunkData} {live live' : List ChunkData}
  {s t : ClientNetwork} {fd k : ℤ} {item : IteratorItem} {p : CString} {table : List Peer}

/-! ## Files to be written -/

/-- The file is written to a path and lacks that chunk. -/
def ChunkyFile.Lacks (file : ChunkyFile) (k : ℤ) : Prop :=
  file.path.isSome ∧ 0 ≤ k ∧ file.chunksWritten[k.toNat]? = some false

instance (file : ChunkyFile) (k : ℤ) : Decidable (file.Lacks k) :=
  inferInstanceAs (Decidable (_ ∧ _))

theorem lacks_writerOf (h : (writerOf item).Lacks k) :
    0 ≤ k ∧ k < numChunksForSize item.length := by
  obtain ⟨-, hpos, hk⟩ := h
  have hlt := (List.getElem?_eq_some_iff.mp hk).1
  rw [show (writerOf item).chunksWritten = List.replicate _ false from rfl,
    List.length_replicate] at hlt
  omega

theorem lacks_of_chunkyfileSetChunk {chunk : List UInt8} {i : ℤ}
    (h : chunkyfileSetChunk file i chunk = .ok file') (hk : file'.Lacks k) :
    file.Lacks k ∧ k ≠ i := by
  unfold chunkyfileSetChunk at h
  split_ifs at h with hin
  cases h
  obtain ⟨hpath, hpos, hk⟩ := hk
  have hk : (file.chunksWritten.set i.toNat true)[k.toNat]? = some false := hk
  rw [List.getElem?_set] at hk
  split_ifs at hk with heq
  · cases hk
  · exact ⟨⟨hpath, hpos, hk⟩, fun h => heq (h ▸ rfl)⟩

/-- Every chunk that the file of the entry lacks is queued, or a request for it that the entry waits
for is among those under way. -/
def Sourced (live : List ChunkData) (e : FileTableEntry) : Prop :=
  ∀ file k, e.file = some file → file.Lacks k → k ∈ e.workQueue ∨
    ∃ r ∈ live, r.fileName = e.path ∧ r.chunkNum = k ∧ r.jobId ∈ e.outstandingRequests

/-- The request is for a chunk that is still lacking, and its entry waits for the answer. -/
def IsAwaited (ft : FileTable) (r : ChunkData) : Prop :=
  ∃ e file, ft.lookup r.fileName = some e ∧ e.file = some file ∧ file.Lacks r.chunkNum ∧
    r.jobId ∈ e.outstandingRequests

/-- The same request, or the answer to it. -/
def ChunkData.Same (r r' : ChunkData) : Prop :=
  r'.jobId = r.jobId ∧ r'.fileName = r.fileName ∧ r'.chunkNum = r.chunkNum

theorem ChunkData.Same.refl (r : ChunkData) : r.Same r := ⟨rfl, rfl, rfl⟩

theorem sourced_of_noFile (h : ∀ file, e.file = some file → file.path = none) : Sourced live e :=
  fun file _ hfile hlacks => by rw [ChunkyFile.Lacks, h file hfile] at hlacks; cases hlacks.1

/-- Nothing is lost when everything that is awaited stays under way. -/
theorem sourced_of_kept (h : ft.All (Sourced live))
    (hkept : ∀ r ∈ live, IsAwaited ft r → ∃ r' ∈ live', r.Same r') : ft.All (Sourced live') := by
  intro p e he file k hfile hlacks
  refine (h p e he file k hfile hlacks).imp id ?_
  rintro ⟨r, hr, hpath, rfl, hjob⟩
  have hp := path_of_lookup he
  obtain ⟨r', hr', hid, hname, hnum⟩ :=
    hkept r hr ⟨e, file, by rw [hpath, hp, he], hfile, hlacks, hjob⟩
  exact ⟨r', hr', hname.trans hpath, hnum, hid ▸ hjob⟩

/-! ## Events of the client -/

/-- The files of the tree have sizes that are `int`s. -/
def SizesFit (fs : Folder) : Prop :=
  ∀ item ∈ filesystemIteratorRelative true fs, item.length ≠ -1 → 0 ≤ item.length

instance : DecidablePred SizesFit := fun _ => inferInstanceAs (Decidable (∀ item ∈ _, _))

/-- No path is listed with two sizes. -/
def OneSize (fs : Folder) : Prop :=
  ∀ x ∈ filesystemIteratorRelative true fs, ∀ y ∈ filesystemIteratorRelative true fs,
    0 ≤ x.length → 0 ≤ y.length → x.path = y.path → x.length = y.length

instance : DecidablePred OneSize := fun _ => inferInstanceAs (Decidable (∀ x ∈ _, ∀ y ∈ _, _))

/-- A new entry whose work queue has all chunks is sourced when the file to be written comes. -/
theorem sourced_receiveDiff {additions deletions : Folder} {peerId : ℤ}
    (h : c.ft.All (Sourced live)) (hfit : SizesFit additions) (hone : OneSize additions)
    (hok : receiveDiff c additions deletions peerId = .ok (c', sent)) : c'.ft.All (Sourced live) := by
  obtain ⟨rand, hget, -, -⟩ := receiveDiff_ok hok
  intro p e' he'
  obtain ⟨e, he, rfl | ⟨item, hitem, hlen, rfl, rfl⟩⟩ := filesSet_getFileAdditions hget p e' he'
  · exact all_filetableAddFilesystem (all_filetableRemoveFilesystem h)
      (fun item _ workQueue _ _ => sourced_of_noFile nofun) p e' he
  · intro file k hfile hlacks
    cases hfile
    have hitem := mem_filesystemIteratorRelative_order false hitem true
    have hpos := hfit item hitem hlen
    obtain ⟨e1, he1, x, hx, workQueue, hxpos, hxpath, rfl, hperm⟩ : ∃ e1,
        (filetableAddFilesystem (filetableRemoveFilesystem c.ft deletions) additions peerId true
          c.jobs.rand).1.lookup item.path = some e1 ∧
        IsNewEntry (filesystemIteratorRelative true additions) peerId true item.path e1 :=
      (lookup_foldl_addItem _).1 ⟨item, hitem, hpos, rfl⟩
    obtain rfl := Option.some.inj (he1.symm.trans he)
    refine Or.inl (hperm.mem_iff.mpr (mem_chunkNumbers.mpr ?_))
    rw [hone x hx item hitem hxpos hpos hxpath]
    exact lacks_writerOf hlacks

/-- The chunks of a file that a master adds are all put into the work queue. -/
theorem sourced_updateLocalFilesystem {master : Folder} (h : c.ft.All (Sourced live))
    (hfit : SizesFit (filesystemDiff c.curFs master).1)
    (hok : updateLocalFilesystem c master = .ok (c', sent)) : c'.ft.All (Sourced live) := by
  obtain ⟨rand, st, rfl, hft, -, -⟩ := updateLocalFilesystem_ok hok rfl
  intro p e' he' file k hfile hlacks
  obtain ⟨e1, he1, henq⟩ := lookup_filetableEnqueueWorkForFilesystem hft he'
  rw [henq.path, henq.outstandingRequests, henq.mem_workQueue]
  rw [henq.file] at hfile
  obtain ⟨e, he, rfl | ⟨item, hitem, hlen, rfl, rfl⟩⟩ := filesSet_prepareAdditions p e1 he1
  · exact (all_filetableRemoveFilesystem h p e1 he file k hfile hlacks).imp Or.inl id
  · cases hfile
    have hitem := mem_filesystemIteratorRelative_order false hitem true
    obtain ⟨hpos, hlt⟩ := lacks_writerOf hlacks
    exact Or.inl (Or.inr ⟨item, hitem, hfit item hitem hlen, rfl, hpos, hlt⟩)

/-- No request for a chunk is sent. -/
def NoRequest (sent : List ClientMessage) : Prop :=
  ∀ peer path chunk jobId, .chunkRequest peer path chunk jobId ∉ sent

/-- What an event needs to keep all chunks sourced. -/
def KeepsSources (c : Client) : ClientEvent → Prop
  | .chunk _ _ _ _ | .workQueue => False
  | .diff additions _ _ => SizesFit additions ∧ OneSize additions
  | .master master => SizesFit (filesystemDiff c.curFs master).1
  | _ => True

/-- An event of the client, answers and the work queue apart. -/
theorem sourced_step (h : c.ft.All (Sourced live)) (hkeep : KeepsSources c ev)
    (hok : c.step ev = .ok (c', sent)) :
    c'.ft.All (Sourced live) ∧ c'.jobs.jobId = c.jobs.jobId ∧ NoRequest sent := by
  cases ev with
  | peerAdded peerId => cases hok; exact ⟨h, rfl, nofun⟩
  | edit dir => cases hok; exact ⟨h, rfl, nofun⟩
  | peerDeleted peerId =>
    cases hok
    exact ⟨all_filetableRemovePeer.mpr h, rfl, nofun⟩
  | chunkRequest peerId filepath chunkId requestId =>
    obtain ⟨hc, hsent⟩ := receiveChunkRequest_ok hok
    have hno : NoRequest sent := fun _ _ _ _ hmem => by
      rcases hsent with ⟨text, rfl⟩ | rfl <;> cases List.mem_singleton.mp hmem
    rcases hc with rfl | ⟨-, content, rfl⟩
    · exact ⟨h, rfl, hno⟩
    · refine ⟨all_filetableSetChunkyfile h fun e _ => sourced_of_noFile fun file hfile => ?_, rfl, hno⟩
      cases hfile
      rfl
  | chunk filepath chunkId data requestId => exact hkeep.elim
  | chunkGot peerId filepath chunkId =>
    obtain ⟨ft, hft, hok⟩ := bind_eq_ok.mp hok
    cases hok
    exact ⟨all_filetableSetThatPeerHasFileChunk hft h fun e _ he _ => h _ e he, rfl, nofun⟩
  | diff additions deletions peerId =>
    obtain ⟨rand, -, hc', rfl⟩ := receiveDiff_ok hok
    exact ⟨sourced_receiveDiff h hkeep.1 hkeep.2 hok, by rw [hc'], nofun⟩
  | master master =>
    obtain ⟨rand, st, -, -, hc', rfl⟩ := updateLocalFilesystem_ok hok rfl
    refine ⟨sourced_updateLocalFilesystem h hkeep hok, by rw [hc'], fun _ _ _ _ hmem => ?_⟩
    obtain ⟨item, -, hmem⟩ := List.mem_flatMap.mp hmem
    split_ifs at hmem
    · cases hmem
    · obtain ⟨i, -, hmem⟩ := List.mem_map.mp hmem
      cases hmem
  | workQueue => exact hkeep.elim
  | checkLocal now =>
    rcases checkLocalFilesystem_ok (Except.ok.inj hok) with ⟨prevFs, prevTime, rfl, rfl⟩ | ⟨rand, rfl, rfl⟩
    · exact ⟨h, rfl, nofun⟩
    · refine ⟨all_filetableAddFilesystem (all_filetableRemoveFilesystem h)
        fun _ _ _ _ _ => sourced_of_noFile nofun, rfl, fun _ _ _ _ hmem => ?_⟩
      cases List.mem_singleton.mp hmem

/-! ## Answers -/

/-- The chunk of an answer is written, or put back into the work queue. -/
theorem sourced_receiveChunk {a : ChunkData} (h : c.ft.All (Sourced live))
    (hids : ∀ r ∈ live, r.jobId = a.jobId → r = a) (hlive : ∀ r ∈ live, r ≠ a → r ∈ live')
    (hpos : a.jobId ≠ 0)
    (hok : receiveChunk c a.fileName a.chunkNum a.data a.jobId = .ok (c', sent)) :
    c'.ft.All (Sourced live') ∧ c'.jobs.jobId = c.jobs.jobId ∧ NoRequest sent := by
  obtain ⟨e, he, hrec⟩ := receiveChunk_ok hok
  have hother : ∀ p e', p ≠ a.fileName → c.ft.lookup p = some e' → Sourced live' e' := by
    intro p e' hp he' file k hfile hlacks
    refine (h p e' he' file k hfile hlacks).imp id fun ⟨r, hr, hname, hrest⟩ => ?_
    refine ⟨r, hlive r hr ?_, hname, hrest⟩
    rintro rfl
    exact hp ((path_of_lookup he').symm.trans hname.symm)
  -- apart from the chunk of the answer, everything is as it was
  have hrest : ∀ file k, e.file = some file → file.Lacks k →
      k ≠ a.chunkNum ∨ a.jobId ∉ e.outstandingRequests → k ∈ e.workQueue ∨ ∃ r ∈ live',
        r.fileName = e.path ∧ r.chunkNum = k ∧ r.jobId ∈ e.outstandingRequests.erase a.jobId := by
    intro file k hfile hlacks hnot
    refine (h _ e he file k hfile hlacks).imp id fun ⟨r, hr, hname, hnum, hjob⟩ => ?_
    have hne : r.jobId ≠ a.jobId := fun heq => by
      obtain rfl := hids r hr heq
      exact hnot.elim (fun hk => hk hnum.symm) fun hout => hout hjob
    exact ⟨r, hlive r hr fun heq => hne (heq ▸ rfl), hname, hnum, (List.mem_erase_of_ne hne).mpr hjob⟩
  cases hrec with
  | ignored hnot hft =>
    refine ⟨hft.all_of_ne hother fun file k hfile hlacks => ?_, rfl, nofun⟩
    refine hrest file k hfile hlacks (Or.inr fun hout => hnot ⟨Or.inl hout, ?_⟩)
    rw [show e.file = some file from hfile]
    rfl
  | rejected _ _ hft =>
    refine ⟨hft.all_of_ne hother fun file k hfile hlacks => ?_, rfl, nofun⟩
    by_cases hk : k = a.chunkNum
    · exact Or.inl (List.mem_append_right _ (List.mem_singleton.mpr hk))
    · exact (hrest file k hfile hlacks (Or.inl hk)).imp (List.mem_append_left _) id
  | completed _ _ _ _ _ _ hft =>
    refine ⟨hft.all_of_ne hother (sourced_of_noFile nofun), rfl, fun _ _ _ _ hmem => ?_⟩
    cases List.mem_singleton.mp hmem
  | stored _ _ hfile hset _ hft =>
    refine ⟨hft.all_of_ne hother fun file' k hfile' hlacks => ?_, rfl, fun _ _ _ _ hmem => ?_⟩
    · cases hfile'
      obtain ⟨hlacks, hk⟩ := lacks_of_chunkyfileSetChunk hset hlacks
      exact hrest _ k hfile hlacks (Or.inl hk)
    · cases List.mem_singleton.mp hmem

/-! ## The work queue -/

/-- What `send_chunk_request` queues for a job of `check_work_queue`. -/
def queuedJob (table : List Peer) (r : CString × Job) : Option ChunkData :=
  if (getPeerById table r.2.dest).isSome then some ⟨r.2.jobId, r.2.dest, r.2.chunk, r.1, none⟩
  else none

theorem jobId_queuedJob_sublist (requests : List (CString × Job)) :
    ((requests.filterMap (queuedJob table)).map ChunkData.jobId).Sublist
      (requests.map fun r => r.2.jobId) := by
  induction requests with
  | nil => exact List.Sublist.refl _
  | cons r requests ih =>
    rw [List.filterMap_cons, List.map_cons]
    unfold queuedJob
    split_ifs
    · exact ih.cons_cons _
    · exact ih.cons _

/-- Every owner of a chunk that is queued for a file to be written is a peer that the network
knows. -/
def KnowsOwners (table : List Peer) (e : FileTableEntry) : Prop :=
  ∀ file, e.file = some file → file.path.isSome → ∀ k ∈ e.workQueue, ∀ owners,
    e.chunks[k.toNat]? = some owners → ∀ peer ∈ owners, (getPeerById table peer).isSome

/-- A chunk that is taken from a work queue has its request queued. -/
theorem sourced_workTaken {requests : List (CString × Job)} (h : ft.All (Sourced live))
    (hknown : ft.All (KnowsOwners table)) (hwork : WorkTaken ft ft' requests)
    (hlive : ∀ r ∈ live, r ∈ live') (hqueued : ∀ r ∈ requests.filterMap (queuedJob table), r ∈ live') :
    ft'.All (Sourced live') := by
  intro p e' he' file k hfile hlacks
  obtain ⟨e, jobs, he, htaken, hjobs⟩ := hwork.lookup p e' he'
  rw [htaken.file] at hfile
  rw [htaken.path, htaken.outstandingRequests]
  rcases h p e he file k hfile hlacks with hk | ⟨r, hr, hname, hnum, hjob⟩
  · rw [htaken.workQueue] at hk
    rcases List.mem_append.mp hk with hk | hk
    · obtain ⟨job, hjob, rfl⟩ := List.mem_map.mp hk
      obtain ⟨owners, howners, hdest⟩ := htaken.owner job hjob
      have hpeer := hknown p e he file hfile hlacks.1 job.chunk
        (by rw [htaken.workQueue]; exact List.mem_append_left _ hk) owners howners _ hdest
      refine Or.inr ⟨_, hqueued _ (List.mem_filterMap.mpr ⟨(p, job), hjobs job hjob, if_pos hpeer⟩),
        (path_of_lookup he).symm, rfl, List.mem_append_right _ (List.mem_map_of_mem hjob)⟩
    · exact Or.inl hk
  · exact Or.inr ⟨r, hlive r hr, hname, hnum, List.mem_append_left _ hjob⟩

end DartSync
