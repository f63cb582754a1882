import DartSync.ChunkyFile
import DartSync.FileSystem.Iterator
import DartSync.HashTable

/-!
# File tables

`FileTable.c`: for each file the peers that own its chunks, and on a client the chunks still to be
requested and the requests under way. A `FileTable` carries the invariant that no path occurs
twice; `lookup` is the table as a map, and each operation is described by what it does to it.
-/

namespace DartSync

open KeyedList

/-! ## Entries -/

/-- `FileTableEntry`. The elements of the queues are the `int`s that the source casts to `void*`. -/
structure FileTableEntry where
  path : CString
  file : Option ChunkyFile
  chunks : List (List ℤ)
  workQueue : List ℤ
  outstandingRequests : List ℤ
  deriving DecidableEq

/-- `hashPJW`. The top four bits are cleared at every step, so the result is not negative as an
`int` either. -/
def hashPJW (s : CString) : UInt32 :=
  s.bytes.foldl (fun h b =>
    let h := (h <<< 4) + b.toInt8.toInt32.toUInt32
    let g := h &&& 0xf0000000
    if g ≠ 0 then h ^^^ ((g >>> 24) ^^^ g) else h) 0

/-- `filetableentry_hash`, on the path -/
def filetableentryHash (path : CString) : ℕ := (hashPJW path).toNat

/-- The values that `rand` is going to return. -/
abbrev Rand := ℕ → ℕ

/-- The loop of `queue_shuffle`, from `i` down. -/
def queueShuffleFrom {α : Type*} : ℕ → List α → Rand → List α × Rand
  | 0, q, rand => (q, rand)
  | i + 1, q, rand =>
    queueShuffleFrom i (queueSwap q (i + 1) (rand 0 % (i + 1))) fun n => rand (n + 1)

/-- `queue_shuffle` -/
def queueShuffle {α : Type*} (q : List α) (rand : Rand) : List α × Rand :=
  queueShuffleFrom (q.length - 1) q rand

/-- The chunk numbers `0`, …, `numChunks - 1`. -/
def chunkNumbers (numChunks : ℤ) : List ℤ := (List.range numChunks.toNat).map Int.ofNat

/-! ## The table -/

/-- `_FileTable`. No path occurs twice. -/
structure FileTable where
  table : HashTable FileTableEntry.path filetableentryHash
  unique : (table.elements.map FileTableEntry.path).Nodup

namespace FileTable

/-- `hashtable_get_element` on a path. -/
def lookup (ft : FileTable) (path : CString) : Option FileTableEntry :=
  ft.table.hashtableGetElement path

/-- The entries in the order of an iterator. -/
def entries (ft : FileTable) : List FileTableEntry := ft.table.elements

/-- `hashtable_remove_element` -/
def erase (ft : FileTable) (path : CString) : FileTable where
  table := ft.table.hashtableRemoveElement path
  unique := by
    rw [HashTable.elements_hashtableRemoveElement]
    exact nodup_map_eraseKey ft.unique

/-- `hashtable_add`, after the entry of the same path has been removed. -/
def insert (ft : FileTable) (entry : FileTableEntry) : FileTable where
  table := (ft.table.hashtableRemoveElement entry.path).hashtableAdd entry
  unique := by
    rw [(HashTable.elements_hashtableAdd.map FileTableEntry.path).nodup_iff, List.map_cons,
      List.nodup_cons, HashTable.elements_hashtableRemoveElement]
    exact ⟨findKey_eq_none.mp (findKey_eraseKey_self ft.unique), nodup_map_eraseKey ft.unique⟩

/-- The entry of the same path is overwritten through its pointer. -/
def overwrite (ft : FileTable) (entry : FileTableEntry) : FileTable where
  table := ft.table.overwrite entry
  unique := by
    rw [HashTable.elements_overwrite, map_key_replaceKey rfl]
    exact ft.unique

end FileTable

/-- `filetable_new` -/
def filetableNew : FileTable where
  table := HashTable.hashtableNew _ _
  unique := by rw [HashTable.elements_hashtableNew]; exact List.nodup_nil

/-- `filetable_enqueue_work_request` -/
def filetableEnqueueWorkRequest (ft : FileTable) (path : CString) (chunk : ℤ) :
    Except Abort FileTable :=
  match ft.lookup path with
  | none => .error .nullPointer
  | some fte => .ok (ft.overwrite { fte with workQueue := fte.workQueue ++ [chunk] })

/-- `filetable_find_and_remove_job_id`: the removed job id, or NULL. -/
def filetableFindAndRemoveJobId (ft : FileTable) (path : CString) (jobId : ℤ) :
    Except Abort (ℤ × FileTable) :=
  match ft.lookup path with
  | none => .error .nullPointer
  | some fte =>
    .ok (if jobId ∈ fte.outstandingRequests then jobId else 0,
      ft.overwrite { fte with outstandingRequests := fte.outstandingRequests.erase jobId })

/-- One step of `filetable_enqueue_work_for_filesystem`. -/
def enqueueWorkForItem (st : FileTable × Rand) (item : IteratorItem) :
    Except Abort (FileTable × Rand) :=
  if item.length < 0 then .ok st
  else match st.1.lookup item.path with
    | none => .error .entryNotInFiletable
    | some entry =>
      let (workQueue, rand) :=
        queueShuffle (entry.workQueue ++ chunkNumbers (numChunksForSize item.length)) st.2
      .ok (st.1.overwrite { entry with workQueue := workQueue }, rand)

/-- `filetable_enqueue_work_for_filesystem` -/
def filetableEnqueueWorkForFilesystem (ft : FileTable) (filesystem : Folder) (rand : Rand) :
    Except Abort (FileTable × Rand) :=
  (filesystemIteratorRelative true filesystem).foldlM enqueueWorkForItem (ft, rand)

/-- The `newEntry` of `filetable_add_filesystem`. -/
def newEntry (item : IteratorItem) (peer : ℤ) (workQueue : List ℤ) : FileTableEntry where
  path := item.path
  file := none
  chunks := (chunkNumbers (numChunksForSize item.length)).map fun _ => [peer]
  workQueue := workQueue
  outstandingRequests := []

/-- One step of `filetable_add_filesystem`. -/
def addItem (peer : ℤ) (needsData : Bool) (st : FileTable × Rand) (item : IteratorItem) :
    FileTable × Rand :=
  if item.length < 0 then st
  else if needsData then
    let (workQueue, rand) := queueShuffle (chunkNumbers (numChunksForSize item.length)) st.2
    (st.1.insert (newEntry item peer workQueue), rand)
  else (st.1.insert (newEntry item peer []), st.2)

/-- `filetable_add_filesystem` -/
def filetableAddFilesystem (ft : FileTable) (filesystem : Folder) (peer : ℤ) (needsData : Bool)
    (rand : Rand) : FileTable × Rand :=
  (filesystemIteratorRelative true filesystem).foldl (addItem peer needsData) (ft, rand)

/-- `filetable_remove_filesystem` -/
def filetableRemoveFilesystem (ft : FileTable) (filesystem : Folder) : FileTable :=
  (filesystemIteratorRelative true filesystem).foldl
    (fun ft item => if item.length < 0 then ft else ft.erase item.path) ft

/-- `filetable_get_num_chunks` -/
def filetableGetNumChunks (ft : FileTable) (path : CString) : Except Abort ℤ :=
  match ft.lookup path with
  | none => .error .nullPointer
  | some fte => .ok fte.chunks.length

/-- `filetable_get_peers_who_have_file_chunk`. The check lets through one index too many. -/
def filetableGetPeersWhoHaveFileChunk (ft : FileTable) (path : CString) (chunk : ℤ) :
    Except Abort (Option (List ℤ)) :=
  match ft.lookup path with
  | none => .ok none
  | some fte =>
    if fte.chunks.length < chunk then .ok none
    else if chunk < 0 then .error .outOfBounds
    else match fte.chunks[chunk.toNat]? with
      | none => .error .outOfBounds
      | some owners => .ok (some owners)

/-- `filetable_set_that_peer_has_file_chunk` -/
def filetableSetThatPeerHasFileChunk (ft : FileTable) (path : CString) (peer chunkNum : ℤ) :
    Except Abort FileTable := do
  match ← filetableGetPeersWhoHaveFileChunk ft path chunkNum, ft.lookup path with
  | some owners, some fte =>
    if peer ∈ owners then return ft
    else return ft.overwrite { fte with chunks := fte.chunks.set chunkNum.toNat (owners ++ [peer]) }
  | _, _ => .error .chunkDoesNotExist

/-- What `filetable_remove_peer` does to an entry. -/
def removePeerFromEntry (id : ℤ) (fte : FileTableEntry) : FileTableEntry :=
  { fte with chunks := fte.chunks.map fun owners => owners.filter fun peer => peer ≠ id }

/-- `filetable_remove_peer` -/
def filetableRemovePeer (ft : FileTable) (id : ℤ) : FileTable :=
  ft.entries.foldl (fun ft fte => ft.overwrite (removePeerFromEntry id fte)) ft

/-- `filetable_remove_file` -/
def filetableRemoveFile (ft : FileTable) (path : CString) : FileTable := ft.erase path

/-- `filetable_get_chunkyfile` -/
def filetableGetChunkyfile (ft : FileTable) (path : CString) : Option ChunkyFile :=
  (ft.lookup path).bind FileTableEntry.file

/-- `filetable_set_chunkyfile` -/
def filetableSetChunkyfile (ft : FileTable) (path : CString) (file : Option ChunkyFile) :
    FileTable :=
  match ft.lookup path with
  | none => ft
  | some fte => ft.overwrite { fte with file := file }

/-- The static `JOB_ID` of `filetableentry_get_job`, and the random numbers. -/
structure JobState where
  jobId : ℕ
  rand : Rand

/-- The id of the next job: `JOB_ID` starts at 1. -/
def JobState.nextJobId (st : JobState) : ℕ := if st.jobId = 0 then 1 else st.jobId

/-- `filetableentry_get_job`: the chunk, the peer and the job id, when there is a job. -/
def filetableentryGetJob (entry : FileTableEntry) (maxPendingRequests : ℕ) (st : JobState) :
    Except Abort (Option (ℤ × ℤ × ℤ) × FileTableEntry × JobState) :=
  let jobId := st.nextJobId
  match entry.workQueue with
  | [] => .ok (none, entry, { st with jobId := jobId })
  | chunk :: workQueue =>
    if maxPendingRequests ≤ entry.outstandingRequests.length then
      .ok (none, entry, { st with jobId := jobId })
    else if chunk < 0 then .error .outOfBounds
    else match entry.chunks[chunk.toNat]? with
      | none => .error .outOfBounds
      | some peersWithChunk =>
        match peersWithChunk[st.rand 0 % peersWithChunk.length]? with
        | none => .error .numPeersWithChunk
        | some peer =>
          .ok (some (chunk, peer, jobId),
            { entry with
              workQueue := workQueue
              outstandingRequests := entry.outstandingRequests ++ [(jobId : ℤ)] },
            ⟨jobId + 1, fun n => st.rand (n + 1)⟩)

namespace FileTable

variable {ft : FileTable} {p k : CString} {entry e : FileTableEntry}

/-! ## The table as a map -/

theorem nodup_entries (ft : FileTable) : (ft.entries.map FileTableEntry.path).Nodup := ft.unique

theorem entries_erase : (ft.erase k).entries = eraseKey FileTableEntry.path k ft.entries :=
  HashTable.elements_hashtableRemoveElement

theorem entries_insert : (ft.insert entry).entries.Perm (entry :: (ft.erase entry.path).entries) :=
  HashTable.elements_hashtableAdd

theorem entries_overwrite : (ft.overwrite entry).entries =
    replaceKey FileTableEntry.path entry.path entry ft.entries :=
  HashTable.elements_overwrite

theorem lookup_eq : ft.lookup p = findKey FileTableEntry.path p ft.entries :=
  HashTable.hashtableGetElement_eq

theorem mem_entries : e ∈ ft.entries ↔ ft.lookup e.path = some e := by
  rw [lookup_eq, findKey_eq_some ft.nodup_entries]
  exact ⟨fun h => ⟨h, rfl⟩, fun h => h.1⟩

theorem path_of_lookup (h : ft.lookup p = some e) : e.path = p := by
  rw [lookup_eq] at h
  exact key_of_findKey h

theorem lookup_isSome : (ft.lookup p).isSome ↔ p ∈ ft.entries.map FileTableEntry.path := by
  rw [lookup_eq, findKey_isSome]

@[simp] theorem lookup_filetableNew : filetableNew.lookup p = none := by
  rw [lookup_eq]
  show findKey _ _ (HashTable.hashtableNew _ _).elements = none
  rw [HashTable.elements_hashtableNew]
  rfl

@[simp] theorem lookup_erase : (ft.erase k).lookup p = if p = k then none else ft.lookup p := by
  rw [lookup_eq, lookup_eq, entries_erase, findKey_eraseKey ft.nodup_entries]

@[simp] theorem lookup_insert :
    (ft.insert entry).lookup p = if p = entry.path then some entry else ft.lookup p := by
  have hunique : ((entry :: (ft.erase entry.path).entries).map FileTableEntry.path).Nodup :=
    (entries_insert.map _).nodup_iff.mp (ft.insert entry).nodup_entries
  have hfind : (ft.insert entry).lookup p =
      findKey FileTableEntry.path p (entry :: (ft.erase entry.path).entries) := by
    rw [lookup_eq]
    refine Option.ext fun x => ?_
    rw [findKey_eq_some (ft.insert entry).nodup_entries, findKey_eq_some hunique]
    exact and_congr_left fun _ => entries_insert.mem_iff
  rw [hfind, findKey_cons, ← lookup_eq, lookup_erase]
  by_cases h : p = entry.path
  · simp [h]
  · simp [h, Ne.symm h]

theorem lookup_overwrite (h : (ft.lookup entry.path).isSome) :
    (ft.overwrite entry).lookup p = if p = entry.path then some entry else ft.lookup p := by
  rw [lookup_eq, lookup_eq, entries_overwrite, findKey_replaceKey rfl (lookup_isSome.mp h)]

/-- An entry overwritten under its path. -/
theorem lookup_overwrite_of_lookup (h : ft.lookup k = some e) (hk : entry.path = k) :
    (ft.overwrite entry).lookup p = if p = k then some entry else ft.lookup p := by
  rw [lookup_overwrite (by rw [hk, h]; rfl), hk]

/-- An entry overwritten by itself. -/
theorem overwrite_self (h : ft.lookup entry.path = some entry) : ft.overwrite entry = ft := by
  obtain ⟨table, unique⟩ := ft
  have htable : table.overwrite entry = table := HashTable.overwrite_self h
  unfold overwrite
  congr 1

end FileTable

end DartSync
