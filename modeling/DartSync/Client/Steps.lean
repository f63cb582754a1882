import DartSync.Client
import DartSync.FileTable.Entries

/-!
# What the handlers of the client do

One inversion lemma for each handler of `client.c`: the fields it changes, and what it sends.
-/

namespace DartSync

open FileTable

variable {c c' : Client} {fs additions deletions newFs : Folder} {item : IteratorItem}
  {path filepath : CString} {peerId chunkId requestId : ℤ} {now : UInt64}
  {sent : List ClientMessage} {ds : List Folder} {x : File}

/-! ## Empty trees -/

/-- Both orders of an iterator list the same entries. -/
theorem mem_filesystemGetPathList_order (b : Bool) (h : x ∈ filesystemGetPathList b path fs) :
    ∀ b', x ∈ filesystemGetPathList b' path fs := by
  induction fs using Folder.ind generalizing path with
  | h fs ih =>
    intro b'
    rw [mem_filesystemGetPathList_cases] at h ⊢
    exact h.imp id fun ⟨d, hd, hx⟩ => ⟨d, hd, ih d hd hx b'⟩

theorem mem_filesystemIteratorRelative_order (b : Bool)
    (h : item ∈ filesystemIteratorRelative b fs) (b' : Bool) :
    item ∈ filesystemIteratorRelative b' fs := by
  obtain ⟨x, hx, rfl⟩ := List.mem_map.mp h
  exact List.mem_map_of_mem (mem_filesystemGetPathList_order b hx b')

theorem checkFileSystem_iff (b : Bool) : checkFileSystem fs = true ↔
    ∃ item, item ∈ filesystemIteratorRelative b fs := by
  unfold checkFileSystem
  rw [Bool.not_eq_true', List.isEmpty_eq_false_iff_exists_mem]
  exact ⟨fun ⟨x, hx⟩ => ⟨x, mem_filesystemIteratorRelative_order false hx b⟩,
    fun ⟨x, hx⟩ => ⟨x, mem_filesystemIteratorRelative_order b hx false⟩⟩

theorem filesystemIteratorRelative_eq_nil (h : ¬ checkFileSystem fs = true) (b : Bool) :
    filesystemIteratorRelative b fs = [] := by
  rw [List.eq_nil_iff_forall_not_mem]
  exact fun x hx => h ((checkFileSystem_iff b).mpr ⟨x, hx⟩)

/-- The tree has an entry exactly when its view has one. -/
theorem checkFileSystem_iff_entries (hfs : fs.Distinct) : checkFileSystem fs = true ↔
    fs.view.entries.Nonempty := by
  rw [checkFileSystem_iff false]
  constructor
  · rintro ⟨item, hitem⟩
    obtain ⟨q, e, he, -⟩ := (mem_filesystemIterator hfs).mp hitem
    exact ⟨(q, e), he⟩
  · rintro ⟨⟨q, e⟩, he⟩
    exact ⟨_, (mem_filesystemIterator hfs).mpr ⟨q, e, he, rfl⟩⟩

/-! ## Files to be written -/

/-- The file that is made for an addition. -/
def writerOf (item : IteratorItem) : ChunkyFile :=
  chunkyfileNewForWritingToPath item.path item.length item.modTime

/-- `ft'` is `ft` with new files to be written, each for one of the items of its path that are no
folders. -/
def FilesSet (items : List IteratorItem) (ft ft' : FileTable) : Prop :=
  ∀ p e', ft'.lookup p = some e' → ∃ e, ft.lookup p = some e ∧ (e' = e ∨
    ∃ item ∈ items, item.length ≠ -1 ∧ item.path = p ∧ e' = { e with file := some (writerOf item) })

theorem FilesSet.refl (items : List IteratorItem) (ft : FileTable) : FilesSet items ft ft :=
  fun _ e' he' => ⟨e', he', Or.inl rfl⟩

theorem FilesSet.trans {items : List IteratorItem} {ft ft1 ft' : FileTable}
    (h : FilesSet items ft ft1) (h' : FilesSet items ft1 ft') : FilesSet items ft ft' := by
  intro p e' he'
  obtain ⟨e1, he1, hset'⟩ := h' p e' he'
  obtain ⟨e, he, hset⟩ := h p e1 he1
  refine ⟨e, he, ?_⟩
  rcases hset' with rfl | ⟨x, hx, hlen, hpath, rfl⟩
  · exact hset
  · refine Or.inr ⟨x, hx, hlen, hpath, ?_⟩
    rcases hset with rfl | ⟨-, -, -, -, rfl⟩ <;> rfl

theorem filesSet_filetableSetChunkyfile {items : List IteratorItem} (ft : FileTable)
    (hitem : item ∈ items) (hlen : item.length ≠ -1) :
    FilesSet items ft (filetableSetChunkyfile ft item.path (some (writerOf item))) := by
  intro p e' he'
  rw [lookup_filetableSetChunkyfile] at he'
  split_ifs at he' with hp
  · obtain ⟨e, he, rfl⟩ := Option.map_eq_some_iff.mp he'
    exact ⟨e, he, Or.inr ⟨item, hitem, hlen, hp.symm, rfl⟩⟩
  · exact ⟨e', he', Or.inl rfl⟩

/-- A property of entries that does not depend on the file. -/
theorem FilesSet.all {P : FileTableEntry → Prop} {items : List IteratorItem} {ft ft' : FileTable}
    (h : FilesSet items ft ft') (hall : ft.All P)
    (hfile : ∀ e file, P e → P { e with file := file }) : ft'.All P := by
  intro p e' he'
  obtain ⟨e, he, rfl | ⟨item, -, -, -, rfl⟩⟩ := h p e' he'
  · exact hall p e' he
  · exact hfile e _ (hall p e he)

/-! ## Masters -/

/-- The directory after the paths of the deletions have been removed. -/
def removePaths (dir : Directory) (deletions : Folder) : Directory :=
  (filesystemIteratorRelative true deletions).foldl (fun dir item => dir.remove (resolve item.path)) dir

theorem adoptDeletions_eq : adoptDeletions c deletions = { c with
    dir := removePaths c.dir deletions
    curFs := if checkFileSystem deletions then (removePaths c.dir deletions).filesystemNew
      else c.curFs
    ft := filetableRemoveFilesystem c.ft deletions } := by
  unfold adoptDeletions
  split_ifs with h
  · rfl
  · unfold removePaths filetableRemoveFilesystem
    rw [filesystemIteratorRelative_eq_nil h]
    rfl

/-- The directory and the table after the loop over the additions. -/
def prepareAdditions (dir : Directory) (ft : FileTable) (additions : Folder) :
    Directory × FileTable :=
  (filesystemIteratorRelative false additions).foldl prepareAddition (dir, ft)

/-- What every new file to be written keeps of the table, the loop keeps. -/
theorem prepareAdditions_induct {R : FileTable → Prop} {dir : Directory} {ft : FileTable} (h : R ft)
    (hset : ∀ ft, ∀ item ∈ filesystemIteratorRelative false additions, item.length ≠ -1 → R ft →
      R (filetableSetChunkyfile ft item.path (some (writerOf item)))) :
    R (prepareAdditions dir ft additions).2 := by
  unfold prepareAdditions
  generalize filesystemIteratorRelative false additions = items at hset ⊢
  induction items generalizing dir ft with
  | nil => exact h
  | cons item items ih =>
    rw [List.foldl_cons]
    have hitem : R (prepareAddition (dir, ft) item).2 := by
      unfold prepareAddition
      split_ifs with hlen
      · exact h
      · exact hset ft item List.mem_cons_self hlen h
    exact ih hitem fun ft x hx => hset ft x (List.mem_cons_of_mem item hx)

theorem filesSet_prepareAdditions {dir : Directory} {ft : FileTable} :
    FilesSet (filesystemIteratorRelative false additions) ft (prepareAdditions dir ft additions).2 :=
  prepareAdditions_induct (.refl _ ft) fun ft1 _ hitem hlen h =>
    h.trans (filesSet_filetableSetChunkyfile ft1 hitem hlen)

theorem adoptAdditions_ok (h : adoptAdditions c additions = .ok c') :
    ∃ rand, filetableEnqueueWorkForFilesystem (prepareAdditions c.dir c.ft additions).2 additions
        c.jobs.rand = .ok (c'.ft, rand) ∧
      c' = { c with
        dir := (prepareAdditions c.dir c.ft additions).1
        ft := c'.ft
        jobs := { c.jobs with rand := rand } } := by
  unfold adoptAdditions at h
  split_ifs at h with hcheck
  · obtain ⟨⟨ft, rand⟩, hft, h⟩ := bind_eq_ok.mp h
    cases h
    exact ⟨rand, hft, rfl⟩
  · cases h
    unfold prepareAdditions filetableEnqueueWorkForFilesystem
    rw [filesystemIteratorRelative_eq_nil hcheck, filesystemIteratorRelative_eq_nil hcheck]
    exact ⟨c.jobs.rand, rfl, rfl⟩

/-- What `UpdateLocalFilesystem` does with the diff to a master. -/
theorem updateLocalFilesystem_ok (h : updateLocalFilesystem c newFs = .ok (c', sent))
    (hdiff : filesystemDiff c.curFs newFs = (additions, deletions)) :
    ∃ rand st, prepareAdditions (removePaths c.dir deletions)
        (filetableRemoveFilesystem c.ft deletions) additions = st ∧
      filetableEnqueueWorkForFilesystem st.2 additions c.jobs.rand = .ok (c'.ft, rand) ∧
      c' = { c with
        dir := st.1
        curFs := newFs
        ft := c'.ft
        jobs := { c.jobs with rand := rand } } ∧
      sent = announceFiles (adoptDeletions c deletions).curFs := by
  unfold updateLocalFilesystem at h
  rw [hdiff] at h
  obtain ⟨c1, h1, h⟩ := bind_eq_ok.mp h
  cases h
  obtain ⟨rand, hft, hc1⟩ := adoptAdditions_ok h1
  rw [adoptDeletions_eq] at hft hc1
  refine ⟨rand, _, rfl, hft, ?_, rfl⟩
  rw [hc1]

/-! ## Diffs -/

/-- What the handling of a diff does. -/
theorem receiveDiff_ok (h : receiveDiff c additions deletions peerId = .ok (c', sent)) :
    ∃ rand, getFileAdditions (removePaths c.dir deletions)
        (filetableAddFilesystem (filetableRemoveFilesystem c.ft deletions) additions peerId true
          c.jobs.rand).1 additions = .ok (c'.dir, c'.ft) ∧
      c' = { c with
        dir := c'.dir
        curFs := c'.dir.filesystemNew
        ft := c'.ft
        jobs := { c.jobs with rand := rand } } ∧
      sent = [] := by
  obtain ⟨fs, -, h⟩ := bind_eq_ok.mp h
  obtain ⟨⟨dir, ft⟩, hget, h⟩ := bind_eq_ok.mp h
  cases h
  exact ⟨_, hget, rfl, rfl⟩

/-- What every new file to be written keeps of the table, the loop keeps. -/
theorem getFileAdditions_induct {R : FileTable → Prop} {dir dir' : Directory} {ft ft' : FileTable}
    (hok : getFileAdditions dir ft additions = .ok (dir', ft')) (h : R ft)
    (hset : ∀ ft, ∀ item ∈ filesystemIteratorRelative false additions, item.length ≠ -1 → R ft →
      R (filetableSetChunkyfile ft item.path (some (writerOf item)))) : R ft' := by
  unfold getFileAdditions at hok
  generalize filesystemIteratorRelative false additions = items at hok hset
  induction items generalizing dir ft with
  | nil =>
    cases hok
    exact h
  | cons item items ih =>
    rw [List.foldlM_cons] at hok
    obtain ⟨⟨dir1, ft1⟩, h1, hok⟩ := bind_eq_ok.mp hok
    refine ih ?_ hok fun ft x hx => hset ft x (List.mem_cons_of_mem item hx)
    unfold getFileAddition at h1
    dsimp only at h1
    split_ifs at h1 with hlen
    · cases h1
      exact h
    · obtain ⟨dir2, -, h1⟩ := bind_eq_ok.mp h1
      cases h1
      exact hset ft item List.mem_cons_self hlen h
    · cases h1
      exact hset ft item List.mem_cons_self hlen h

theorem filesSet_getFileAdditions {dir dir' : Directory} {ft ft' : FileTable}
    (h : getFileAdditions dir ft additions = .ok (dir', ft')) :
    FilesSet (filesystemIteratorRelative false additions) ft ft' :=
  getFileAdditions_induct h (.refl _ ft) fun ft1 _ hitem hlen h =>
    h.trans (filesSet_filetableSetChunkyfile ft1 hitem hlen)

/-! ## Local changes -/

/-- The check compares a snapshot that has settled. -/
def Client.Settled (c : Client) (now : UInt64) : Prop :=
  ¬ now - c.prevTime < 5000000 ∧
    c.prevFs.any (fun prevFs => filesystemEquals prevFs c.dir.filesystemNew) = true

instance (c : Client) (now : UInt64) : Decidable (c.Settled now) :=
  inferInstanceAs (Decidable (_ ∧ _))

theorem checkLocalFilesystem_of_not_settled (h : ¬ c.Settled now) :
    ∃ prevFs prevTime, checkLocalFilesystem c now =
      ({ c with prevFs := prevFs, prevTime := prevTime }, []) := by
  unfold checkLocalFilesystem
  split_ifs with htime
  · exact ⟨c.prevFs, c.prevTime, rfl⟩
  · cases hprev : c.prevFs with
    | none => exact ⟨_, _, rfl⟩
    | some prevFs =>
      have hne : ¬ filesystemEquals prevFs c.dir.filesystemNew = true := fun heq =>
        h ⟨htime, by rw [hprev]; exact heq⟩
      dsimp only
      rw [if_neg hne]
      exact ⟨_, _, rfl⟩

/-- The update that a settled check finds. -/
def Client.localDiff (c : Client) : Folder × Folder := filesystemDiff c.curFs c.dir.filesystemNew

theorem checkLocalFilesystem_of_settled (h : c.Settled now) : checkLocalFilesystem c now =
    if checkFileSystem c.localDiff.1 || checkFileSystem c.localDiff.2 then
      ({ c with
        prevTime := now
        curFs := c.dir.filesystemNew
        ft := (filetableAddFilesystem (filetableRemoveFilesystem c.ft c.localDiff.2)
          c.localDiff.1 myID false c.jobs.rand).1
        jobs := { c.jobs with
          rand := (filetableAddFilesystem (filetableRemoveFilesystem c.ft c.localDiff.2)
            c.localDiff.1 myID false c.jobs.rand).2 } },
        [.updatedFiles c.localDiff.1 c.localDiff.2])
    else ({ c with prevTime := now }, []) := by
  obtain ⟨htime, hany⟩ := h
  obtain ⟨prevFs, hprev, heq⟩ := (Option.any_eq_true _ _).mp hany
  unfold checkLocalFilesystem
  rw [if_neg htime]
  dsimp only
  rw [hprev]
  dsimp only
  rw [if_pos heq]
  rfl

/-- What the local check does: it leaves the table as it is, or it reports what has changed. -/
theorem checkLocalFilesystem_ok (h : checkLocalFilesystem c now = (c', sent)) :
    (∃ prevFs prevTime, c' = { c with prevFs := prevFs, prevTime := prevTime } ∧ sent = []) ∨
    ∃ rand, c' = { c with
      prevTime := now
      curFs := c.dir.filesystemNew
      ft := (filetableAddFilesystem (filetableRemoveFilesystem c.ft c.localDiff.2) c.localDiff.1 myID
        false c.jobs.rand).1
      jobs := { c.jobs with rand := rand } } ∧ sent = [.updatedFiles c.localDiff.1 c.localDiff.2] := by
  by_cases hsettled : c.Settled now
  · rw [checkLocalFilesystem_of_settled hsettled] at h
    split_ifs at h
    · cases h
      exact Or.inr ⟨_, rfl, rfl⟩
    · cases h
      exact Or.inl ⟨c.prevFs, now, rfl, rfl⟩
  · obtain ⟨prevFs, prevTime, heq⟩ := checkLocalFilesystem_of_not_settled hsettled
    rw [heq] at h
    cases h
    exact Or.inl ⟨prevFs, prevTime, rfl, rfl⟩

/-! ## Chunks -/

/-- What the answer to a chunk request does. -/
theorem receiveChunkRequest_ok
    (h : receiveChunkRequest c peerId filepath chunkId requestId = .ok (c', sent)) :
    (c' = c ∨ filetableGetChunkyfile c.ft filepath = none ∧ ∃ content, c' = { c with
      ft := filetableSetChunkyfile c.ft filepath
        (some (chunkyfileNewForReadingFromPath content)) }) ∧
    ((∃ text, sent = [.chunk peerId filepath chunkId text requestId]) ∨
      sent = [.chunkRejection peerId filepath chunkId requestId]) := by
  unfold receiveChunkRequest at h
  cases hfile : filetableGetChunkyfile c.ft filepath with
  | some file =>
    rw [hfile] at h
    obtain ⟨text, -, h⟩ := bind_eq_ok.mp h
    cases h
    exact ⟨Or.inl rfl, Or.inl ⟨text, rfl⟩⟩
  | none =>
    rw [hfile] at h
    dsimp only at h
    cases hopen : openForReading c.dir filepath with
    | none =>
      rw [hopen] at h
      cases h
      exact ⟨Or.inl rfl, Or.inr rfl⟩
    | some file =>
      rw [hopen] at h
      obtain ⟨text, -, h⟩ := bind_eq_ok.mp h
      cases h
      refine ⟨Or.inr ⟨rfl, ?_⟩, Or.inl ⟨text, rfl⟩⟩
      unfold openForReading at hopen
      split at hopen
      · cases hopen
        exact ⟨_, rfl⟩
      · cases hopen

/-- The entry has a file and waits for the answer to that request. -/
def FileTableEntry.Awaits (e : FileTableEntry) (requestId : ℤ) : Prop :=
  (requestId ∈ e.outstandingRequests ∨ requestId = 0) ∧ e.file.isSome

instance (e : FileTableEntry) (requestId : ℤ) : Decidable (e.Awaits requestId) :=
  inferInstanceAs (Decidable (_ ∧ _))

/-- `e` without the request. -/
def FileTableEntry.answered (e : FileTableEntry) (requestId : ℤ) : FileTableEntry :=
  { e with outstandingRequests := e.outstandingRequests.erase requestId }

/-- What the handling of an answer does to a client with the entry `e` at its path. -/
inductive ChunkReceived (c : Client) (e : FileTableEntry) (filepath : CString) (chunkId : ℤ)
    (data : Option (List UInt8)) (requestId : ℤ) : Client → List ClientMessage → Prop
  | ignored {ft : FileTable} : ¬ e.Awaits requestId →
      IsUpdate c.ft ft filepath (e.answered requestId) →
      ChunkReceived c e filepath chunkId data requestId { c with ft := ft } []
  | rejected {ft : FileTable} : e.Awaits requestId → data = none →
      IsUpdate c.ft ft filepath
        { e.answered requestId with workQueue := e.workQueue ++ [chunkId] } →
      ChunkReceived c e filepath chunkId data requestId { c with ft := ft } []
  | completed {ft : FileTable} {file file' : ChunkyFile} {chunk : List UInt8} {dir : Directory} :
      e.Awaits requestId → data = some chunk → e.file = some file →
      chunkyfileSetChunk file chunkId chunk = .ok file' → chunkyfileAllChunksWritten file' = true →
      chunkyfileWrite c.dir file' = .ok dir →
      IsUpdate c.ft ft filepath { e.answered requestId with file := none } →
      ChunkReceived c e filepath chunkId data requestId
        { c with dir := dir, curFs := dir.filesystemNew, ft := ft } [.chunkGot filepath chunkId]
  | stored {ft : FileTable} {file file' : ChunkyFile} {chunk : List UInt8} :
      e.Awaits requestId → data = some chunk → e.file = some file →
      chunkyfileSetChunk file chunkId chunk = .ok file' → ¬ chunkyfileAllChunksWritten file' = true →
      IsUpdate c.ft ft filepath { e.answered requestId with file := some file' } →
      ChunkReceived c e filepath chunkId data requestId
        { c with curFs := c.dir.filesystemNew, ft := ft } [.chunkGot filepath chunkId]

theorem receiveChunk_ok {data : Option (List UInt8)}
    (h : receiveChunk c filepath chunkId data requestId = .ok (c', sent)) :
    ∃ e, c.ft.lookup filepath = some e ∧
      ChunkReceived c e filepath chunkId data requestId c' sent := by
  unfold receiveChunk at h
  obtain ⟨⟨removed, ft⟩, hremove, h⟩ := bind_eq_ok.mp h
  obtain ⟨e, he, hremoved, hft⟩ := filetableFindAndRemoveJobId_ok hremove
  have hlook : ft.lookup filepath = some (e.answered requestId) := by rw [hft, if_pos rfl]; rfl
  have hpath : (e.answered requestId).path = filepath := path_of_lookup hlook
  refine ⟨e, he, ?_⟩
  dsimp only at h
  split_ifs at h with hne
  · cases h
    exact .ignored (fun hawait => hne (hremoved.mpr hawait.1)) hft
  · have hmatch := hremoved.mp (not_not.mp hne)
    have hfile : filetableGetChunkyfile ft filepath = e.file := by
      unfold filetableGetChunkyfile
      rw [hlook]
      rfl
    rw [hfile] at h
    cases hef : e.file with
    | none =>
      rw [hef] at h
      cases h
      exact .ignored (fun hawait => by rw [FileTableEntry.Awaits, hef] at hawait; cases hawait.2) hft
    | some file =>
      have hawait : e.Awaits requestId := ⟨hmatch, by rw [hef]; rfl⟩
      rw [hef] at h
      cases hdata : data with
      | none =>
        rw [hdata] at h
        obtain ⟨ft', hft', h⟩ := bind_eq_ok.mp h
        cases h
        unfold filetableEnqueueWorkRequest at hft'
        rw [hlook] at hft'
        cases hft'
        exact .rejected hawait rfl (hft.trans (isUpdate_overwrite hlook hpath))
      | some chunk =>
        rw [hdata] at h
        obtain ⟨file', hset, h⟩ := bind_eq_ok.mp h
        split_ifs at h with hall
        · obtain ⟨dir, hdir, h⟩ := bind_eq_ok.mp h
          cases h
          exact .completed hawait rfl hef hset hall hdir
            (hft.trans (isUpdate_filetableSetChunkyfile hlook))
        · cases h
          exact .stored hawait rfl hef hset hall
            (hft.trans (isUpdate_filetableSetChunkyfile hlook))

end DartSync
