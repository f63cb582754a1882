import DartSync.Directory
import DartSync.FileSystem.Patch
import DartSync.FileTable.Lookup

/-!
# The client

`client.c`: the synchronised directory, the tree that counts as announced (`cur_fs`), the last
snapshot (`prev_fs`) and the file table, and what the main loop does with each message that it
polls. A step of the model is the handling of one message, one pass of `check_work_queue`, one call
of `CheckLocalFilesystem`, or an edit by the user.
-/

namespace DartSync

/-- `MAX_PENDING_REQUESTS` -/
def maxPendingRequests : ℕ := 15

/-- `myID` -/
def myID : ℤ := 0

/-- The globals of the client and its directory. Times are in microseconds. -/
structure Client where
  dir : Directory
  curFs : Folder
  prevFs : Option Folder
  prevTime : UInt64
  ft : FileTable
  jobs : JobState

/-- What the main loop hands to the network. -/
inductive ClientMessage
  | chunkGot (path : CString) (chunkNum : ℤ)
  | updatedFiles (additions deletions : Folder)
  | chunkRequest (peer : ℤ) (path : CString) (chunk jobId : ℤ)
  | chunk (peer : ℤ) (path : CString) (chunkId : ℤ) (data : List UInt8) (requestId : ℤ)
  | chunkRejection (peer : ℤ) (path : CString) (chunkId requestId : ℤ)

/-- What a handler returns. -/
abbrev Handled := Except Abort (Client × List ClientMessage)

/-! ## Files on disk -/

/-- `CheckFileSystem`: the tree has an entry. -/
def checkFileSystem (fs : Folder) : Bool := !(filesystemIteratorRelative false fs).isEmpty

/-- `chunkyfile_write` -/
def chunkyfileWrite (dir : Directory) (cf : ChunkyFile) : Except Abort Directory :=
  match cf.path with
  | none => .error .chunkyfilePath
  | some path => dir.write (resolve path) (cf.data.take cf.size.toNat) cf.modifyTime

/-- `chunkyfile_new_for_reading_from_path`: NULL unless a file is there. -/
def openForReading (dir : Directory) (path : CString) : Option ChunkyFile :=
  match dir.lookup (resolve path) with
  | some (.file content _) => some (chunkyfileNewForReadingFromPath content)
  | _ => none

/-- `RemoveFileDeletions` -/
def removeFileDeletions (c : Client) (deletions : Folder) : Client :=
  let dir := (filesystemIteratorRelative true deletions).foldl
    (fun dir item => dir.remove (resolve item.path)) c.dir
  { c with dir := dir, curFs := dir.filesystemNew }

/-- One turn of the loop of `GetFileAdditions`. -/
def getFileAddition (st : Directory × FileTable) (item : IteratorItem) :
    Except Abort (Directory × FileTable) :=
  if item.length = -1 then .ok (st.1.mkdir (resolve item.path), st.2)
  else
    let file := chunkyfileNewForWritingToPath item.path item.length item.modTime
    let ft := filetableSetChunkyfile st.2 item.path (some file)
    if chunkyfileNumChunks file < 1 then do
      let dir ← chunkyfileWrite st.1 file
      return (dir, ft)
    else .ok (st.1, ft)

/-- `GetFileAdditions` -/
def getFileAdditions (dir : Directory) (ft : FileTable) (additions : Folder) :
    Except Abort (Directory × FileTable) :=
  (filesystemIteratorRelative false additions).foldlM getFileAddition (dir, ft)

/-! ## Masters -/

/-- The loop of `UpdateLocalFilesystem` that announces the local files. -/
def announceFiles (fs : Folder) : List ClientMessage :=
  (filesystemIteratorRelative false fs).flatMap fun item =>
    if numChunksForSize item.length < 1 ∨ item.length = -1 then []
    else (chunkNumbers (numChunksForSize item.length)).map (.chunkGot item.path)

/-- One turn of the loop of `UpdateLocalFilesystem` over the additions. -/
def prepareAddition (st : Directory × FileTable) (item : IteratorItem) : Directory × FileTable :=
  if item.length = -1 then (st.1.mkdir (resolve item.path), st.2)
  else (st.1, filetableSetChunkyfile st.2 item.path
    (some (chunkyfileNewForWritingToPath item.path item.length item.modTime)))

/-- The deletions in `UpdateLocalFilesystem`. -/
def adoptDeletions (c : Client) (deletions : Folder) : Client :=
  if checkFileSystem deletions then
    removeFileDeletions { c with ft := filetableRemoveFilesystem c.ft deletions } deletions
  else c

/-- The additions in `UpdateLocalFilesystem`. -/
def adoptAdditions (c : Client) (additions : Folder) : Except Abort Client :=
  if checkFileSystem additions then do
    let st := (filesystemIteratorRelative false additions).foldl prepareAddition (c.dir, c.ft)
    let (ft, rand) ← filetableEnqueueWorkForFilesystem st.2 additions c.jobs.rand
    return { c with dir := st.1, ft := ft, jobs := { c.jobs with rand := rand } }
  else .ok c

/-- `UpdateLocalFilesystem` -/
def updateLocalFilesystem (c : Client) (newFs : Folder) : Handled := do
  let (additions, deletions) := filesystemDiff c.curFs newFs
  let c := adoptDeletions c deletions
  let sent := announceFiles c.curFs
  let c ← adoptAdditions c additions
  return ({ c with curFs := newFs }, sent)

/-! ## Diffs -/

/-- The `recv_diff` loop of `main`. -/
def receiveDiff (c : Client) (additions deletions : Folder) (peerId : ℤ) : Handled := do
  let c := removeFileDeletions c deletions
  let curFs := filesystemMinusEquals c.curFs deletions
  let ft := filetableRemoveFilesystem c.ft deletions
  let _ ← filesystemPlusEquals curFs additions
  let (ft, rand) := filetableAddFilesystem ft additions peerId true c.jobs.rand
  let (dir, ft) ← getFileAdditions c.dir ft additions
  return ({ c with
    dir := dir
    curFs := dir.filesystemNew
    ft := ft
    jobs := { c.jobs with rand := rand } }, [])

/-! ## Local changes -/

/-- `CheckLocalFilesystem`, at the time `now` -/
def checkLocalFilesystem (c : Client) (now : UInt64) : Client × List ClientMessage :=
  if now - c.prevTime < 5000000 then (c, [])
  else
    let c := { c with prevTime := now }
    let newFs := c.dir.filesystemNew
    match c.prevFs with
    | none => ({ c with prevFs := some newFs }, [])
    | some prevFs =>
      if filesystemEquals prevFs newFs then
        let (adds, dels) := filesystemDiff c.curFs newFs
        if checkFileSystem adds || checkFileSystem dels then
          let ft := filetableRemoveFilesystem c.ft dels
          let (ft, rand) := filetableAddFilesystem ft adds myID false c.jobs.rand
          ({ c with curFs := newFs, ft := ft, jobs := { c.jobs with rand := rand } },
            [.updatedFiles adds dels])
        else (c, [])
      else ({ c with prevFs := some newFs }, [])

/-! ## Chunks -/

/-- The `receive_chunk_request` loop of `main`. -/
def receiveChunkRequest (c : Client) (peerId : ℤ) (filepath : CString) (chunkId requestId : ℤ) :
    Handled :=
  match filetableGetChunkyfile c.ft filepath with
  | some file => do
    let text ← chunkyfileGetChunk file chunkId
    return (c, [.chunk peerId filepath chunkId text requestId])
  | none =>
    match openForReading c.dir filepath with
    | none => .ok (c, [.chunkRejection peerId filepath chunkId requestId])
    | some file => do
      let c := { c with ft := filetableSetChunkyfile c.ft filepath (some file) }
      let text ← chunkyfileGetChunk file chunkId
      return (c, [.chunk peerId filepath chunkId text requestId])

/-- The `receive_chunk` loop of `main`; a rejection comes without data. -/
def receiveChunk (c : Client) (filepath : CString) (chunkId : ℤ) (data : Option (List UInt8))
    (requestId : ℤ) : Handled := do
  let (removed, ft) ← filetableFindAndRemoveJobId c.ft filepath requestId
  let c := { c with ft := ft }
  if removed ≠ requestId then return (c, [])
  else match filetableGetChunkyfile c.ft filepath, data with
    | none, _ => return (c, [])
    | some _, none => do
      let ft ← filetableEnqueueWorkRequest c.ft filepath chunkId
      return ({ c with ft := ft }, [])
    | some file, some data => do
      let file ← chunkyfileSetChunk file chunkId data
      if chunkyfileAllChunksWritten file then do
        let dir ← chunkyfileWrite c.dir file
        return ({ c with
          dir := dir
          curFs := dir.filesystemNew
          ft := filetableSetChunkyfile c.ft filepath none }, [.chunkGot filepath chunkId])
      else
        return ({ c with
          curFs := c.dir.filesystemNew
          ft := filetableSetChunkyfile c.ft filepath (some file) }, [.chunkGot filepath chunkId])

/-- The inner loop of `check_work_queue`. It ends when the work queue is empty at the latest. -/
def getJobs : ℕ → FileTableEntry → JobState →
    Except Abort (FileTableEntry × JobState × List ClientMessage)
  | 0, entry, st => .ok (entry, st, [])
  | fuel + 1, entry, st => do
    match ← filetableentryGetJob entry maxPendingRequests st with
    | (none, entry, st) => return (entry, st, [])
    | (some (chunk, destId, jobId), entry, st) => do
      let (entry, st, sent) ← getJobs fuel entry st
      return (entry, st, .chunkRequest destId entry.path chunk jobId :: sent)

/-- The turn of the outer loop of `check_work_queue` for one entry. -/
def checkEntry (st : FileTable × JobState × List ClientMessage) (entry : FileTableEntry) :
    Except Abort (FileTable × JobState × List ClientMessage) := do
  let (entry, jobs, sent) ← getJobs (entry.workQueue.length + 1) entry st.2.1
  return (st.1.overwrite entry, jobs, st.2.2 ++ sent)

/-- `check_work_queue` -/
def checkWorkQueue (c : Client) : Handled := do
  let (ft, jobs, sent) ← c.ft.entries.foldlM checkEntry (c.ft, c.jobs, [])
  return ({ c with ft := ft, jobs := jobs }, sent)

/-! ## Steps -/

/-- What the main loop polls, and what the user does. -/
inductive ClientEvent
  | peerAdded (peerId : ℤ)
  | peerDeleted (peerId : ℤ)
  | chunkRequest (peerId : ℤ) (filepath : CString) (chunkId requestId : ℤ)
  | chunk (filepath : CString) (chunkId : ℤ) (data : Option (List UInt8)) (requestId : ℤ)
  | chunkGot (peerId : ℤ) (filepath : CString) (chunkId : ℤ)
  | diff (additions deletions : Folder) (peerId : ℤ)
  | master (master : Folder)
  | workQueue
  | checkLocal (now : UInt64)
  | edit (dir : Directory)

/-- The handling of one event, with what is handed to the network. -/
def Client.step (c : Client) : ClientEvent → Handled
  | .peerAdded _ => .ok (c, [])
  | .peerDeleted peerId => .ok ({ c with ft := filetableRemovePeer c.ft peerId }, [])
  | .chunkRequest peerId filepath chunkId requestId =>
    receiveChunkRequest c peerId filepath chunkId requestId
  | .chunk filepath chunkId data requestId => receiveChunk c filepath chunkId data requestId
  | .chunkGot peerId filepath chunkId => do
    let ft ← filetableSetThatPeerHasFileChunk c.ft filepath peerId chunkId
    return ({ c with ft := ft }, [])
  | .diff additions deletions peerId => receiveDiff c additions deletions peerId
  | .master master => updateLocalFilesystem c master
  | .workQueue => checkWorkQueue c
  | .checkLocal now => .ok (checkLocalFilesystem c now)
  | .edit dir => .ok ({ c with dir := dir }, [])

/-- The globals when `main` has its first master file table. -/
def Client.initial (dir : Directory) (ft : FileTable) (now : UInt64) (rand : Rand) : Client where
  dir := dir
  curFs := dir.filesystemNew
  prevFs := none
  prevTime := now
  ft := ft
  jobs := ⟨0, rand⟩

end DartSync
