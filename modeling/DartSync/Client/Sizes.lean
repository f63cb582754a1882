import DartSync.Client

/-!
# Sizes and folders

A snapshot holds a size as an `unsigned long`; an iterator reports it as an `int`, with -1 for a
folder. `readsSize_iff`: the report is the size, and every loop over a tree takes the entry for what
it is and for the right number of chunks, exactly when the entry is a folder or below 2 GiB.
-/

namespace DartSync

/-! ## The loops over a tree -/

/-- One step of `filetable_remove_filesystem`. -/
def removeItem (ft : FileTable) (item : IteratorItem) : FileTable :=
  if item.length < 0 then ft else ft.erase item.path

theorem filetableRemoveFilesystem_eq (ft : FileTable) (fs : Folder) :
    filetableRemoveFilesystem ft fs = (filesystemIteratorRelative true fs).foldl removeItem ft := rfl

/-- One turn of the loop of `UpdateLocalFilesystem` that announces the local files. -/
def announceItem (item : IteratorItem) : List ClientMessage :=
  if numChunksForSize item.length < 1 ∨ item.length = -1 then []
  else (chunkNumbers (numChunksForSize item.length)).map (.chunkGot item.path)

theorem announceFiles_eq (fs : Folder) :
    announceFiles fs = (filesystemIteratorRelative false fs).flatMap announceItem := rfl

/-- The chunks of a file, the last one cut short. -/
def numChunks (size : UInt64) : ℕ := (size.toNat + 499999) / 500000

/-- The loops take the item for a file of `n` chunks. -/
structure TakesForFile (item : IteratorItem) (n : ℕ) : Prop where
  add : ∀ peer needsData st, ∃ workQueue rand, addItem peer needsData st item =
      (st.1.insert ⟨item.path, none, List.replicate n [peer], workQueue, []⟩, rand) ∧
    workQueue.Perm (if needsData then chunkNumbers n else [])
  remove : ∀ ft, removeItem ft item = ft.erase item.path
  enqueue : ∀ st entry, st.1.lookup item.path = some entry → ∃ workQueue rand,
    enqueueWorkForItem st item = .ok (st.1.overwrite { entry with workQueue := workQueue }, rand) ∧
      workQueue.Perm (entry.workQueue ++ chunkNumbers n)
  announce : announceItem item = (chunkNumbers n).map (.chunkGot item.path)
  prepare : ∀ st, ∃ file, prepareAddition st item =
      (st.1, filetableSetChunkyfile st.2 item.path (some file)) ∧ chunkyfileNumChunks file = n
  get : ∀ st, ∃ file, chunkyfileNumChunks file = n ∧ getFileAddition st item =
    if n = 0 then (chunkyfileWrite st.1 file).map fun dir =>
      (dir, filetableSetChunkyfile st.2 item.path (some file))
    else .ok (st.1, filetableSetChunkyfile st.2 item.path (some file))

/-- The loops take the item for a folder. -/
structure TakesForFolder (item : IteratorItem) : Prop where
  add : ∀ peer needsData st, addItem peer needsData st item = st
  remove : ∀ ft, removeItem ft item = ft
  enqueue : ∀ st, enqueueWorkForItem st item = .ok st
  announce : announceItem item = []
  prepare : ∀ st, prepareAddition st item = (st.1.mkdir (resolve item.path), st.2)
  get : ∀ st, getFileAddition st item = .ok (st.1.mkdir (resolve item.path), st.2)

/-- The item tells an entry's kind and size, and the loops read it so. -/
structure ReadsSize (e : File) (item : IteratorItem) : Prop where
  length : e.isFolder = 0 → item.length = e.size.toNat
  negative : item.length < 0 ↔ e.isFolder ≠ 0
  file : e.isFolder = 0 → TakesForFile item (numChunks e.size)
  folder : e.isFolder ≠ 0 → TakesForFolder item

variable {item : IteratorItem} {e : File} {size : UInt64}

theorem numChunksForSize_natCast (n : ℕ) : numChunksForSize n = ((n + 499999) / 500000 : ℕ) := by
  rw [numChunksForSize_of_nonneg (Int.natCast_nonneg n)]
  omega

theorem intOfSize_lt (size : UInt64) : intOfSize size < 2 ^ 31 := Int32.toInt_lt _

theorem takesForFolder (h : item.length = -1) : TakesForFolder item where
  add peer needsData st := if_pos (by omega)
  remove ft := if_pos (by omega)
  enqueue st := if_pos (by omega)
  announce := if_pos (Or.inr h)
  prepare st := if_pos h
  get st := if_pos h

theorem chunkNumbers_map_const (n : ℕ) (peer : ℤ) :
    ((chunkNumbers n).map fun _ => [peer]) = List.replicate n [peer] := by
  refine List.eq_replicate_iff.mpr ⟨by simp [chunkNumbers], fun owners howners => ?_⟩
  obtain ⟨c, -, rfl⟩ := List.mem_map.mp howners
  rfl

/-- Whatever test a loop makes, a length that is not negative makes a file of the item. -/
theorem takesForFile {n : ℕ} (h : item.length = n) : TakesForFile item ((n + 499999) / 500000) where
  add peer needsData st := by
    have hpos : 0 ≤ item.length := by omega
    obtain ⟨workQueue, rand, hadd, hperm⟩ := addItem_of_nonneg peer needsData st hpos
    unfold newEntry at hadd
    rw [h, numChunksForSize_natCast] at hperm hadd
    rw [chunkNumbers_map_const] at hadd
    exact ⟨workQueue, rand, hadd, hperm⟩
  remove ft := if_neg (by omega)
  enqueue st entry hentry := by
    unfold enqueueWorkForItem
    rw [if_neg (by omega), hentry, h, numChunksForSize_natCast]
    exact ⟨_, _, rfl, queueShuffle_perm _ _⟩
  announce := by
    unfold announceItem
    rw [h, numChunksForSize_natCast]
    by_cases hzero : (n + 499999) / 500000 = 0
    · rw [if_pos (Or.inl (by omega)), hzero]
      rfl
    · exact if_neg fun hor => by omega
  prepare st := by
    refine ⟨_, if_neg (by omega), ?_⟩
    show numChunksForSize item.length = _
    rw [h, numChunksForSize_natCast]
  get st := by
    refine ⟨chunkyfileNewForWritingToPath item.path item.length item.modTime, ?_, ?_⟩
    · show numChunksForSize item.length = _
      rw [h, numChunksForSize_natCast]
    · unfold getFileAddition
      rw [if_neg (by omega)]
      have hchunks : chunkyfileNumChunks (chunkyfileNewForWritingToPath item.path item.length item.modTime) =
          ((n + 499999) / 500000 : ℕ) := by
        show numChunksForSize item.length = _
        rw [h, numChunksForSize_natCast]
      dsimp only
      rw [hchunks]
      by_cases hzero : (n + 499999) / 500000 = 0
      · rw [if_pos hzero, if_pos (by omega)]
        cases chunkyfileWrite st.1 (chunkyfileNewForWritingToPath item.path item.length item.modTime) <;> rfl
      · rw [if_neg hzero, if_neg (by omega)]

/-- **Sizes.** The iterators yield every entry of a tree; its kind, its size and its chunks come
through to every loop exactly when it is a folder or a file below 2 GiB. -/
theorem readsSize_iff (fs : Folder) (fileFirst : Bool) (q : List CString) (e : File)
    (hfs : fs.WellFormed) (he : (q, e) ∈ fs.view.entries) :
    itemOf (joinPath .empty q) e ∈ filesystemIteratorRelative fileFirst fs ∧
      (ReadsSize e (itemOf (joinPath .empty q) e) ↔ (e.isFolder = 0 → e.size.toNat < 2 ^ 31)) := by
  refine ⟨(mem_filesystemIterator hfs.distinct).mpr ⟨q, e, he, rfl⟩, fun h hfile => ?_, fun h => ?_⟩
  · have hlength := h.length hfile
    have hitem : (itemOf (joinPath .empty q) e).length = intOfSize e.size := if_neg (not_not.mpr hfile)
    have hlt := intOfSize_lt e.size
    rw [← hitem, hlength] at hlt
    omega
  · by_cases hfolder : e.isFolder = 0
    · have hitem : (itemOf (joinPath .empty q) e).length = e.size.toNat :=
        (if_neg (not_not.mpr hfolder)).trans (intOfSize_eq (h hfolder))
      refine ⟨fun _ => hitem, ?_, fun _ => takesForFile hitem, fun hnot => absurd hfolder hnot⟩
      rw [hitem]
      exact iff_of_false (by omega) (not_not.mpr hfolder)
    · have hitem : (itemOf (joinPath .empty q) e).length = -1 := if_pos hfolder
      refine ⟨fun hfile => absurd hfile hfolder, ?_, fun hfile => absurd hfile hfolder,
        fun _ => takesForFolder hitem⟩
      rw [hitem]
      exact iff_of_true (by decide) hfolder

namespace SizesExample

/-- A tree of one file `y`. -/
def fileOf (size : UInt64) : Folder := ⟨.empty, [⟨.ofBytes [121], size, 2, 0⟩], []⟩

end SizesExample

open SizesExample

theorem readsSize_iff_small :
    itemOf .empty ⟨.ofBytes [121], 7, 2, 0⟩ ∈ filesystemIteratorRelative true (fileOf 7) ∧
      (ReadsSize ⟨.ofBytes [121], 7, 2, 0⟩ (itemOf .empty ⟨.ofBytes [121], 7, 2, 0⟩) ↔
        ((0 : Int32) = 0 → (7 : UInt64).toNat < 2 ^ 31)) :=
  readsSize_iff (fileOf 7) true [] _ (by decide) ⟨fileOf 7, rfl, List.mem_singleton_self _⟩

/-- A file of 4 GiB less one byte is reported, and taken, as a folder. -/
theorem not_readsSize_large :
    ([], ⟨.ofBytes [121], 4294967295, 2, 0⟩) ∈ (fileOf 4294967295).view.entries ∧
      ¬ ReadsSize ⟨.ofBytes [121], 4294967295, 2, 0⟩
        (itemOf .empty ⟨.ofBytes [121], 4294967295, 2, 0⟩) ∧
      TakesForFolder (itemOf .empty ⟨.ofBytes [121], 4294967295, 2, 0⟩) := by
  refine ⟨⟨fileOf 4294967295, rfl, List.mem_singleton_self _⟩, fun h => ?_, takesForFolder (by decide)⟩
  exact absurd (h.length rfl) (by decide)

end DartSync
