import DartSync.Client.Chunks
import DartSync.Client.Files
import DartSync.Client.OnDisk

/-!
# A shared file

One file as it is to be on every disk: its path and its content. `IsCopy` says what a file in transfer
may hold of it, `Has` that a client can answer a request for a chunk with the bytes of this chunk, and
`Clean` that nothing else lies at its path. As long as no event puts something else there or takes the
file away, a client stays clean, keeps the chunks that it has, and sends no other bytes for them
(`SharedFile.clean_step`).
-/

namespace DartSync

open Buffer FileTable

/-- A file below 2 GiB with a legal path, whose last chunk can be sent. -/
structure SharedFile where
  path : List CString
  content : List UInt8
  path_ne : path ≠ []
  legal : ∀ n ∈ path, IsName n
  length_lt : content.length < 2 ^ 31
  hasLastChunk : HasLastChunk content.length

variable {f : SharedFile} {file file' : ChunkyFile} {i k : ℕ} {c c' : Client} {dir dir' : Directory}
  {fs old new additions deletions : Folder} {item : IteratorItem} {ft ft' : FileTable}

namespace SharedFile

/-- The path as a string. -/
def name (f : SharedFile) : CString := joinPath .empty f.path

/-- The bytes of a chunk. -/
def chunk (f : SharedFile) (k : ℕ) : List UInt8 := slice f.content (k * 500000) 500000

/-- The bytes of the chunk are those of the content. -/
def HoldsChunk (f : SharedFile) (file : ChunkyFile) (k : ℕ) : Prop :=
  ∀ i, i / 500000 = k → file.data[i]? = f.content[i]?

/-- The file is as large as the content, agrees with it in the chunks that have been written, and is
to be written nowhere else. -/
structure IsCopy (f : SharedFile) (file : ChunkyFile) : Prop where
  size : file.size = f.content.length
  length : file.data.length = f.content.length
  written : ∀ k, file.chunksWritten.getD k false = true → f.HoldsChunk file k
  path : ∀ path ∈ file.path, path = f.name

/-! ## Chunks -/

theorem numChunks_pos_iff : 0 < numChunksForSize f.content.length ↔ f.content ≠ [] := by
  rw [numChunksForSize_of_nonneg (Int.natCast_nonneg _), ← List.length_pos_iff]
  omega

/-- A chunk that is given out is that of the content. -/
theorem IsCopy.getChunk {n : ℤ} {text : List UInt8} (h : f.IsCopy file)
    (hholds : f.HoldsChunk file n.toNat) (hok : chunkyfileGetChunk file n = .ok text) :
    text = f.chunk n.toNat := by
  have hsize : (0 : ℤ) ≤ file.size := by rw [h.size]; exact Int.natCast_nonneg _
  have hlast := f.hasLastChunk
  unfold chunkyfileGetChunk at hok
  split_ifs at hok with hbounds
  cases hok
  obtain ⟨hoff, hend⟩ := hbounds
  have hlength := h.length
  have hcontent := h.size
  unfold chunkOffset chunkyfileChunkSize at hoff hend ⊢
  rw [chunkLength_of_nonneg hsize] at hend ⊢
  unfold HasLastChunk at hlast
  have hlen : (if n = (file.size + 499999) / 500000 - 1 then file.size % 500000 else 500000) =
      ((min 500000 (f.content.length - n.toNat * 500000) : ℕ) : ℤ) := by
    split_ifs at hend ⊢ <;> omega
  rw [hlen, Int.toNat_natCast]
  have hoffset : (n * 500000).toNat = n.toNat * 500000 := by omega
  rw [hoffset]
  refine List.ext_getElem? fun i => ?_
  by_cases hi : i < min 500000 (f.content.length - n.toNat * 500000)
  · unfold chunk
    rw [getElem?_slice hi, getElem?_slice (lt_of_lt_of_le hi (min_le_left _ _))]
    exact hholds _ (by omega)
  · unfold chunk slice
    rw [List.getElem?_eq_none (by simp; omega), List.getElem?_eq_none (by simp; omega)]

/-- A chunk of the content that is written leaves the others as they are. -/
theorem IsCopy.setChunk {n : ℤ} (h : f.IsCopy file)
    (hok : chunkyfileSetChunk file n (f.chunk n.toNat) = .ok file') :
    f.IsCopy file' ∧ f.HoldsChunk file' n.toNat ∧ ∀ k, f.HoldsChunk file k → f.HoldsChunk file' k := by
  unfold chunkyfileSetChunk at hok
  split_ifs at hok with hbounds
  cases hok
  obtain ⟨⟨hn, -⟩, -, hend⟩ := hbounds
  unfold chunkOffset chunkyfileChunkSize at hend
  have hoffset : (chunkOffset n).toNat = n.toNat * 500000 := by
    unfold chunkOffset chunkyfileChunkSize
    omega
  have hfits : n.toNat * 500000 + (f.chunk n.toNat).length ≤ file.data.length := by omega
  have hchunk : (f.chunk n.toNat).length = min 500000 (f.content.length - n.toNat * 500000) := by
    simp [chunk, slice]
  have hget : ∀ i, (splice file.data (chunkOffset n).toNat (f.chunk n.toNat))[i]? =
      if i / 500000 = n.toNat then f.content[i]? else file.data[i]? := by
    intro i
    rw [hoffset, getElem?_splice hfits]
    by_cases hin : n.toNat * 500000 ≤ i ∧ i < n.toNat * 500000 + (f.chunk n.toNat).length
    · rw [if_pos hin, if_pos (by omega)]
      unfold chunk
      rw [getElem?_slice (by omega)]
      congr 1
      omega
    · rw [if_neg hin]
      split_ifs with hi
      · -- beyond the end of the file
        have hlength := h.length
        rw [List.getElem?_eq_none (by omega), List.getElem?_eq_none (by omega)]
      · rfl
  have hholds : ∀ k, k = n.toNat ∨ f.HoldsChunk file k → ∀ i, i / 500000 = k →
      (splice file.data (chunkOffset n).toNat (f.chunk n.toNat))[i]? = f.content[i]? := by
    intro k hk i hi
    rw [hget i]
    split_ifs with hin
    · rfl
    · exact hk.resolve_left (fun heq => hin (hi.trans heq)) i hi
  refine ⟨⟨h.size, ?_, fun k hk => ?_, h.path⟩, hholds _ (Or.inl rfl), fun k hk => hholds k (Or.inr hk)⟩
  · rw [hoffset, length_splice hfits, h.length]
  · by_cases heq : k = n.toNat
    · exact hholds k (Or.inl heq)
    · refine hholds k (Or.inr (h.written k ?_))
      rwa [List.getD_eq_getElem?_getD, List.getElem?_set_ne (Ne.symm heq),
        ← List.getD_eq_getElem?_getD] at hk

/-- With all chunks written it is the content. -/
theorem IsCopy.complete (h : f.IsCopy file) (hall : chunkyfileAllChunksWritten file = true) :
    file.data = f.content := by
  refine List.ext_getElem? fun i => ?_
  by_cases hi : i < f.content.length
  · have hchunk : i / 500000 < (chunkyfileNumChunks file).toNat := by
      unfold chunkyfileNumChunks
      rw [h.size, numChunksForSize_of_nonneg (Int.natCast_nonneg _)]
      omega
    exact h.written _ (List.all_eq_true.mp hall _ (List.mem_range.mpr hchunk)) i rfl
  · have hlength := h.length
    rw [List.getElem?_eq_none (by omega), List.getElem?_eq_none (by omega)]

/-- Nothing of a new file has been written. -/
theorem isCopy_writerOf (hpath : item.path = f.name) (hlength : item.length = f.content.length) :
    f.IsCopy (writerOf item) where
  size := hlength
  length := by simp [writerOf, chunkyfileNewForWritingToPath, hlength]
  written k hk := by
    simp [writerOf, chunkyfileNewForWritingToPath, List.getD_eq_getElem?_getD,
      List.getElem?_replicate] at hk
    split_ifs at hk <;> cases hk
  path path hmem := by
    cases hmem
    exact hpath

theorem isCopy_reader : f.IsCopy (chunkyfileNewForReadingFromPath f.content) where
  size := size_reader f.length_lt
  length := by rw [data_reader f.length_lt]
  written k _ i _ := by rw [data_reader f.length_lt]
  path := nofun

/-! ## Trees -/

/-- No entry of the tree leads to the path. -/
def Avoids (f : SharedFile) (fs : Folder) : Prop :=
  ∀ item ∈ filesystemIteratorRelative true fs, resolve item.path ≠ f.path

instance (f : SharedFile) : DecidablePred f.Avoids := fun _ =>
  inferInstanceAs (Decidable (∀ _ ∈ _, _))

/-- What the tree lists at the path is a file of that size. -/
structure Carries (f : SharedFile) (fs : Folder) : Prop where
  distinct : fs.Distinct
  legal : LegalPaths fs
  file : ∀ x ∈ fs.view.entries, diskPath x = f.path →
    x.2.isFolder = 0 ∧ x.2.size = UInt64.ofNat f.content.length

theorem resolve_name : resolve f.name = f.path := resolve_joinPath f.legal

theorem Avoids.order (h : f.Avoids fs) (fileFirst : Bool) :
    ∀ item ∈ filesystemIteratorRelative fileFirst fs, resolve item.path ≠ f.path := fun item hitem =>
  h item (mem_filesystemIteratorRelative_order fileFirst hitem true)

theorem Avoids.not_listsFile (h : f.Avoids fs) :
    ¬ ListsFile (filesystemIteratorRelative true fs) f.name := by
  rintro ⟨item, hitem, -, hpath⟩
  exact h item hitem (by rw [hpath, resolve_name])

/-- The item at the path. -/
theorem Carries.atPath {fileFirst : Bool} (h : f.Carries fs)
    (hitem : item ∈ filesystemIteratorRelative fileFirst fs) (hpath : resolve item.path = f.path) :
    item.path = f.name ∧ item.length = f.content.length := by
  obtain ⟨q, e, he, rfl⟩ := (mem_filesystemIterator h.distinct).mp hitem
  have hdisk : diskPath (q, e) = f.path := (itemPath_eq (h.legal _ he)).symm.trans hpath
  obtain ⟨hfile, hsize⟩ := h.file _ he hdisk
  refine ⟨?_, ?_⟩
  · show addStrings [joinPath .empty q, .slash, e.name] = joinPath .empty f.path
    rw [← joinPath_append_singleton, ← hdisk]
    rfl
  · have hlt := f.length_lt
    have htoNat : (UInt64.ofNat f.content.length).toNat = f.content.length :=
      UInt64.toNat_ofNat_of_lt (hlt.trans (by decide))
    show (if e.isFolder ≠ 0 then -1 else intOfSize e.size) = _
    rw [if_neg (not_not.mpr hfile), hsize, intOfSize_eq (by omega), htoNat]

theorem Carries.mono (h : f.Carries fs) {fs' : Folder} (hdistinct : fs'.Distinct)
    (hsub : fs'.view.entries ⊆ fs.view.entries) : f.Carries fs' :=
  ⟨hdistinct, fun x hx => h.legal x (hsub hx), fun x hx => h.file x (hsub hx)⟩

theorem Carries.diffAdditions (hold : f.Carries old) (hnew : f.Carries new) :
    f.Carries (filesystemDiff old new).1 := by
  refine hnew.mono hnew.distinct.subtract ?_
  rw [(isDiff_additions hold.distinct hnew.distinct).entries_eq]
  exact Set.sdiff_subset

theorem Carries.diffDeletions (hold : f.Carries old) (hnew : f.Carries new) :
    f.Carries (filesystemDiff old new).2 := by
  refine hold.mono hold.distinct.subtract ?_
  rw [(isDiff_deletions hold.distinct hnew.distinct).entries_eq]
  exact Set.sdiff_subset

theorem Carries.patch (h : f.Carries fs) (hadd : f.Carries additions) (hdel : deletions.Distinct)
    {r : Folder} (hok : DartSync.patch fs additions deletions = .ok r) : f.Carries r := by
  have hview := view_patch h.distinct hadd.distinct hdel hok
  have hcases : ∀ x ∈ r.view.entries, x ∈ fs.view.entries ∨ x ∈ additions.view.entries := by
    intro x hx
    rw [hview] at hx
    exact hx.imp_left And.left
  exact ⟨h.distinct.patch hok, fun x hx => (hcases x hx).elim (h.legal x) (hadd.legal x),
    fun x hx => (hcases x hx).elim (h.file x) (hadd.file x)⟩

/-- Nothing else lies at the path. -/
def OnlyOn (f : SharedFile) (dir : Directory) : Prop :=
  ∀ node ∈ dir.lookup f.path, ∃ mtime, node = .file f.content mtime

theorem OnlyOn.carries (h : f.OnlyOn dir) : f.Carries dir.filesystemNew where
  distinct := dir.wellFormed_filesystemNew.distinct
  legal := (isTidy_filesystemNew dir).legal
  file x hx hdisk := by
    obtain ⟨node, hnode, hentry⟩ := lookup_of_mem_snapshot hx
    rw [hdisk] at hnode
    obtain ⟨mtime, rfl⟩ := h node hnode
    rw [← hentry]
    exact ⟨rfl, rfl⟩

/-- What a snapshot lists there is there. -/
theorem OnlyOn.lookup_of_listed {fileFirst : Bool} (h : f.OnlyOn dir)
    (hitem : item ∈ filesystemIteratorRelative fileFirst dir.filesystemNew)
    (hpath : resolve item.path = f.path) : ∃ node, dir.lookup f.path = some node := by
  obtain ⟨q, e, he, rfl⟩ := (mem_filesystemIterator h.carries.distinct).mp hitem
  obtain ⟨node, hnode, -⟩ := lookup_of_mem_snapshot he
  rw [← itemPath_eq (h.carries.legal _ he)] at hnode
  exact ⟨node, hpath ▸ hnode⟩

theorem carries_emptyFilesystem : f.Carries emptyFilesystem where
  distinct := wellFormed_emptyFilesystem.distinct
  legal x hx := absurd hx (Folder.not_mem_entries_of_isEmpty rfl x)
  file x hx := absurd hx (Folder.not_mem_entries_of_isEmpty rfl x)

/-! ## Tables -/

/-- No file in transfer is to be written to the path, but a copy in the entry of the file. -/
def CleanTable (f : SharedFile) (ft : FileTable) : Prop :=
  ∀ p file, filetableGetChunkyfile ft p = some file →
    (∀ path ∈ file.path, resolve path = f.path → p = f.name) ∧ (p = f.name → f.IsCopy file)

end SharedFile

/-- The files in transfer are those of `ft`, or new ones that are to be written for one of the items. -/
def FilesFrom (items : List IteratorItem) (ft ft' : FileTable) : Prop :=
  ∀ p, filetableGetChunkyfile ft' p = filetableGetChunkyfile ft p ∨
    filetableGetChunkyfile ft' p = none ∨
    ∃ item ∈ items, item.path = p ∧ filetableGetChunkyfile ft' p = some (writerOf item)

section Files

variable {items : List IteratorItem} {ft1 : FileTable} {p path : CString} {peer : ℤ} {rand : Rand}
  {needsData : Bool} {st : FileTable × Rand}

theorem FilesFrom.trans (h : FilesFrom items ft ft1) (h' : FilesFrom items ft1 ft') :
    FilesFrom items ft ft' := by
  intro p
  rcases h' p with hsame | hnew
  · rw [hsame]
    exact h p
  · exact Or.inr hnew

theorem filesFrom_of_eq (h : ∀ p, filetableGetChunkyfile ft' p = filetableGetChunkyfile ft p) :
    FilesFrom items ft ft' := fun p => Or.inl (h p)

theorem getChunkyfile_of_lookup {e : FileTableEntry} (he : ft.lookup p = some e) :
    filetableGetChunkyfile ft p = e.file := by
  unfold filetableGetChunkyfile
  rw [he]
  rfl

theorem getChunkyfile_filetableNew (p : CString) : filetableGetChunkyfile filetableNew p = none := by
  unfold filetableGetChunkyfile
  rw [lookup_filetableNew]
  rfl

theorem getChunkyfile_setChunkyfile {file : Option ChunkyFile} :
    filetableGetChunkyfile (filetableSetChunkyfile ft path file) p =
      if p = path ∧ (ft.lookup p).isSome then file else filetableGetChunkyfile ft p := by
  unfold filetableGetChunkyfile
  rw [lookup_filetableSetChunkyfile]
  cases ft.lookup p <;> split_ifs <;> simp_all

theorem getChunkyfile_removePeer :
    filetableGetChunkyfile (filetableRemovePeer ft peer) p = filetableGetChunkyfile ft p := by
  unfold filetableGetChunkyfile
  rw [lookup_filetableRemovePeer, Option.bind_map]
  rfl

theorem getChunkyfile_setPeerHasChunk {n : ℤ}
    (h : filetableSetThatPeerHasFileChunk ft path peer n = .ok ft') :
    filetableGetChunkyfile ft' p = filetableGetChunkyfile ft p := by
  obtain ⟨e, owners, he, -, -, rfl⟩ := filetableSetThatPeerHasFileChunk_ok h
  split_ifs
  · rfl
  · have hpath := path_of_lookup he
    unfold filetableGetChunkyfile
    rw [lookup_overwrite_of_lookup he (by exact hpath)]
    split_ifs with hp
    · rw [hp, he]
      rfl
    · rfl

theorem getChunkyfile_isUpdate {e : FileTableEntry} (h : IsUpdate ft ft' path e) :
    filetableGetChunkyfile ft' p = if p = path then e.file else filetableGetChunkyfile ft p := by
  unfold filetableGetChunkyfile
  rw [h p]
  split_ifs <;> rfl

theorem filesFrom_removeFilesystem : FilesFrom items ft (filetableRemoveFilesystem ft fs) := by
  intro p
  unfold filetableGetChunkyfile
  cases h : (filetableRemoveFilesystem ft fs).lookup p with
  | none => exact Or.inr (Or.inl rfl)
  | some e => exact Or.inl (by rw [lookup_of_filetableRemoveFilesystem h])

theorem getChunkyfile_removeFilesystem (h : ¬ ListsFile (filesystemIteratorRelative true fs) p) :
    filetableGetChunkyfile (filetableRemoveFilesystem ft fs) p = filetableGetChunkyfile ft p := by
  unfold filetableGetChunkyfile
  have hsame : (filetableRemoveFilesystem ft fs).lookup p = ft.lookup p :=
    Option.ext fun e => lookup_foldl_erase.trans (and_iff_left h)
  rw [hsame]

theorem getChunkyfile_addFilesystem :
    filetableGetChunkyfile (filetableAddFilesystem ft fs peer needsData rand).1 p =
      if ListsFile (filesystemIteratorRelative true fs) p then none
      else filetableGetChunkyfile ft p := by
  unfold filetableGetChunkyfile
  split_ifs with h
  · obtain ⟨e, he, item, -, workQueue, -, -, rfl, -⟩ := (lookup_foldl_addItem (ft, rand)).1 h
    show (((filesystemIteratorRelative true fs).foldl (addItem peer needsData) (ft, rand)).1.lookup
      p).bind _ = none
    rw [he]
    rfl
  · exact congrArg (Option.bind · FileTableEntry.file) ((lookup_foldl_addItem (ft, rand)).2 h)

theorem filesFrom_addFilesystem :
    FilesFrom items ft (filetableAddFilesystem ft fs peer needsData rand).1 := by
  intro p
  rw [getChunkyfile_addFilesystem]
  split_ifs
  · exact Or.inr (Or.inl rfl)
  · exact Or.inl rfl

theorem getChunkyfile_enqueueWork (h : filetableEnqueueWorkForFilesystem ft fs rand = .ok st) :
    filetableGetChunkyfile st.1 p = filetableGetChunkyfile ft p := by
  obtain ⟨hnone, hsome⟩ := foldlM_enqueueWorkForItem_ok h p
  unfold filetableGetChunkyfile
  cases hlook : ft.lookup p with
  | none => rw [hnone.mpr hlook]
  | some e =>
    obtain ⟨e', he', henq⟩ := hsome e hlook
    rw [he', Option.bind_some, Option.bind_some, henq.file]

theorem getChunkyfile_checkWorkQueue {sent : List ClientMessage}
    (h : checkWorkQueue c = .ok (c', sent)) :
    filetableGetChunkyfile c'.ft p = filetableGetChunkyfile c.ft p := by
  obtain ⟨requests, jobs, -, hwork, -⟩ := checkWorkQueue_ok h
  have hsome : (c'.ft.lookup p).isSome ↔ (c.ft.lookup p).isSome := lookup_isSome_checkWorkQueue h
  unfold filetableGetChunkyfile
  cases he' : c'.ft.lookup p with
  | none =>
    rw [he'] at hsome
    rw [Option.not_isSome_iff_eq_none.mp (mt hsome.mpr (by simp))]
  | some e' =>
    obtain ⟨e, taken, he, htaken, -⟩ := hwork.lookup p e' he'
    rw [he, Option.bind_some, Option.bind_some, htaken.file]

/-- A new file to be written is set for one of the items. -/
theorem FilesFrom.set (h : FilesFrom items ft ft1) (hitem : item ∈ items) :
    FilesFrom items ft (filetableSetChunkyfile ft1 item.path (some (writerOf item))) := by
  refine h.trans fun p => ?_
  rw [getChunkyfile_setChunkyfile]
  split_ifs with hp
  · exact Or.inr (Or.inr ⟨item, hitem, hp.1.symm, rfl⟩)
  · exact Or.inl rfl

end Files

namespace SharedFile

theorem CleanTable.filesFrom {fileFirst : Bool} (h : f.CleanTable ft) (hadd : f.Carries additions)
    (hfiles : FilesFrom (filesystemIteratorRelative fileFirst additions) ft ft') :
    f.CleanTable ft' := by
  intro p file hfile
  rcases hfiles p with hsame | hnone | ⟨item, hitem, hpath, hnew⟩
  · exact h p file (hsame ▸ hfile)
  · rw [hnone] at hfile
    cases hfile
  · rw [hnew] at hfile
    cases hfile
    subst hpath
    refine ⟨fun path hmem hresolve => ?_, fun hname => ?_⟩
    · cases hmem
      exact (hadd.atPath hitem hresolve).1
    · exact isCopy_writerOf hname (hadd.atPath hitem (by rw [hname, resolve_name])).2

theorem CleanTable.of_eq (h : f.CleanTable ft)
    (heq : ∀ p, filetableGetChunkyfile ft' p = filetableGetChunkyfile ft p) : f.CleanTable ft' :=
  fun p file hfile => h p file (heq p ▸ hfile)

/-! ## What a client has -/

/-- A request for the chunk would be answered with its bytes. -/
def Has (f : SharedFile) (c : Client) (k : ℕ) : Prop :=
  match filetableGetChunkyfile c.ft f.name with
  | some file => f.HoldsChunk file k
  | none => ∃ mtime, c.dir.lookup f.path = some (.file f.content mtime)

/-- Neither is the file there nor is it in transfer. -/
def Absent (f : SharedFile) (c : Client) : Prop :=
  filetableGetChunkyfile c.ft f.name = none ∧ c.dir.lookup f.path = none

/-- Where the client has something of the file, it is the file. -/
structure Clean (f : SharedFile) (c : Client) : Prop where
  disk : f.OnlyOn c.dir
  table : f.CleanTable c.ft
  complete : c.dir.lookup f.path ≠ none → ∀ k, f.Has c k
  curFs : f.Carries c.curFs

/-- The client stays clean, and keeps the chunks that it has and what is on disk. -/
structure Keeps (f : SharedFile) (c c' : Client) : Prop where
  clean : f.Clean c'
  has : ∀ k, f.Has c k → f.Has c' k
  disk : c.dir.lookup f.path ≠ none → c'.dir.lookup f.path ≠ none

theorem Has.congr (h : f.Has c k)
    (hfile : filetableGetChunkyfile c'.ft f.name = filetableGetChunkyfile c.ft f.name)
    (hdisk : c'.dir.lookup f.path = c.dir.lookup f.path) : f.Has c' k := by
  unfold Has
  rw [hfile, hdisk]
  exact h

theorem not_has_of_absent (h : f.Absent c) : ¬ f.Has c k := by
  unfold Has
  rw [h.1, h.2]
  rintro ⟨mtime, hmtime⟩
  cases hmtime

/-- Of a client that has the file on disk and nothing in transfer. -/
theorem has_of_lookup {mtime : Int64} (hfile : filetableGetChunkyfile c.ft f.name = none)
    (hdisk : c.dir.lookup f.path = some (.file f.content mtime)) : f.Has c k := by
  unfold Has
  rw [hfile]
  exact ⟨mtime, hdisk⟩

theorem has_of_some (hfile : filetableGetChunkyfile c.ft f.name = some file) :
    f.Has c k ↔ f.HoldsChunk file k := by
  unfold Has
  rw [hfile]

theorem clean_initial {now : UInt64} {rand : Rand} (h : f.OnlyOn dir) :
    f.Clean (.initial dir filetableNew now rand) := by
  refine ⟨h, fun p file hfile => ?_, fun hne k => ?_, h.carries⟩
  · cases (getChunkyfile_filetableNew p).symm.trans hfile
  · obtain ⟨node, hnode⟩ := Option.ne_none_iff_exists'.mp hne
    obtain ⟨mtime, rfl⟩ := h node hnode
    exact has_of_lookup (getChunkyfile_filetableNew _) hnode

/-- A client with the same files in transfer and the same at the path. -/
theorem Clean.same (h : f.Clean c) (hcur : f.Carries c'.curFs) (htable : f.CleanTable c'.ft)
    (hfile : filetableGetChunkyfile c'.ft f.name = filetableGetChunkyfile c.ft f.name)
    (hdisk : c'.dir.lookup f.path = c.dir.lookup f.path) : f.Keeps c c' where
  clean :=
    { disk := by
        unfold OnlyOn
        rw [hdisk]
        exact h.disk
      table := htable
      complete := fun hne k => (h.complete (by rwa [← hdisk]) k).congr hfile hdisk
      curFs := hcur }
  has k hk := hk.congr hfile hdisk
  disk hne := by rwa [hdisk]

/-- What a client may be sent. -/
def Genuine (f : SharedFile) (c : Client) : ClientEvent → Prop
  | .chunkRequest _ filepath chunkId _ => filepath = f.name → f.Has c chunkId.toNat
  | .chunk filepath chunkId data _ => filepath = f.name → ∀ text ∈ data, text = f.chunk chunkId.toNat
  | .diff additions _ _ => f.Carries additions
  | .master master => f.Carries master
  | _ => True

/-- What a client may send. -/
def Sound (f : SharedFile) (c : Client) : ClientMessage → Prop
  | .chunkGot path chunkNum => path = f.name → f.Has c chunkNum.toNat
  | .updatedFiles additions deletions => f.Carries additions ∧ deletions.Distinct ∧
      (ListsFile (filesystemIteratorRelative true additions) f.name → ∀ k, f.Has c k)
  | .chunk _ path chunkId data _ => path = f.name → data = f.chunk chunkId.toNat
  | .chunkRequest peer path chunk _ => path = f.name → c.ft.IsOwner f.name chunk.toNat peer
  | .chunkRejection _ _ _ _ => True

/-- The event does not touch the file: the user puts nothing but the file at its path and does not take
it away, no update that removes it arrives or is found, and one that adds it arrives only where it is
neither on disk nor in transfer; a master arrives when `cur_fs` lists it only if it is on disk. -/
def Undisturbed (f : SharedFile) (c : Client) : ClientEvent → Prop
  | .diff additions deletions _ => f.Avoids deletions ∧ (f.Avoids additions ∨ f.Absent c)
  | .master master => f.Avoids (filesystemDiff c.curFs master).2 ∧
      (f.Avoids (filesystemDiff c.curFs master).1 ∨ f.Absent c) ∧
      (c.dir.lookup f.path = none → f.Avoids c.curFs)
  | .checkLocal now => c.Settled now → f.Avoids c.localDiff.2
  | .edit dir => dir.lookup f.path = c.dir.lookup f.path ∨
      filetableGetChunkyfile c.ft f.name = none ∧
        ∃ mtime, dir.lookup f.path = some (.file f.content mtime)
  | _ => True

/-! ## Handlers -/

section Handlers

variable {sent : List ClientMessage} {peer n requestId : ℤ} {filepath : CString}

/-- A request is answered with the bytes of the chunk. -/
theorem keeps_receiveChunkRequest (h : f.Clean c)
    (hhas : filepath = f.name → f.Has c n.toNat)
    (hok : receiveChunkRequest c peer filepath n requestId = .ok (c', sent)) :
    f.Keeps c c' ∧ ∀ m ∈ sent, f.Sound c' m := by
  unfold receiveChunkRequest at hok
  cases hfile : filetableGetChunkyfile c.ft filepath with
  | some file =>
    rw [hfile] at hok
    obtain ⟨text, htext, hok⟩ := bind_eq_ok.mp hok
    cases hok
    refine ⟨⟨h, fun k hk => hk, id⟩, fun m hm => ?_⟩
    rw [List.mem_singleton.mp hm]
    rintro rfl
    exact ((h.table _ _ hfile).2 rfl).getChunk ((has_of_some hfile).mp (hhas rfl)) htext
  | none =>
    rw [hfile] at hok
    cases hread : openForReading c.dir filepath with
    | none =>
      rw [hread] at hok
      cases hok
      refine ⟨⟨h, fun k hk => hk, id⟩, fun m hm => ?_⟩
      rw [List.mem_singleton.mp hm]
      trivial
    | some file =>
      rw [hread] at hok
      obtain ⟨text, htext, hok⟩ := bind_eq_ok.mp hok
      cases hok
      obtain ⟨content, hreader, hlookup⟩ : ∃ content, file = chunkyfileNewForReadingFromPath content ∧
          (filepath = f.name → content = f.content) := by
        unfold openForReading at hread
        split at hread
        · rename_i content mtime hlookup
          refine ⟨content, (Option.some.inj hread).symm, ?_⟩
          rintro rfl
          rw [resolve_name] at hlookup
          obtain ⟨_, hnode⟩ := h.disk _ hlookup
          exact (Node.file.inj hnode).1
        · cases hread
      have hget : ∀ p, filetableGetChunkyfile (filetableSetChunkyfile c.ft filepath (some file)) p =
          if p = filepath ∧ (c.ft.lookup p).isSome then some file
          else filetableGetChunkyfile c.ft p := fun p => getChunkyfile_setChunkyfile
      have hpath : ∀ path ∈ file.path, False := by
        rw [hreader]
        exact nofun
      by_cases hname : filepath = f.name
      · subst hname
        obtain rfl := hlookup rfl
        have hcopy : f.IsCopy file := hreader ▸ isCopy_reader
        have hholds : ∀ k, f.HoldsChunk file k := by
          intro k i _
          rw [hreader, data_reader f.length_lt]
        have hall : ∀ k, f.Has { c with ft := filetableSetChunkyfile c.ft f.name (some file) } k := by
          intro k
          unfold Has
          rw [hget]
          split_ifs with hentry
          · exact hholds k
          · have hk := hhas rfl
            unfold Has at hk
            rw [hfile] at hk ⊢
            exact hk
        refine ⟨⟨⟨h.disk, fun p file' hfile' => ?_, fun _ k => hall k, h.curFs⟩, fun k _ => hall k, id⟩,
          fun m hm => ?_⟩
        · rw [hget] at hfile'
          split_ifs at hfile' with hentry
          · cases hfile'
            exact ⟨fun path hmem => (hpath path hmem).elim, fun _ => hcopy⟩
          · exact h.table p file' hfile'
        · rw [List.mem_singleton.mp hm]
          exact fun _ => hcopy.getChunk (hholds _) htext
      · refine ⟨h.same h.curFs (fun p file' hfile' => ?_) ?_ rfl, fun m hm => ?_⟩
        · rw [hget] at hfile'
          split_ifs at hfile' with hentry
          · cases hfile'
            exact ⟨fun path hmem => (hpath path hmem).elim,
              fun heq => absurd (hentry.1.symm.trans heq) hname⟩
          · exact h.table p file' hfile'
        · rw [hget, if_neg fun hentry => hname hentry.1.symm]
        · rw [List.mem_singleton.mp hm]
          exact fun heq => absurd heq hname

theorem path_setChunk {chunk : List UInt8} (h : chunkyfileSetChunk file n chunk = .ok file') :
    file'.path = file.path := by
  unfold chunkyfileSetChunk at h
  split_ifs at h
  cases h
  rfl

/-- The entry at a path gets another file, which is to be written where the old one was. -/
theorem CleanTable.isUpdate {e : FileTableEntry} (h : f.CleanTable ft)
    (hupdate : IsUpdate ft ft' filepath e) (hfile : filetableGetChunkyfile ft filepath = some file)
    (hpath : ∀ file' ∈ e.file, file'.path = file.path)
    (hcopy : filepath = f.name → ∀ file' ∈ e.file, f.IsCopy file') : f.CleanTable ft' := by
  intro p file' hfile'
  rw [getChunkyfile_isUpdate hupdate] at hfile'
  split_ifs at hfile' with hp
  · subst hp
    rw [hpath file' hfile']
    exact ⟨(h _ _ hfile).1, fun hname => hcopy hname file' hfile'⟩
  · exact h p file' hfile'

/-- What an update of an entry that keeps its file leaves. -/
theorem getChunkyfile_of_isUpdate {e e' : FileTableEntry} {p : CString} (he : ft.lookup filepath = some e)
    (hupdate : IsUpdate ft ft' filepath e') (hfile : e'.file = e.file) :
    filetableGetChunkyfile ft' p = filetableGetChunkyfile ft p := by
  rw [getChunkyfile_isUpdate hupdate]
  split_ifs with hp
  · rw [hp, hfile, getChunkyfile_of_lookup he]
  · rfl

/-- An answer is one for the chunk. -/
theorem keeps_receiveChunk {data : Option (List UInt8)} (h : f.Clean c)
    (hdata : filepath = f.name → ∀ text ∈ data, text = f.chunk n.toNat)
    (hok : receiveChunk c filepath n data requestId = .ok (c', sent)) :
    f.Keeps c c' ∧ ∀ m ∈ sent, f.Sound c' m := by
  obtain ⟨e, he, hreceived⟩ := receiveChunk_ok hok
  have hentry := getChunkyfile_of_lookup he
  cases hreceived with
  | ignored _ hupdate | rejected _ _ hupdate =>
    have hget : ∀ p, filetableGetChunkyfile _ p = filetableGetChunkyfile c.ft p := fun p =>
      getChunkyfile_of_isUpdate he hupdate rfl
    exact ⟨h.same h.curFs (h.table.of_eq hget) (hget _) rfl, nofun⟩
  | @completed ft file file' chunk dir _ hchunk hfile hset hall hwrite hupdate =>
    have hold := hentry.trans hfile
    have hget : filetableGetChunkyfile ft f.name =
        if f.name = filepath then none else filetableGetChunkyfile c.ft f.name :=
      getChunkyfile_isUpdate hupdate
    have htable : f.CleanTable ft := h.table.isUpdate hupdate hold nofun fun _ => nofun
    obtain ⟨path, hpath, hdir⟩ : ∃ path, file'.path = some path ∧
        c.dir.write (resolve path) (file'.data.take file'.size.toNat) file'.modifyTime = .ok dir := by
      unfold chunkyfileWrite at hwrite
      cases hpath : file'.path with
      | none =>
        rw [hpath] at hwrite
        cases hwrite
      | some path =>
        rw [hpath] at hwrite
        exact ⟨path, rfl, hwrite⟩
    have hmem : path ∈ file.path := by
      rw [← path_setChunk hset, hpath]
      rfl
    by_cases hname : filepath = f.name
    · subst hname
      obtain rfl := hdata rfl chunk hchunk
      have hcopy := (h.table _ _ hold).2 rfl
      have hcopy' := (hcopy.setChunk hset).1
      obtain rfl := hcopy.path path hmem
      have hcontent : file'.data.take file'.size.toNat = f.content := by
        rw [hcopy'.complete hall, hcopy'.size, Int.toNat_natCast, List.take_length]
      have hlookup : dir.lookup f.path = some (.file f.content file'.modifyTime) := by
        rw [Directory.lookup_write hdir, if_pos resolve_name.symm, hcontent]
      have honly : f.OnlyOn dir := by
        intro node hnode
        rw [hlookup] at hnode
        exact ⟨_, (Option.some.inj hnode).symm⟩
      rw [if_pos rfl] at hget
      refine ⟨⟨⟨honly, htable, fun _ k => has_of_lookup hget hlookup, honly.carries⟩,
        fun k _ => has_of_lookup hget hlookup, fun _ => by rw [hlookup]; nofun⟩, fun m hm => ?_⟩
      rw [List.mem_singleton.mp hm]
      exact fun _ => has_of_lookup hget hlookup
    · have hne : f.path ≠ resolve path := fun heq =>
        hname ((h.table _ _ hold).1 path hmem heq.symm)
      have hlookup : dir.lookup f.path = c.dir.lookup f.path := by
        rw [Directory.lookup_write hdir, if_neg hne]
      have honly : f.OnlyOn dir := by
        unfold OnlyOn
        rw [hlookup]
        exact h.disk
      rw [if_neg (Ne.symm hname)] at hget
      refine ⟨h.same honly.carries htable hget hlookup, fun m hm => ?_⟩
      rw [List.mem_singleton.mp hm]
      exact fun heq => absurd heq hname
  | @stored ft file file' chunk _ hchunk hfile hset _ hupdate =>
    have hold := hentry.trans hfile
    have hget : filetableGetChunkyfile ft f.name =
        if f.name = filepath then some file' else filetableGetChunkyfile c.ft f.name :=
      getChunkyfile_isUpdate hupdate
    have hpath : ∀ file1 ∈ some file', file1.path = file.path := by
      rintro _ ⟨⟩
      exact path_setChunk hset
    by_cases hname : filepath = f.name
    · subst hname
      obtain rfl := hdata rfl chunk hchunk
      obtain ⟨hcopy, hholds, hkeeps⟩ := ((h.table _ _ hold).2 rfl).setChunk hset
      rw [if_pos rfl] at hget
      have hhas : ∀ k, f.Has c k → f.Has { c with curFs := c.dir.filesystemNew, ft := ft } k :=
        fun k hk => (has_of_some hget).mpr (hkeeps k ((has_of_some hold).mp hk))
      refine ⟨⟨⟨h.disk, h.table.isUpdate hupdate hold hpath fun _ => ?_, fun hne k =>
        hhas k (h.complete hne k), h.disk.carries⟩, hhas, id⟩, fun m hm => ?_⟩
      · rintro _ ⟨⟩
        exact hcopy
      · rw [List.mem_singleton.mp hm]
        exact fun _ => (has_of_some hget).mpr hholds
    · rw [if_neg (Ne.symm hname)] at hget
      refine ⟨h.same h.disk.carries (h.table.isUpdate hupdate hold hpath fun heq =>
        absurd heq hname) hget rfl, fun m hm => ?_⟩
      rw [List.mem_singleton.mp hm]
      exact fun heq => absurd heq hname

theorem Avoids.entries (h : f.Avoids fs) (hdistinct : fs.Distinct) (hlegal : LegalPaths fs)
    {x : List CString × File} (hx : x ∈ fs.view.entries) : diskPath x ≠ f.path := by
  intro hdisk
  refine h _ ((mem_filesystemIterator hdistinct).mpr ⟨x.1, x.2, hx, rfl⟩) ?_
  exact (itemPath_eq (hlegal x hx)).trans hdisk

theorem Avoids.getChunkyfile_set {file : Option ChunkyFile} (h : f.Avoids additions)
    (hitem : item ∈ filesystemIteratorRelative false additions) :
    filetableGetChunkyfile (filetableSetChunkyfile ft item.path file) f.name =
      filetableGetChunkyfile ft f.name := by
  rw [getChunkyfile_setChunkyfile, if_neg]
  rintro ⟨hpath, -⟩
  exact h.order false item hitem (by rw [← hpath, resolve_name])

/-- A file without content is complete from the start. -/
theorem has_of_empty (htable : f.CleanTable c.ft) (hempty : f.content = []) {mtime : Int64}
    (hdisk : c.dir.lookup f.path = some (.file [] mtime)) : f.Has c k := by
  unfold Has
  cases hfile : filetableGetChunkyfile c.ft f.name with
  | none => exact ⟨mtime, by rw [hdisk, hempty]⟩
  | some file =>
    have hlength := ((htable _ _ hfile).2 rfl).length
    rw [hempty, List.length_nil] at hlength
    intro i _
    rw [List.eq_nil_of_length_eq_zero hlength, hempty]

/-- What `GetFileAdditions` puts at the path of the file. -/
theorem Carries.addedNode {x : List CString × File} {node : Node} (h : f.Carries additions)
    (hx : x ∈ additions.view.entries) (hdisk : diskPath x = f.path)
    (hnode : DartSync.addedNode x = some node) :
    f.content = [] ∧ ∃ mtime, node = .file [] mtime := by
  have hitem : itemOf (joinPath .empty x.1) x.2 ∈ filesystemIteratorRelative false additions :=
    (mem_filesystemIterator h.distinct).mpr ⟨x.1, x.2, hx, rfl⟩
  have hlength := (h.atPath hitem ((itemPath_eq (h.legal x hx)).trans hdisk)).2
  unfold DartSync.addedNode itemNode at hnode
  rw [hlength, if_neg (by omega)] at hnode
  split_ifs at hnode with hchunks
  refine ⟨?_, _, (Option.some.inj hnode).symm⟩
  by_contra hne
  have := numChunks_pos_iff.mpr hne
  omega

/-- An update that adds the file only where it is absent. -/
theorem keeps_receiveDiff (h : f.Clean c) (hadd : f.Carries additions) (hdel : f.Avoids deletions)
    (hfresh : f.Avoids additions ∨ f.Absent c)
    (hok : receiveDiff c additions deletions peer = .ok (c', sent)) :
    f.Keeps c c' ∧ ∀ m ∈ sent, f.Sound c' m := by
  obtain ⟨rand, hget, hc', rfl⟩ := receiveDiff_ok hok
  refine ⟨?_, nofun⟩
  have hcur : c'.curFs = c'.dir.filesystemNew := by rw [hc']
  have hfiles : FilesFrom (filesystemIteratorRelative false additions) c.ft c'.ft :=
    getFileAdditions_induct hget (filesFrom_removeFilesystem.trans filesFrom_addFilesystem)
      fun _ _ hitem _ hft => hft.set hitem
  have htable := h.table.filesFrom hadd hfiles
  have hremove : (removePaths c.dir deletions).lookup f.path = c.dir.lookup f.path :=
    lookup_removePaths_of_ne hdel
  have hput := putEntries_ok hadd.distinct hadd.legal (putEntries_of_getFileAdditions hget) f.path
  rw [hremove] at hput
  have hdisk : c'.dir.lookup f.path = c.dir.lookup f.path ∨ ¬ f.Avoids additions ∧
      f.content = [] ∧ ∃ mtime, c'.dir.lookup f.path = some (.file [] mtime) := by
    refine hput.imp_right ?_
    rintro ⟨x, hx, hpath, node, hnode, hlookup, -⟩
    obtain ⟨hempty, mtime, rfl⟩ := hadd.addedNode hx hpath hnode
    exact ⟨fun havoid => havoid.entries hadd.distinct hadd.legal hx hpath, hempty, mtime, hlookup⟩
  have honly : f.OnlyOn c'.dir := by
    intro node hnode
    rcases hdisk with hsame | ⟨-, hempty, mtime, hlookup⟩
    · rw [hsame] at hnode
      exact h.disk node hnode
    · rw [hlookup] at hnode
      exact ⟨mtime, by rw [← Option.some.inj hnode, hempty]⟩
  rcases hfresh with havoid | habsent
  · have hfile : filetableGetChunkyfile c'.ft f.name = filetableGetChunkyfile c.ft f.name := by
      refine getFileAdditions_induct
        (R := fun ft' => filetableGetChunkyfile ft' f.name = filetableGetChunkyfile c.ft f.name)
        hget ?_ fun ft1 item hitem _ hft => (havoid.getChunkyfile_set hitem).trans hft
      rw [getChunkyfile_addFilesystem, if_neg havoid.not_listsFile,
        getChunkyfile_removeFilesystem hdel.not_listsFile]
    exact h.same (hcur ▸ honly.carries) htable hfile (hdisk.resolve_right fun hnew => hnew.1 havoid)
  · refine ⟨⟨honly, htable, fun hne k => ?_, hcur ▸ honly.carries⟩,
      fun k hk => absurd hk (not_has_of_absent habsent), fun hne => absurd habsent.2 hne⟩
    rcases hdisk with hsame | ⟨-, hempty, mtime, hlookup⟩
    · exact absurd (hsame.trans habsent.2) hne
    · exact has_of_empty htable hempty hlookup

/-- A master that adds the file only where it is absent. -/
theorem keeps_updateLocalFilesystem {master : Folder} (h : f.Clean c) (hmaster : f.Carries master)
    (hdel : f.Avoids (filesystemDiff c.curFs master).2)
    (hfresh : f.Avoids (filesystemDiff c.curFs master).1 ∨ f.Absent c)
    (hannounced : c.dir.lookup f.path = none → f.Avoids c.curFs)
    (hok : updateLocalFilesystem c master = .ok (c', sent)) :
    f.Keeps c c' ∧ ∀ m ∈ sent, f.Sound c' m := by
  have hadd := h.curFs.diffAdditions hmaster
  obtain ⟨additions, deletions, hdiff⟩ :
      ∃ additions deletions, filesystemDiff c.curFs master = (additions, deletions) := ⟨_, _, rfl⟩
  rw [hdiff] at hadd hdel hfresh
  obtain ⟨rand, st, rfl, henqueue, hc', rfl⟩ := updateLocalFilesystem_ok hok hdiff
  have hcur : c'.curFs = master := by rw [hc']
  have hdir : c'.dir = makeFolders (removePaths c.dir deletions) additions := by
    rw [hc', prepareAdditions_fst]
  have hget : ∀ p, filetableGetChunkyfile c'.ft p = filetableGetChunkyfile (prepareAdditions
      (removePaths c.dir deletions) (filetableRemoveFilesystem c.ft deletions) additions).2 p :=
    fun p => getChunkyfile_enqueueWork henqueue
  have hfiles : FilesFrom (filesystemIteratorRelative false additions) c.ft c'.ft :=
    FilesFrom.trans (prepareAdditions_induct filesFrom_removeFilesystem
      fun _ _ hitem _ hft => hft.set hitem) (filesFrom_of_eq hget)
  have htable := h.table.filesFrom hadd hfiles
  have hdisk : c'.dir.lookup f.path = c.dir.lookup f.path := by
    rw [hdir, lookup_makeFolders_of_ne, lookup_removePaths_of_ne hdel]
    intro item hitem hfolder hpath
    have := (hadd.atPath hitem hpath).2
    omega
  have hkeeps : f.Keeps c c' := by
    rcases hfresh with havoid | habsent
    · refine h.same (hcur ▸ hmaster) htable ((hget _).trans ?_) hdisk
      refine prepareAdditions_induct
        (R := fun ft' => filetableGetChunkyfile ft' f.name = filetableGetChunkyfile c.ft f.name)
        (getChunkyfile_removeFilesystem hdel.not_listsFile) fun ft1 item hitem _ hft =>
          (havoid.getChunkyfile_set hitem).trans hft
    · refine ⟨⟨?_, htable, fun hne => absurd (hdisk.trans habsent.2) hne, hcur ▸ hmaster⟩,
        fun k hk => absurd hk (not_has_of_absent habsent), fun hne => absurd habsent.2 hne⟩
      unfold OnlyOn
      rw [hdisk]
      exact h.disk
  refine ⟨hkeeps, fun m hm => ?_⟩
  -- only what is on disk is announced
  obtain ⟨item, hitem, hm⟩ := List.mem_flatMap.mp hm
  split_ifs at hm
  · cases hm
  obtain ⟨n, -, rfl⟩ := List.mem_map.mp hm
  intro hname
  refine hkeeps.clean.complete (hdisk ▸ fun hnone => ?_) _
  have hpath : resolve item.path = f.path := by rw [hname, resolve_name]
  rw [adoptDeletions_eq] at hitem
  dsimp only at hitem
  split_ifs at hitem
  · have honly : f.OnlyOn (removePaths c.dir deletions) := by
      unfold OnlyOn
      rw [lookup_removePaths_of_ne hdel]
      exact h.disk
    obtain ⟨node, hnode⟩ := honly.lookup_of_listed hitem hpath
    rw [lookup_removePaths_of_ne hdel, hnone] at hnode
    cases hnode
  · exact (hannounced hnone).order false item hitem hpath

/-- What the check finds to be added is on disk. -/
theorem Clean.lookup_of_localDiff (h : f.Clean c)
    (hlists : ListsFile (filesystemIteratorRelative true c.localDiff.1) f.name) :
    ∃ mtime, c.dir.lookup f.path = some (.file f.content mtime) := by
  have hnew := h.disk.carries
  have hsub : (filesystemDiff c.curFs c.dir.filesystemNew).1.view.entries ⊆
      c.dir.filesystemNew.view.entries := by
    rw [(isDiff_additions h.curFs.distinct hnew.distinct).entries_eq]
    exact Set.sdiff_subset
  obtain ⟨item, hitem, -, hpath⟩ := hlists
  obtain ⟨q, e, he, rfl⟩ := (mem_filesystemIterator (h.curFs.diffAdditions hnew).distinct).mp hitem
  have hmem : itemOf (joinPath .empty q) e ∈ filesystemIteratorRelative true c.dir.filesystemNew :=
    (mem_filesystemIterator hnew.distinct).mpr ⟨q, e, hsub he, rfl⟩
  obtain ⟨node, hnode⟩ := h.disk.lookup_of_listed hmem (by rw [hpath, resolve_name])
  obtain ⟨mtime, rfl⟩ := h.disk node hnode
  exact ⟨mtime, hnode⟩

theorem keeps_checkLocalFilesystem {now : UInt64} (h : f.Clean c)
    (hdel : c.Settled now → f.Avoids c.localDiff.2) :
    f.Keeps c (checkLocalFilesystem c now).1 ∧
      ∀ m ∈ (checkLocalFilesystem c now).2, f.Sound (checkLocalFilesystem c now).1 m := by
  by_cases hsettled : c.Settled now
  · have hnew : f.Carries c.dir.filesystemNew := h.disk.carries
    have hadd : f.Carries c.localDiff.1 := h.curFs.diffAdditions hnew
    have hdel := hdel hsettled
    rw [checkLocalFilesystem_of_settled hsettled]
    split_ifs
    · dsimp only
      generalize hc' : Client.mk _ _ _ _ _ _ = c'
      have hft : c'.ft = (filetableAddFilesystem (filetableRemoveFilesystem c.ft c.localDiff.2)
          c.localDiff.1 myID false c.jobs.rand).1 := by rw [← hc']
      have hdir : c'.dir = c.dir := by rw [← hc']
      have hcur : f.Carries c'.curFs := by rw [← hc']; exact hnew
      have hfiles : FilesFrom (filesystemIteratorRelative true c.localDiff.1) c.ft c'.ft := by
        rw [hft]
        exact filesFrom_removeFilesystem.trans filesFrom_addFilesystem
      have htable := h.table.filesFrom hadd hfiles
      have hget : filetableGetChunkyfile c'.ft f.name =
          if ListsFile (filesystemIteratorRelative true c.localDiff.1) f.name then none
          else filetableGetChunkyfile c.ft f.name := by
        rw [hft, getChunkyfile_addFilesystem, getChunkyfile_removeFilesystem hdel.not_listsFile]
      have hlisted : ListsFile (filesystemIteratorRelative true c.localDiff.1) f.name →
          ∀ k, f.Has c' k := by
        intro hlists k
        rw [if_pos hlists] at hget
        obtain ⟨mtime, hlookup⟩ := h.lookup_of_localDiff hlists
        exact has_of_lookup hget (hdir ▸ hlookup)
      refine ⟨?_, fun m hm => ?_⟩
      · by_cases hlists : ListsFile (filesystemIteratorRelative true c.localDiff.1) f.name
        · exact ⟨⟨hdir ▸ h.disk, htable, fun _ => hlisted hlists, hcur⟩, fun k _ => hlisted hlists k,
            fun hne => hdir ▸ hne⟩
        · rw [if_neg hlists] at hget
          exact h.same hcur htable hget (by rw [hdir])
      · rw [List.mem_singleton.mp hm]
        exact ⟨hadd, (h.curFs.diffDeletions hnew).distinct, hlisted⟩
    · exact ⟨h.same h.curFs h.table rfl rfl, nofun⟩
  · obtain ⟨prevFs, prevTime, heq⟩ := checkLocalFilesystem_of_not_settled hsettled
    rw [heq]
    exact ⟨h.same h.curFs h.table rfl rfl, nofun⟩

/-- A request goes to an owner of the chunk. -/
theorem keeps_checkWorkQueue (h : f.Clean c) (hok : checkWorkQueue c = .ok (c', sent)) :
    f.Keeps c c' ∧ ∀ m ∈ sent, f.Sound c' m := by
  have hget : ∀ p, filetableGetChunkyfile c'.ft p = filetableGetChunkyfile c.ft p := fun p =>
    getChunkyfile_checkWorkQueue hok
  have howners : c'.ft.ownersAt f.name = c.ft.ownersAt f.name := ownersAt_checkWorkQueue hok
  obtain ⟨requests, jobs, hc', hwork, rfl, -⟩ := checkWorkQueue_ok hok
  have hdir : c'.dir = c.dir := by rw [hc']
  have hcur : c'.curFs = c.curFs := by rw [hc']
  refine ⟨h.same (hcur ▸ h.curFs) (h.table.of_eq hget) (hget _) (by rw [hdir]), fun m hm => ?_⟩
  obtain ⟨⟨p, job⟩, hjob, rfl⟩ := List.mem_map.mp hm
  rintro rfl
  obtain ⟨e, owners, he, -, hchunk, howner⟩ := hwork.owner _ _ hjob
  have hat : c.ft.ownersAt f.name = some e.chunks := by
    unfold FileTable.ownersAt
    rw [he, Option.map_some]
  have hisOwner : c.ft.IsOwner f.name job.chunk.toNat job.dest :=
    ⟨e.chunks, owners, hat, Int.natCast_nonneg _, hchunk, howner⟩
  exact hisOwner.congr howners.symm

end Handlers

/-- **A step of a client.** As long as the file is not disturbed and what arrives is genuine, a client
stays clean, keeps the chunks that it has, and what it sends is sound. -/
theorem clean_step {ev : ClientEvent} {sent : List ClientMessage} (h : f.Clean c)
    (hgenuine : f.Genuine c ev) (hundisturbed : f.Undisturbed c ev)
    (hok : c.step ev = .ok (c', sent)) : f.Keeps c c' ∧ ∀ m ∈ sent, f.Sound c' m := by
  cases ev with
  | peerAdded peerId =>
    cases hok
    exact ⟨⟨h, fun k hk => hk, id⟩, nofun⟩
  | peerDeleted peerId =>
    cases hok
    exact ⟨h.same h.curFs (h.table.of_eq fun _ => getChunkyfile_removePeer) getChunkyfile_removePeer
      rfl, nofun⟩
  | chunkRequest peerId filepath chunkId requestId => exact keeps_receiveChunkRequest h hgenuine hok
  | chunk filepath chunkId data requestId => exact keeps_receiveChunk h hgenuine hok
  | chunkGot peerId filepath chunkId =>
    obtain ⟨ft, hft, hok⟩ := bind_eq_ok.mp hok
    cases hok
    have hget : ∀ p, filetableGetChunkyfile ft p = filetableGetChunkyfile c.ft p := fun p =>
      getChunkyfile_setPeerHasChunk hft
    exact ⟨h.same h.curFs (h.table.of_eq hget) (hget _) rfl, nofun⟩
  | diff additions deletions peerId =>
    exact keeps_receiveDiff h hgenuine hundisturbed.1 hundisturbed.2 hok
  | master master =>
    exact keeps_updateLocalFilesystem h hgenuine hundisturbed.1 hundisturbed.2.1 hundisturbed.2.2 hok
  | workQueue => exact keeps_checkWorkQueue h hok
  | checkLocal now =>
    have heq : checkLocalFilesystem c now = (c', sent) := Except.ok.inj hok
    have hkeeps := keeps_checkLocalFilesystem h hundisturbed
    rwa [heq] at hkeeps
  | edit dir =>
    cases hok
    refine ⟨?_, nofun⟩
    rcases hundisturbed with hsame | ⟨hfile, mtime, hlookup⟩
    · exact h.same h.curFs h.table rfl hsame
    · have hhas : ∀ k, f.Has { c with dir := dir } k := fun k => has_of_lookup hfile hlookup
      refine ⟨⟨fun node hnode => ⟨mtime, ?_⟩, h.table, fun _ => hhas, h.curFs⟩, fun k _ => hhas k,
        fun _ => by rw [hlookup]; nofun⟩
      rw [hlookup] at hnode
      exact (Option.some.inj hnode).symm

end SharedFile

end DartSync
