import DartSync.Client.Adopt
import DartSync.Client.Disk
import DartSync.Client.Sizes
import DartSync.FileSystem.PathList
import DartSync.FileSystem.RemovePath

/-!
# The two paths of an addition

A client that joins gets its additions through `UpdateLocalFilesystem` and
`filetable_enqueue_work_for_filesystem`, later ones through `filetable_add_filesystem` and
`GetFileAdditions`. Both make the folders and give every file an unwritten `ChunkyFile` and its chunks
to request; only the second writes the files without chunks. `materialise_iff` says when the two
leave the same.
-/

namespace DartSync

open FileTable

variable {a : Folder} {c : Client} {dir dir' : Directory} {ft ft' : FileTable} {peer : ℤ} {rand : Rand}
  {x : List CString × File} {items : List IteratorItem} {item : IteratorItem}

/-- The directory and the table as both paths are to leave them. -/
structure Materialised (a : Folder) (dir : Directory) (ft : FileTable) : Prop where
  folder : ∀ x ∈ a.view.entries, x.2.isFolder ≠ 0 → dir.lookup (diskPath x) = some .dir
  empty : ∀ x ∈ a.view.entries, x.2.isFolder = 0 → x.2.size = 0 →
    dir.lookup (diskPath x) = some (.file [] x.2.lastModified)
  file : ∀ x ∈ a.view.entries, x.2.isFolder = 0 → x.2.size ≠ 0 →
    ∃ e, ft.lookup (entryPath x.1 x.2) = some e ∧
      e.file = some (chunkyfileNewForWritingToPath (entryPath x.1 x.2) x.2.size.toNat x.2.lastModified) ∧
      e.workQueue.Perm (chunkNumbers (numChunks x.2.size))

/-- An entry that has not been used. -/
def FileTableEntry.Unused (e : FileTableEntry) : Prop :=
  e.file = none ∧ e.workQueue = [] ∧ e.outstandingRequests = []

/-- Every folder of the additions can be made: no file is in its place, and its parent is a directory
or one of the additions. -/
def FoldersFit (a : Folder) (dir : Directory) : Prop :=
  ∀ x ∈ a.view.entries, x.2.isFolder ≠ 0 →
    (∀ content mtime, dir.lookup (diskPath x) ≠ some (.file content mtime)) ∧
    (dir.IsDir x.1 ∨ ∃ y ∈ a.view.entries, y.2.isFolder ≠ 0 ∧ diskPath y = x.1)

/-! ## The table -/

theorem lookup_foldl_setFile (hlen : item.length ≠ -1)
    (honly : ∀ i ∈ items, i.path = item.path → i = item) :
    (items.foldl setFile ft).lookup item.path = if item ∈ items
      then (ft.lookup item.path).map fun e => { e with file := some (writerOf item) }
      else ft.lookup item.path := by
  induction items generalizing ft with
  | nil => rw [if_neg List.not_mem_nil]; rfl
  | cons i items ih =>
    rw [List.foldl_cons, ih fun j hj => honly j (List.mem_cons_of_mem i hj)]
    by_cases hi : i = item
    · subst hi
      have hset : (setFile ft i).lookup i.path =
          (ft.lookup i.path).map fun e => { e with file := some (writerOf i) } := by
        unfold setFile
        rw [if_neg hlen, lookup_filetableSetChunkyfile, if_pos rfl]
      rw [hset, if_pos List.mem_cons_self, Option.map_map]
      exact ite_self _
    · have hset : (setFile ft i).lookup item.path = ft.lookup item.path := by
        unfold setFile
        split_ifs
        · rfl
        · rw [lookup_filetableSetChunkyfile, if_neg fun h => hi (honly i List.mem_cons_self h.symm)]
      rw [hset]
      exact if_congr (by rw [List.mem_cons, or_iff_right fun h => hi h.symm]) rfl rfl

section DiffTree

variable (ha : IsDiffTree a)

include ha

theorem eq_of_entryPath {y : List CString × File} (hx : x ∈ a.view.entries) (hy : y ∈ a.view.entries)
    (h : entryPath x.1 x.2 = entryPath y.1 y.2) : x = y := by
  have hname {z : List CString × File} (hz : z ∈ a.view.entries) :
      (∀ n ∈ z.1, IsName n) ∧ IsName z.2.name :=
    ⟨fun n hn => ha.legal z hz n (List.mem_append_left _ hn),
      ha.legal z hz _ (List.mem_append_right _ (List.mem_singleton_self _))⟩
  obtain ⟨hfolder, hnames⟩ := entryPath_inj (hname hx).1 (hname hx).2 (hname hy).1 (hname hy).2 h
  exact ha.unique x hx y hy (diskPath_inj.mpr ⟨hfolder, hnames⟩)

theorem item_unique (fileFirst : Bool) (hx : x ∈ a.view.entries) :
    itemOf (joinPath .empty x.1) x.2 ∈ filesystemIteratorRelative fileFirst a ∧
      ∀ i ∈ filesystemIteratorRelative fileFirst a,
        i.path = entryPath x.1 x.2 → i = itemOf (joinPath .empty x.1) x.2 := by
  refine ⟨(mem_filesystemIterator ha.distinct).mpr ⟨x.1, x.2, hx, rfl⟩, fun i hi hpath => ?_⟩
  obtain ⟨q, e, he, rfl⟩ := (mem_filesystemIterator ha.distinct).mp hi
  rw [eq_of_entryPath ha hx he hpath.symm]

theorem nodup_filesystemIterator (fileFirst : Bool) :
    (filesystemIteratorRelative fileFirst a).Nodup := by
  rw [filesystemIteratorRelative_eq]
  refine (nodup_entryList fileFirst ha.distinct).map_on fun x hx y hy h => ?_
  exact eq_of_entryPath ha ((mem_entryList fileFirst ha.distinct).mp hx)
    ((mem_entryList fileFirst ha.distinct).mp hy) (congrArg IteratorItem.path h)

/-- The loop over the additions gives every file of the table its writer. -/
theorem lookup_setFiles (hx : x ∈ a.view.entries) (hlen : (itemOf (joinPath .empty x.1) x.2).length ≠ -1) :
    ((filesystemIteratorRelative false a).foldl setFile ft).lookup (entryPath x.1 x.2) =
      (ft.lookup (entryPath x.1 x.2)).map
        fun e => { e with file := some (writerOf (itemOf (joinPath .empty x.1) x.2)) } := by
  obtain ⟨hmem, honly⟩ := item_unique ha false hx
  exact (lookup_foldl_setFile hlen honly).trans (if_pos hmem)

/-- The work queue of a file gets the chunks of the file. -/
theorem workQueue_enqueueWork {st : FileTable × Rand} {e e' : FileTableEntry}
    (h : filetableEnqueueWorkForFilesystem ft a rand = .ok st) (hx : x ∈ a.view.entries)
    (hlen : 0 ≤ (itemOf (joinPath .empty x.1) x.2).length) (he : ft.lookup (entryPath x.1 x.2) = some e)
    (he' : st.1.lookup (entryPath x.1 x.2) = some e') : e'.workQueue.Perm
      (e.workQueue ++ chunkNumbers (numChunksForSize (itemOf (joinPath .empty x.1) x.2).length)) := by
  obtain ⟨hmem, honly⟩ := item_unique ha true hx
  have hfilter : ((filesystemIteratorRelative true a).filter fun item =>
      0 ≤ item.length ∧ item.path = entryPath x.1 x.2).Perm [itemOf (joinPath .empty x.1) x.2] := by
    refine (List.perm_ext_iff_of_nodup ((nodup_filesystemIterator ha true).filter _)
      (List.nodup_singleton _)).mpr fun i => ?_
    rw [List.mem_filter, decide_eq_true_eq, List.mem_singleton]
    exact ⟨fun hi => honly i hi.1 hi.2.2, fun hi => hi ▸ ⟨hmem, hlen, rfl⟩⟩
  refine (workQueue_foldlM_enqueueWorkForItem h he he').trans (List.Perm.append_left _ ?_)
  refine (hfilter.flatMap_right _).trans ?_
  rw [List.flatMap_singleton]

end DiffTree

/-! ## Small files -/

/-- Every size is a positive `int`. -/
def IsSmall (a : Folder) : Prop := ∀ x ∈ a.view.entries, x.2.isFolder = 0 → x.2.size.toNat < 2 ^ 31

theorem length_of_small (hfile : x.2.isFolder = 0) (hsize : x.2.size.toNat < 2 ^ 31) :
    (itemOf (joinPath .empty x.1) x.2).length = x.2.size.toNat :=
  (if_neg (not_not.mpr hfile)).trans (intOfSize_eq hsize)

theorem numChunks_of_small (hfile : x.2.isFolder = 0) (hsize : x.2.size.toNat < 2 ^ 31) :
    numChunksForSize (itemOf (joinPath .empty x.1) x.2).length = numChunks x.2.size := by
  rw [length_of_small hfile hsize, numChunksForSize_natCast]
  rfl

theorem writerOf_of_small (hfile : x.2.isFolder = 0) (hsize : x.2.size.toNat < 2 ^ 31) :
    writerOf (itemOf (joinPath .empty x.1) x.2) =
      chunkyfileNewForWritingToPath (entryPath x.1 x.2) x.2.size.toNat x.2.lastModified := by
  unfold writerOf
  rw [length_of_small hfile hsize]
  exact congrArg _ (if_neg (not_not.mpr hfile))

theorem numChunks_eq_zero {size : UInt64} : numChunks size = 0 ↔ size = 0 := by
  unfold numChunks
  rw [← UInt64.toNat_inj, UInt64.toNat_zero]
  omega

theorem addedNode_of_empty (hfile : x.2.isFolder = 0) (hsize : x.2.size = 0) :
    addedNode x = some (.file [] x.2.lastModified) := by
  have hsmall : x.2.size.toNat < 2 ^ 31 := by rw [hsize]; decide
  unfold addedNode itemNode
  rw [numChunks_of_small hfile hsmall, numChunks_eq_zero.mpr hsize, length_of_small hfile hsmall,
    if_neg (by omega), if_pos (by omega)]
  exact congrArg _ (congrArg _ (if_neg (not_not.mpr hfile)))

theorem addedNode_of_nonempty (hfile : x.2.isFolder = 0) (hsmall : x.2.size.toNat < 2 ^ 31)
    (hsize : x.2.size ≠ 0) : addedNode x = none := by
  have hchunks := mt numChunks_eq_zero.mp hsize
  unfold addedNode itemNode
  rw [numChunks_of_small hfile hsmall, length_of_small hfile hsmall, if_neg (by omega), if_neg (by omega)]

theorem folderNode_of_small (hfile : x.2.isFolder = 0) (hsmall : x.2.size.toNat < 2 ^ 31) :
    folderNode x = none := by
  unfold folderNode
  rw [length_of_small hfile hsmall, if_neg (by omega)]

/-! ## The two paths -/

theorem FoldersFit.fitsOn (h : FoldersFit a dir) (hx : x ∈ a.view.entries) (hfolder : x.2.isFolder ≠ 0) :
    Node.dir.FitsOn (dir.lookup (diskPath x)) := by
  intro n hn
  cases n with
  | dir => exact Iff.rfl
  | file content mtime => exact absurd hn ((h x hx hfolder).1 content mtime)

/-- What the files of a table of fresh or new entries look like once they have their writers. -/
theorem file_of_writer {e : FileTableEntry} (ha : IsDiffTree a) (hsmall : IsSmall a)
    (hx : x ∈ a.view.entries) (hfile : x.2.isFolder = 0) (he : ft.lookup (entryPath x.1 x.2) = some e) :
    ((filesystemIteratorRelative false a).foldl setFile ft).lookup (entryPath x.1 x.2) = some { e with
      file := some (chunkyfileNewForWritingToPath (entryPath x.1 x.2) x.2.size.toNat x.2.lastModified) } := by
  have hlen := length_of_small hfile (hsmall x hx hfile)
  rw [lookup_setFiles ha hx (by omega), he, writerOf_of_small hfile (hsmall x hx hfile)]
  rfl

/-- The path of a client that joins. -/
theorem materialised_adoptAdditions {c' : Client} (ha : IsDiffTree a) (hsmall : IsSmall a)
    (hunused : ∀ x ∈ a.view.entries, x.2.isFolder = 0 →
      ∃ e, c.ft.lookup (entryPath x.1 x.2) = some e ∧ e.Unused)
    (hempty : ∀ x ∈ a.view.entries, x.2.isFolder = 0 → x.2.size = 0 →
      c.dir.lookup (diskPath x) = some (.file [] x.2.lastModified))
    (hfolder : FoldersFit a c.dir) (h : adoptAdditions c a = .ok c') : Materialised a c'.dir c'.ft := by
  obtain ⟨rand, henqueue, hc'⟩ := adoptAdditions_ok h
  have hdir : c'.dir = makeFolders c.dir a := (congrArg Client.dir hc').trans prepareAdditions_fst
  rw [prepareAdditions_snd] at henqueue
  constructor
  · intro x hx hxf
    rw [hdir]
    exact lookup_makeFolders_self ha.distinct ha.legal (fun y hy hyf => hfolder.fitsOn hy hyf)
      (fun y hy hyf => (hfolder y hy hyf).2) hx hxf
  · intro x hx hfile hsize
    rw [hdir, ← hempty x hx hfile hsize]
    refine (putEntries_ok ha.distinct ha.legal putEntries_folderNode _).resolve_right ?_
    rintro ⟨y, hy, hpath, node, hnode, -⟩
    rw [ha.unique y hy x hx hpath, folderNode_of_small hfile (hsmall x hx hfile)] at hnode
    cases hnode
  · intro x hx hfile _
    obtain ⟨e, he, -, hqueue, -⟩ := hunused x hx hfile
    have hwriter := file_of_writer ha hsmall hx hfile he
    obtain ⟨e', he', hsame⟩ := (foldlM_enqueueWorkForItem_ok henqueue _).2 _ hwriter
    have hlen := length_of_small hfile (hsmall x hx hfile)
    have hwork := workQueue_enqueueWork ha henqueue hx (by omega) hwriter he'
    rw [numChunks_of_small hfile (hsmall x hx hfile), hqueue, List.nil_append] at hwork
    exact ⟨e', he', hsame.file, hwork⟩

/-- The path of a client that has joined; this one writes the empty files. -/
theorem exists_getFileAdditions (ha : IsDiffTree a) (hsmall : IsSmall a)
    (hempty : ∀ x ∈ a.view.entries, x.2.isFolder = 0 → x.2.size = 0 →
      dir.lookup (diskPath x) ≠ some .dir ∧
        (dir.IsDir x.1 ∨ ∃ y ∈ a.view.entries, y.2.isFolder ≠ 0 ∧ diskPath y = x.1))
    (hfolder : FoldersFit a dir) (ft : FileTable) (peer : ℤ) (rand : Rand) :
    ∃ dir' ft', getFileAdditions dir (filetableAddFilesystem ft a peer true rand).1 a = .ok (dir', ft') ∧
      Materialised a dir' ft' := by
  have hkind : ∀ x ∈ a.view.entries, ∀ node, addedNode x = some node →
      node.FitsOn (dir.lookup (diskPath x)) ∧
        (dir.IsDir x.1 ∨ ∃ y ∈ a.view.entries, y.2.isFolder ≠ 0 ∧ diskPath y = x.1) := by
    intro x hx node hnode
    by_cases hfile : x.2.isFolder = 0
    · by_cases hsize : x.2.size = 0
      · rw [addedNode_of_empty hfile hsize] at hnode
        cases hnode
        obtain ⟨hfree, hparent⟩ := hempty x hx hfile hsize
        refine ⟨fun n hn => iff_of_false ?_ nofun, hparent⟩
        rintro rfl
        exact hfree hn
      · rw [addedNode_of_nonempty hfile (hsmall x hx hfile) hsize] at hnode
        cases hnode
    · rw [addedNode_of_isFolder hfile] at hnode
      cases hnode
      exact ⟨hfolder.fitsOn hx hfile, (hfolder x hx hfile).2⟩
  have hloop : ∃ dir', putEntries addedNode dir a = .ok dir' ∧ ∀ x ∈ a.view.entries, True →
      ∀ node, addedNode x = some node → dir'.lookup (diskPath x) = some node := by
    refine exists_putEntries ha.distinct ha.legal (fun _ _ hbad => absurd trivial hbad)
      (fun x hx y hy hpath node node' hnode hnode' => ?_) (fun x hx _ node hnode => (hkind x hx node hnode).1)
      fun x hx _ hmake => ?_
    · rw [ha.unique x hx y hy hpath, hnode'] at hnode
      exact (Option.some.inj hnode).symm
    · obtain ⟨node, hnode⟩ := Option.ne_none_iff_exists'.mp hmake
      exact (hkind x hx node hnode).2.imp id fun ⟨y, hy, hyf, hpath⟩ =>
        ⟨y, hy, trivial, hyf, addedNode_of_isFolder hyf, hpath⟩
  obtain ⟨dir', hok, hput⟩ := hloop
  refine ⟨dir', _, by rw [getFileAdditions_eq, hok]; rfl, ?_, ?_, ?_⟩
  · exact fun x hx hxf => hput x hx trivial _ (addedNode_of_isFolder hxf)
  · exact fun x hx hfile hsize => hput x hx trivial _ (addedNode_of_empty hfile hsize)
  · intro x hx hfile _
    have hlen := length_of_small hfile (hsmall x hx hfile)
    have hpath : IsFilePath a.view.entries (entryPath x.1 x.2) :=
      ⟨x.1, x.2, hx, length_itemOf.mp (by rw [hlen]; omega), rfl⟩
    obtain ⟨e, he, item, hitem, workQueue, -, hitempath, hnew, hperm⟩ :=
      lookup_filetableAddFilesystem_of_isFilePath ha.distinct hpath
    rw [(item_unique ha true hx).2 item hitem hitempath,
      numChunks_of_small hfile (hsmall x hx hfile)] at hperm
    refine ⟨_, file_of_writer ha hsmall hx hfile he, rfl, ?_⟩
    rw [hnew]
    exact hperm

/-- What a joining client cannot do without. -/
theorem fits_of_materialised {c' : Client} (ha : IsDiffTree a)
    (hunused : ∀ x ∈ a.view.entries, x.2.isFolder = 0 →
      ∃ e, c.ft.lookup (entryPath x.1 x.2) = some e ∧ e.Unused)
    (h : adoptAdditions c a = .ok c') (hm : Materialised a c'.dir c'.ft) :
    IsSmall a ∧ (∀ x ∈ a.view.entries, x.2.isFolder = 0 → x.2.size = 0 →
      c.dir.lookup (diskPath x) = some (.file [] x.2.lastModified)) ∧ FoldersFit a c.dir := by
  obtain ⟨rand, henqueue, hc'⟩ := adoptAdditions_ok h
  have hdir : c'.dir = makeFolders c.dir a := (congrArg Client.dir hc').trans prepareAdditions_fst
  have hput : putEntries folderNode c.dir a = .ok c'.dir := hdir ▸ putEntries_folderNode
  have hmade := putEntries_ok ha.distinct ha.legal hput
  have hsmall : IsSmall a := by
    intro x hx hfile
    by_cases hsize : x.2.size = 0
    · rw [hsize]
      decide
    · obtain ⟨e', he', hwriter, -⟩ := hm.file x hx hfile hsize
      obtain ⟨e1, he1, hsame⟩ := lookup_filetableEnqueueWorkForFilesystem henqueue he'
      obtain ⟨e, he, rfl | ⟨item, hitem, -, hpath, rfl⟩⟩ := filesSet_prepareAdditions _ e1 he1
      · obtain ⟨e0, he0, hnone, -⟩ := hunused x hx hfile
        rw [hsame.file, ← Option.some.inj (he0.symm.trans he), hnone] at hwriter
        cases hwriter
      · -- the writer has the size that the iterator reports
        rw [(item_unique ha false hx).2 item hitem hpath] at hsame
        have hreported := congrArg (Option.map ChunkyFile.size) (hsame.file.symm.trans hwriter)
        have hlength : (itemOf (joinPath .empty x.1) x.2).length = x.2.size.toNat := Option.some.inj hreported
        have hint : (itemOf (joinPath .empty x.1) x.2).length = intOfSize x.2.size :=
          if_neg (not_not.mpr hfile)
        have hlt := intOfSize_lt x.2.size
        rw [← hint, hlength] at hlt
        omega
  refine ⟨hsmall, fun x hx hfile hsize => ?_, fun x hx hxf => ⟨fun content mtime hthere => ?_, ?_⟩⟩
  · have hwritten := hm.empty x hx hfile hsize
    rcases hmade (diskPath x) with hsame | ⟨y, hy, hpath, node, hnode, hlook, -⟩
    · exact hsame.symm.trans hwritten
    · rw [hlook, folderNode_eq_dir hnode] at hwritten
      cases hwritten
  · have hthere' := hm.folder x hx hxf
    rcases hmade (diskPath x) with hsame | ⟨y, hy, hpath, node, hnode, hlook, hfit⟩
    · rw [hsame, hthere] at hthere'
      cases hthere'
    · rw [folderNode_eq_dir hnode] at hfit
      exact nomatch (hfit _ hthere).mpr rfl
  · rcases Directory.isDir_of_lookup (hm.folder x hx hxf) with hroot | hparent
    · exact Or.inl (Or.inl hroot)
    · rcases hmade x.1 with hsame | ⟨y, hy, hpath, node, hnode, -⟩
      · exact Or.inl (Or.inr (hsame.symm.trans hparent))
      · refine Or.inr ⟨y, hy, fun hfile => ?_, hpath⟩
        rw [folderNode_of_small hfile (hsmall y hy hfile)] at hnode
        cases hnode

/-- Whatever either path puts is listed, and there the two agree. -/
theorem lookup_eq_of_materialised {c' : Client} (ha : IsDiffTree a) (hsmall : IsSmall a)
    (hadopt : adoptAdditions c a = .ok c') (hm : Materialised a c'.dir c'.ft)
    (hget : getFileAdditions c.dir ft a = .ok (dir', ft')) (hm' : Materialised a dir' ft')
    (p : List CString) : c'.dir.lookup p = dir'.lookup p := by
  obtain ⟨rand, -, hc'⟩ := adoptAdditions_ok hadopt
  have hdir : c'.dir = makeFolders c.dir a := (congrArg Client.dir hc').trans prepareAdditions_fst
  rcases putEntries_ok ha.distinct ha.legal (putEntries_of_getFileAdditions hget) p with
    hkept | ⟨x, hx, rfl, node, hnode, -⟩
  · rcases putEntries_ok ha.distinct ha.legal putEntries_folderNode p with
      hkept' | ⟨x, hx, rfl, node, hnode, -⟩
    · rw [hkept, hdir, hkept']
    · have hxf : x.2.isFolder ≠ 0 := fun hfile => by
        rw [folderNode_of_small hfile (hsmall x hx hfile)] at hnode
        cases hnode
      rw [hm.folder x hx hxf, hm'.folder x hx hxf]
  · by_cases hfile : x.2.isFolder = 0
    · have hsize : x.2.size = 0 := by
        by_contra hsize
        rw [addedNode_of_nonempty hfile (hsmall x hx hfile) hsize] at hnode
        cases hnode
      rw [hm.empty x hx hfile hsize, hm'.empty x hx hfile hsize]
    · rw [hm.folder x hx hfile, hm'.folder x hx hfile]

/-- The table of a tracker has an unused entry for every file. -/
theorem unused_filetableAddFilesystem (ha : IsDiffTree a) (hsmall : IsSmall a) (hx : x ∈ a.view.entries)
    (hfile : x.2.isFolder = 0) : ∃ e, (filetableAddFilesystem ft a peer false rand).1.lookup
      (entryPath x.1 x.2) = some e ∧ e.Unused := by
  have hlen := length_of_small hfile (hsmall x hx hfile)
  have hpath : IsFilePath a.view.entries (entryPath x.1 x.2) :=
    ⟨x.1, x.2, hx, length_itemOf.mp (by rw [hlen]; omega), rfl⟩
  obtain ⟨e, he, item, -, workQueue, -, -, rfl, hperm⟩ :=
    lookup_filetableAddFilesystem_of_isFilePath ha.distinct hpath
  exact ⟨_, he, rfl, hperm.eq_nil, rfl⟩

/-- **Additions.** The two paths leave the folders, the empty files, the writers and the work queues of
the additions alike, and the same directory, exactly when every size is a positive `int`, every empty
file is on disk already and every folder can be made. -/
theorem materialise_iff (a : Folder) (c : Client) (ft : FileTable) (peer : ℤ) (rand : Rand)
    (ha : IsDiffTree a)
    (hunused : ∀ x ∈ a.view.entries, x.2.isFolder = 0 →
      ∃ e, c.ft.lookup (entryPath x.1 x.2) = some e ∧ e.Unused) :
    (∃ c' dir' ft', adoptAdditions c a = .ok c' ∧ Materialised a c'.dir c'.ft ∧
        getFileAdditions c.dir (filetableAddFilesystem ft a peer true rand).1 a = .ok (dir', ft') ∧
        Materialised a dir' ft' ∧ ∀ p, c'.dir.lookup p = dir'.lookup p) ↔
      IsSmall a ∧ (∀ x ∈ a.view.entries, x.2.isFolder = 0 → x.2.size = 0 →
        c.dir.lookup (diskPath x) = some (.file [] x.2.lastModified)) ∧ FoldersFit a c.dir := by
  constructor
  · rintro ⟨c', dir', ft', hadopt, hm, -⟩
    exact fits_of_materialised ha hunused hadopt hm
  · rintro ⟨hsmall, hempty, hfolder⟩
    obtain ⟨c', hadopt⟩ : ∃ c', adoptAdditions c a = .ok c' := by
      refine (adoptAdditions_isOk ha.distinct).mpr ?_
      rintro p ⟨q, e, he, hplain, rfl⟩
      obtain ⟨entry, hentry, -⟩ := hunused (q, e) he hplain.1
      exact Option.isSome_iff_exists.mpr ⟨entry, hentry⟩
    have hm := materialised_adoptAdditions ha hsmall hunused hempty hfolder hadopt
    have hroom : ∀ x ∈ a.view.entries, x.2.isFolder = 0 → x.2.size = 0 →
        c.dir.lookup (diskPath x) ≠ some .dir ∧
          (c.dir.IsDir x.1 ∨ ∃ y ∈ a.view.entries, y.2.isFolder ≠ 0 ∧ diskPath y = x.1) := by
      intro x hx hfile hsize
      have hthere := hempty x hx hfile hsize
      exact ⟨by rw [hthere]; nofun, Or.inl (Directory.isDir_of_lookup hthere)⟩
    obtain ⟨dir', ft', hget, hm'⟩ := exists_getFileAdditions ha hsmall hroom hfolder ft peer rand
    exact ⟨c', dir', ft', hadopt, hm, hget, hm', lookup_eq_of_materialised ha hsmall hadopt hm hget hm'⟩

namespace MaterialiseExample

/-- A file `a`, and a folder `d` with a file `y`. -/
def nested : Folder :=
  ⟨.empty, [⟨.ofBytes [97], 1, 2, 0⟩, marker (.ofBytes [100])],
    [⟨.ofBytes [100], [⟨.ofBytes [121], 3, 4, 0⟩], []⟩]⟩

/-- One empty file `y`. -/
def emptyFile : Folder := ⟨.empty, [⟨.ofBytes [121], 0, 2, 0⟩], []⟩

/-- A client with an empty directory, and the table that a tracker has for the tree. -/
def joining (fs : Folder) : Client :=
  .initial .empty (filetableAddFilesystem filetableNew fs 1 false fun _ => 0).1 0 fun _ => 0

theorem isSmall_of_test {fs : Folder} (hfs : fs.Distinct)
    (h : ∀ x ∈ entryList false fs, x.2.isFolder = 0 → x.2.size.toNat < 2 ^ 31) : IsSmall fs :=
  fun x hx => h x ((mem_entryList false hfs).mpr hx)

theorem unused_joining {fs : Folder} (hfs : IsDiffTree fs) (hsmall : IsSmall fs) :
    ∀ x ∈ fs.view.entries, x.2.isFolder = 0 →
      ∃ e, (joining fs).ft.lookup (entryPath x.1 x.2) = some e ∧ e.Unused :=
  fun _ hx hfile => unused_filetableAddFilesystem hfs hsmall hx hfile

theorem isDiffTree_nested : IsDiffTree nested :=
  Folder.WellFormed.isDiffTree (by decide) (legalPaths_of_named (by decide))

theorem isDiffTree_emptyFile : IsDiffTree emptyFile :=
  Folder.WellFormed.isDiffTree (by decide) (legalPaths_of_named (by decide))

end MaterialiseExample

open MaterialiseExample

theorem materialise_iff_nested :
    (∃ c' dir' ft', adoptAdditions (joining nested) nested = .ok c' ∧ Materialised nested c'.dir c'.ft ∧
        getFileAdditions .empty (filetableAddFilesystem filetableNew nested 2 true fun _ => 0).1 nested =
          .ok (dir', ft') ∧
        Materialised nested dir' ft' ∧ ∀ p, c'.dir.lookup p = dir'.lookup p) ↔
      IsSmall nested ∧ (∀ x ∈ nested.view.entries, x.2.isFolder = 0 → x.2.size = 0 →
        Directory.empty.lookup (diskPath x) = some (.file [] x.2.lastModified)) ∧
        FoldersFit nested .empty :=
  materialise_iff nested (joining nested) filetableNew 2 (fun _ => 0) isDiffTree_nested
    (unused_joining isDiffTree_nested (isSmall_of_test isDiffTree_nested.distinct (by decide)))

/-- A joining client never writes the empty file, and one that has joined does. -/
theorem not_materialised_emptyFile :
    IsDiffTree emptyFile ∧
    (∀ x ∈ emptyFile.view.entries, x.2.isFolder = 0 →
      ∃ e, (joining emptyFile).ft.lookup (entryPath x.1 x.2) = some e ∧ e.Unused) ∧
    (¬ ∃ c' dir' ft', adoptAdditions (joining emptyFile) emptyFile = .ok c' ∧
      Materialised emptyFile c'.dir c'.ft ∧
      getFileAdditions .empty (filetableAddFilesystem filetableNew emptyFile 2 true fun _ => 0).1
        emptyFile = .ok (dir', ft') ∧
      Materialised emptyFile dir' ft' ∧ ∀ p, c'.dir.lookup p = dir'.lookup p) ∧
    ∃ dir' ft', getFileAdditions .empty (filetableAddFilesystem filetableNew emptyFile 2 true
        fun _ => 0).1 emptyFile = .ok (dir', ft') ∧ Materialised emptyFile dir' ft' := by
  have hsmall : IsSmall emptyFile := isSmall_of_test isDiffTree_emptyFile.distinct (by decide)
  have hunused := unused_joining isDiffTree_emptyFile hsmall
  have hlisted : ∀ x ∈ emptyFile.view.entries, x = ([], ⟨.ofBytes [121], 0, 2, 0⟩) := fun x hx => by
    have hx' := (mem_entryList false isDiffTree_emptyFile.distinct).mpr hx
    exact List.mem_singleton.mp hx'
  refine ⟨isDiffTree_emptyFile, hunused, ?_, ?_⟩
  · rintro ⟨c', dir', ft', hadopt, hm, -⟩
    obtain ⟨-, hempty, -⟩ := fits_of_materialised isDiffTree_emptyFile hunused hadopt hm
    exact absurd (hempty ([], ⟨.ofBytes [121], 0, 2, 0⟩) ⟨emptyFile, rfl, List.mem_singleton_self _⟩
      rfl rfl) (by decide)
  · refine exists_getFileAdditions isDiffTree_emptyFile hsmall (fun x hx _ _ => ?_)
      (fun x hx hxf => ?_) _ _ _
    · rw [hlisted x hx]
      exact ⟨by decide, Or.inl (Or.inl rfl)⟩
    · rw [hlisted x hx] at hxf
      exact absurd rfl hxf

end DartSync
