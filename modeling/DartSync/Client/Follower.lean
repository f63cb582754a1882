import DartSync.Client.ApplyDiff
import DartSync.Client.Materialise
import DartSync.Client.Shared

/-!
# A client that only follows

A client whose user changes nothing adopts a master and handles the updates that come after it. Its
directory then is the tree of the last update apart from the files that are in transfer (`Shows`): the
adoption of a master brings this about, a chunk, a request and a poll keep it, and the next update is
handled without a failed assertion and takes it to the next tree.
-/

namespace DartSync

open Directory FileTable

variable {c c' : Client} {dir dir' : Directory} {ft ft' : FileTable} {a fs old new tree : Folder}
  {path : CString} {p q : List CString} {n : CString} {node : Node} {x y : List CString × File}
  {file file' : ChunkyFile} {sent : List ClientMessage}

/-! ## Trees -/

/-- A tree as a snapshot makes it, all of whose files are below 2 GiB. -/
structure IsVersion (fs : Folder) : Prop where
  tidy : IsTidy fs
  visible : VisiblePaths fs
  small : IsSmall fs

theorem isVersion_filesystemNew (h : IsSmall dir.filesystemNew) : IsVersion dir.filesystemNew :=
  ⟨isTidy_filesystemNew dir, visiblePaths_filesystemNew dir, h⟩

theorem isVersion_emptyFilesystem : IsVersion emptyFilesystem where
  tidy := ⟨wellFormed_emptyFilesystem, fun x hx => absurd hx (Folder.not_mem_entries_of_isEmpty rfl x)⟩
  visible x hx := absurd hx (Folder.not_mem_entries_of_isEmpty rfl x)
  small x hx := absurd hx (Folder.not_mem_entries_of_isEmpty rfl x)

theorem IsVersion.of_view (h : IsVersion tree) (hfs : fs.WellFormed) (hview : fs.view = tree.view) :
    IsVersion fs where
  tidy := ⟨hfs, by unfold LegalPaths; rw [hview]; exact h.tidy.legal⟩
  visible := by unfold VisiblePaths; rw [hview]; exact h.visible
  small := by unfold IsSmall; rw [hview]; exact h.small

theorem IsVersion.isDiffTree (h : IsVersion tree) : IsDiffTree tree :=
  h.tidy.wellFormed.isDiffTree h.tidy.legal

theorem IsVersion.isMaster (h : IsVersion tree) : IsMaster tree where
  tidy := h.tidy
  visible := h.visible
  plain x hx hfile := by
    refine ⟨hfile, ?_⟩
    rw [intOfSize_eq (h.small x hx hfile)]
    exact Int.natCast_nonneg _

/-- A folder of the tree is its marker. -/
theorem IsVersion.eq_marker (h : IsVersion tree) (hx : x ∈ tree.view.entries) (hfolder : x.2.isFolder ≠ 0) :
    x = (x.1, marker x.2.name) :=
  Prod.ext rfl (h.tidy.wellFormed.view.mark_of_dir x.1 x.2 hx hfolder)

/-! ## Files to be written -/

/-- The file that is to be written for the path. A file that has been opened for reading has no path. -/
def writerAt (ft : FileTable) (p : CString) : Option ChunkyFile :=
  (filetableGetChunkyfile ft p).filter fun file => file.path.isSome

/-- Chunks of the file of the entry have yet to come. -/
def InTransfer (ft : FileTable) (x : List CString × File) : Prop :=
  ∃ file ∈ writerAt ft (entryPath x.1 x.2), ¬ chunkyfileAllChunksWritten file = true

instance (ft : FileTable) : DecidablePred (InTransfer ft) := fun x =>
  inferInstanceAs (Decidable (∃ file ∈ writerAt ft (entryPath x.1 x.2),
    ¬ chunkyfileAllChunksWritten file = true))

/-- When it is complete the file will be the entry. -/
structure IsWriter (x : List CString × File) (file : ChunkyFile) : Prop where
  path : file.path = some (entryPath x.1 x.2)
  size : file.size = x.2.size.toNat
  length : file.data.length = x.2.size.toNat
  time : file.modifyTime = x.2.lastModified

/-- The file of an addition before a chunk has come. -/
def newWriter (x : List CString × File) : ChunkyFile :=
  chunkyfileNewForWritingToPath (entryPath x.1 x.2) x.2.size.toNat x.2.lastModified

theorem isWriter_newWriter : IsWriter x (newWriter x) where
  path := rfl
  size := rfl
  length := by simp [newWriter, chunkyfileNewForWritingToPath]
  time := rfl

theorem allChunksWritten_newWriter :
    chunkyfileAllChunksWritten (newWriter x) = true ↔ x.2.size = 0 := by
  have hchunks : chunkyfileNumChunks (newWriter x) = numChunks x.2.size := by
    unfold chunkyfileNumChunks numChunks
    exact numChunksForSize_natCast _
  have hwritten (i : ℕ) : (newWriter x).chunksWritten.getD i false = false := by
    unfold newWriter chunkyfileNewForWritingToPath
    rw [List.getD_eq_getElem?_getD, List.getElem?_replicate]
    split_ifs <;> rfl
  unfold chunkyfileAllChunksWritten
  rw [List.all_eq_true, hchunks, ← numChunks_eq_zero]
  constructor
  · intro hall
    by_contra hne
    have hfirst := hall 0 (List.mem_range.mpr (by omega))
    rw [hwritten] at hfirst
    cases hfirst
  · intro hzero i hi
    rw [hzero] at hi
    exact absurd (List.mem_range.mp hi) (Nat.not_lt_zero i)

theorem writerAt_of_getChunkyfile (h : filetableGetChunkyfile ft path = some file)
    (hpath : file.path.isSome = true) : writerAt ft path = some file := by
  unfold writerAt
  rw [h, Option.filter_some, if_pos hpath]

theorem writerAt_eq_none_of_getChunkyfile (h : ∀ file ∈ filetableGetChunkyfile ft path, file.path = none) :
    writerAt ft path = none := by
  unfold writerAt
  rw [Option.filter_eq_none_iff]
  exact fun file hfile => by rw [h file hfile]; nofun

theorem mem_writerAt : file ∈ writerAt ft path ↔
    filetableGetChunkyfile ft path = some file ∧ file.path.isSome = true := by
  unfold writerAt
  exact Option.filter_eq_some_iff

theorem writerAt_congr (h : filetableGetChunkyfile ft' path = filetableGetChunkyfile ft path) :
    writerAt ft' path = writerAt ft path := by
  unfold writerAt
  rw [h]

theorem mem_writerAt_iff_lookup : file ∈ writerAt ft path ↔
    ∃ e, ft.lookup path = some e ∧ e.file = some file ∧ file.path.isSome = true := by
  rw [mem_writerAt]
  unfold filetableGetChunkyfile
  rw [Option.bind_eq_some_iff]
  exact ⟨fun ⟨⟨e, he, hfile⟩, hpath⟩ => ⟨e, he, hfile, hpath⟩, fun ⟨e, he, hfile, hpath⟩ =>
    ⟨⟨e, he, hfile⟩, hpath⟩⟩

theorem isFilePath_iff_of_small (hsmall : IsSmall a) : IsFilePath a.view.entries path ↔
    ∃ x ∈ a.view.entries, x.2.isFolder = 0 ∧ entryPath x.1 x.2 = path := by
  constructor
  · rintro ⟨q, e, he, hplain, rfl⟩
    exact ⟨(q, e), he, hplain.1, rfl⟩
  · rintro ⟨x, hx, hfile, rfl⟩
    refine ⟨x.1, x.2, hx, ⟨hfile, ?_⟩, rfl⟩
    rw [intOfSize_eq (hsmall x hx hfile)]
    exact Int.natCast_nonneg _

theorem item_not_folder (h : (itemOf path x.2).length ≠ -1) : x.2.isFolder = 0 := by
  by_contra hfolder
  exact h (if_pos hfolder)

theorem table_of_getFileAdditions (h : getFileAdditions dir ft a = .ok (dir', ft')) :
    ft' = (filesystemIteratorRelative false a).foldl setFile ft := by
  have hput := putEntries_of_getFileAdditions h
  rw [getFileAdditions_eq, hput] at h
  cases h
  rfl

section SetFiles

variable (ha : IsDiffTree a)

include ha

/-- The loop over the additions touches the files among them only. -/
theorem writerAt_setFiles_of_not
    (h : ∀ x ∈ a.view.entries, x.2.isFolder = 0 → entryPath x.1 x.2 ≠ path) :
    writerAt ((filesystemIteratorRelative false a).foldl setFile ft) path = writerAt ft path := by
  have hitems : ∀ item ∈ filesystemIteratorRelative false a, item.length ≠ -1 → item.path ≠ path := by
    intro item hitem hlen
    obtain ⟨q, e, he, rfl⟩ := (mem_filesystemIterator ha.distinct).mp hitem
    exact h (q, e) he (item_not_folder (x := (q, e)) hlen)
  refine writerAt_congr ?_
  generalize filesystemIteratorRelative false a = items at hitems
  induction items generalizing ft with
  | nil => rfl
  | cons item items ih =>
    rw [List.foldl_cons, ih fun i hi => hitems i (List.mem_cons_of_mem item hi)]
    unfold setFile
    split_ifs with hlen
    · rfl
    · rw [getChunkyfile_setChunkyfile,
        if_neg fun hp => hitems item List.mem_cons_self hlen hp.1.symm]

/-- Each file among the additions that has an entry gets its writer. -/
theorem writerAt_setFiles (hsmall : IsSmall a) (hx : x ∈ a.view.entries) (hfile : x.2.isFolder = 0)
    (h : (ft.lookup (entryPath x.1 x.2)).isSome = true) :
    writerAt ((filesystemIteratorRelative false a).foldl setFile ft) (entryPath x.1 x.2) =
      some (newWriter x) := by
  obtain ⟨e, he⟩ := Option.isSome_iff_exists.mp h
  exact writerAt_of_getChunkyfile (getChunkyfile_of_lookup (file_of_writer ha hsmall hx hfile he)) rfl

end SetFiles

/-! ## What the directory shows -/

/-- The directory is the tree apart from the files in transfer, and these are the files that are to be
written for it. -/
structure Shows (c : Client) (tree : Folder) : Prop where
  visible : ∀ p, c.dir.lookup p ≠ none → ∀ n ∈ p, ¬ IsHidden n
  listed : c.dir.filesystemNew.view.entries ⊆ tree.view.entries
  missing : ∀ x ∈ tree.view.entries, x ∉ c.dir.filesystemNew.view.entries ↔
    x.2.isFolder = 0 ∧ InTransfer c.ft x
  writers : ∀ p, ∀ file ∈ writerAt c.ft p, ∃ x ∈ tree.view.entries,
    x.2.isFolder = 0 ∧ entryPath x.1 x.2 = p ∧ IsWriter x file

theorem Shows.of_view (h : Shows c tree) (hview : fs.view = tree.view) : Shows c fs where
  visible := h.visible
  listed := by rw [hview]; exact h.listed
  missing := by rw [hview]; exact h.missing
  writers := by rw [hview]; exact h.writers

/-- An event that leaves the directory and the files to be written alone. -/
theorem Shows.congr (h : Shows c tree) (hdir : c'.dir = c.dir)
    (hft : ∀ p, writerAt c'.ft p = writerAt c.ft p) : Shows c' tree where
  visible := hdir ▸ h.visible
  listed := hdir ▸ h.listed
  missing x hx := by
    unfold InTransfer
    rw [hdir, hft]
    exact h.missing x hx
  writers p file hfile := h.writers p file (hft p ▸ hfile)

/-- A folder of the tree is there. -/
theorem Shows.lookup_folder (h : Shows c tree) (hx : x ∈ tree.view.entries) (hfolder : x.2.isFolder ≠ 0) :
    c.dir.lookup (diskPath x) = some .dir :=
  lookup_eq_dir_of_mem_snapshot (by_contra fun hnot => hfolder ((h.missing x hx).mp hnot).1) hfolder

theorem Shows.visible_of_lookup (h : Shows c tree) (hnode : c.dir.lookup p = some node) :
    ∀ n ∈ p, ¬ IsHidden n := h.visible p (by rw [hnode]; nofun)

/-- What is there is listed by the tree. -/
theorem Shows.mem_tree (h : Shows c tree) (hnode : c.dir.lookup (q ++ [n]) = some node) :
    (q, entryOf n node) ∈ tree.view.entries :=
  h.listed (mem_snapshot_of_lookup node (h.visible_of_lookup hnode) hnode)

theorem diskPath_entryOf : diskPath (x.1, entryOf x.2.name node) = diskPath x := by
  unfold diskPath
  rw [entryOf_name]

/-- What lies at the path of an entry of the tree is this entry. -/
theorem Shows.eq_of_lookup (h : Shows c tree) (htree : IsVersion tree) (hx : x ∈ tree.view.entries)
    (hnode : c.dir.lookup (diskPath x) = some node) : x = (x.1, entryOf x.2.name node) :=
  htree.tidy.eq_of_diskPath hx (h.mem_tree hnode) diskPath_entryOf.symm

/-- When nothing is in transfer a snapshot is the tree. -/
theorem Shows.sameTree (h : Shows c tree) (htree : IsVersion tree)
    (hidle : ∀ x ∈ tree.view.entries, ¬ InTransfer c.ft x) : c.dir.filesystemNew.SameTree tree := by
  have hsnapshot := wellFormed_filesystemNew c.dir
  have hentries : c.dir.filesystemNew.view.entries = tree.view.entries := by
    refine h.listed.antisymm fun x hx => ?_
    by_contra hnot
    exact hidle x hx ((h.missing x hx).mp hnot).2
  refine Folder.sameTree_of_view_eq hsnapshot.distinct htree.tidy.wellFormed.distinct
    (TreeSet.ext hentries (Set.ext fun p => ?_))
  rcases List.eq_nil_or_concat p with rfl | ⟨q, n, rfl⟩
  · exact iff_of_true (Folder.rooted_view _).root (Folder.rooted_view _).root
  · rw [List.concat_eq_append]
    have hleft := hsnapshot.view.mark_iff q n
    have hright := htree.tidy.wellFormed.view.mark_iff q n
    rw [← hentries] at hright
    exact hleft.symm.trans hright

/-! ## Updates -/

/-- What is put for an entry is the entry. -/
theorem IsVersion.entryOf_addedNode (hnew : IsVersion new) (hx : x ∈ new.view.entries)
    (hnode : addedNode x = some node) : entryOf x.2.name node = x.2 := by
  by_cases hfile : x.2.isFolder = 0
  · by_cases hsize : x.2.size = 0
    · rw [addedNode_of_empty hfile hsize] at hnode
      cases hnode
      show (⟨x.2.name, 0, x.2.lastModified, 0⟩ : File) = x.2
      rw [← hsize, ← hfile]
    · rw [addedNode_of_nonempty hfile (hnew.small x hx hfile) hsize] at hnode
      cases hnode
  · rw [addedNode_of_isFolder hfile] at hnode
    cases hnode
    exact (congrArg Prod.snd (hnew.eq_marker hx hfile)).symm

theorem addedNode_eq_none_iff (hsmall : x.2.isFolder = 0 → x.2.size.toNat < 2 ^ 31) :
    addedNode x = none ↔ x.2.isFolder = 0 ∧ x.2.size ≠ 0 := by
  by_cases hfile : x.2.isFolder = 0
  · by_cases hsize : x.2.size = 0
    · rw [addedNode_of_empty hfile hsize]
      exact iff_of_false nofun fun h => h.2 hsize
    · exact iff_of_true (addedNode_of_nonempty hfile (hsmall hfile) hsize) ⟨hfile, hsize⟩
  · rw [addedNode_of_isFolder hfile]
    exact iff_of_false nofun fun h => hfile h.1

section Update

variable (hold : IsVersion old) (hnew : IsVersion new)

include hold hnew

theorem IsVersion.mem_additions :
    x ∈ (filesystemDiff old new).1.view.entries ↔ x ∈ new.view.entries ∧ x ∉ old.view.entries := by
  rw [(isDiff_additions hold.tidy.wellFormed.distinct hnew.tidy.wellFormed.distinct).entries_eq]
  exact Iff.rfl

theorem IsVersion.mem_deletions :
    x ∈ (filesystemDiff old new).2.view.entries ↔ x ∈ old.view.entries ∧ x ∉ new.view.entries := by
  rw [(isDiff_deletions hold.tidy.wellFormed.distinct hnew.tidy.wellFormed.distinct).entries_eq]
  exact Iff.rfl

theorem IsVersion.isDiffTree_additions : IsDiffTree (filesystemDiff old new).1 :=
  DartSync.isDiffTree_additions hold.tidy hnew.tidy

theorem IsVersion.isSmall_additions : IsSmall (filesystemDiff old new).1 := fun x hx =>
  hnew.small x ((hold.mem_additions hnew).mp hx).1

theorem IsVersion.isDeletions : IsDeletions (filesystemDiff old new).2 :=
  isDeletions_filesystemDiff hold.tidy hold.visible hnew.tidy.wellFormed.distinct

variable (h : Shows c old)

include h

/-- The deletions of the update are what the directory has of them. -/
theorem Shows.deletionsFit : DeletionsFit c.dir (filesystemDiff old new).2 where
  file x hx content mtime hnode := by
    have hsame := h.eq_of_lookup hold ((hold.mem_deletions hnew).mp hx).1 hnode
    exact (congrArg Prod.snd hsame).symm
  content x hx hfolder hdir n node hnode := by
    obtain ⟨hxold, hxnew⟩ := (hold.mem_deletions hnew).mp hx
    refine (hold.mem_deletions hnew).mpr ⟨h.mem_tree hnode, fun hin => hxnew ?_⟩
    -- the new tree would have the folder that it lacks
    rcases hnew.tidy.parent hin with hroot | ⟨y, hy, hyf, hpath⟩
    · exact absurd hroot (List.append_ne_nil_of_right_ne_nil x.1 (List.cons_ne_nil _ _))
    · obtain ⟨hq, hn⟩ := diskPath_inj.mp hpath
      rw [hold.eq_marker hxold hfolder, ← hq, ← hn, ← hnew.eq_marker hy hyf]
      exact hy
  kept x hx hfile hdir := by
    have hsame := h.eq_of_lookup hold ((hold.mem_deletions hnew).mp hx).1 hdir
    rw [hsame] at hfile
    exact absurd hfile (marker_isFolder x.2.name)

/-- What both trees have stays. -/
theorem Shows.lookup_kept (hx : x ∈ old.view.entries) (hxnew : x ∈ new.view.entries) :
    (removePaths c.dir (filesystemDiff old new).2).lookup (diskPath x) = c.dir.lookup (diskPath x) := by
  refine (h.deletionsFit hold hnew).lookup_unremoved (hold.isDeletions hnew) fun y hy _ hpath => ?_
  obtain ⟨hyold, hynew⟩ := (hold.mem_deletions hnew).mp hy
  exact hynew (hold.tidy.eq_of_diskPath hyold hx hpath ▸ hxnew)

/-- What is still there belongs to both trees. -/
theorem Shows.mem_kept
    (hnode : (removePaths c.dir (filesystemDiff old new).2).lookup (q ++ [n]) = some node) :
    (q, entryOf n node) ∈ old.view.entries ∧ (q, entryOf n node) ∈ new.view.entries := by
  have hthere := lookup_of_removePaths hnode
  refine ⟨h.mem_tree hthere, by_contra fun hnot => ?_⟩
  have hgone := (h.deletionsFit hold hnew).lookup_of_listed (hold.isDeletions hnew)
    (h.visible_of_lookup hthere) hthere ((hold.mem_deletions hnew).mpr ⟨h.mem_tree hthere, hnot⟩)
  rw [hnode] at hgone
  cases hgone

/-- The path of an addition is free. -/
theorem Shows.lookup_free (hx : x ∈ (filesystemDiff old new).1.view.entries) :
    (removePaths c.dir (filesystemDiff old new).2).lookup (diskPath x) = none := by
  obtain ⟨hxnew, hxold⟩ := (hold.mem_additions hnew).mp hx
  by_contra hthere
  obtain ⟨node, hnode⟩ := Option.ne_none_iff_exists'.mp hthere
  obtain ⟨hkept, hkept'⟩ := h.mem_kept hold hnew hnode
  have hsame : x = (x.1, entryOf x.2.name node) :=
    hnew.tidy.eq_of_diskPath hxnew hkept' diskPath_entryOf.symm
  exact hxold (hsame ▸ hkept)

/-- The folder of an addition is there or is added. -/
theorem Shows.isDir_parent (hx : x ∈ (filesystemDiff old new).1.view.entries) :
    (removePaths c.dir (filesystemDiff old new).2).IsDir x.1 ∨
      ∃ y ∈ (filesystemDiff old new).1.view.entries, y.2.isFolder ≠ 0 ∧ diskPath y = x.1 := by
  rcases hnew.tidy.parent ((hold.mem_additions hnew).mp hx).1 with hroot | ⟨y, hy, hyf, hpath⟩
  · exact Or.inl (Or.inl hroot)
  · by_cases hyold : y ∈ old.view.entries
    · refine Or.inl (Or.inr ?_)
      rw [← hpath, h.lookup_kept hold hnew hyold hy]
      exact h.lookup_folder hyold hyf
    · exact Or.inr ⟨y, (hold.mem_additions hnew).mpr ⟨hy, hyold⟩, hyf, hpath⟩

/-- The folders and the empty files among the additions are put. -/
theorem Shows.exists_putAdditions : ∃ dir', putEntries addedNode
    (removePaths c.dir (filesystemDiff old new).2) (filesystemDiff old new).1 = .ok dir' ∧
    ∀ x ∈ (filesystemDiff old new).1.view.entries, ∀ node, addedNode x = some node →
      dir'.lookup (diskPath x) = some node := by
  have ha := hold.isDiffTree_additions hnew
  have hloop : ∃ dir', putEntries addedNode (removePaths c.dir (filesystemDiff old new).2)
      (filesystemDiff old new).1 = .ok dir' ∧ ∀ x ∈ (filesystemDiff old new).1.view.entries, True →
        ∀ node, addedNode x = some node → dir'.lookup (diskPath x) = some node := by
    refine exists_putEntries ha.distinct ha.legal (fun _ _ hbad => absurd trivial hbad)
      (fun x hx y hy hpath node node' hnode hnode' => ?_) (fun x hx _ node _ => ?_) fun x hx _ _ => ?_
    · rw [ha.unique x hx y hy hpath, hnode'] at hnode
      exact (Option.some.inj hnode).symm
    · rw [h.lookup_free hold hnew hx]
      exact Node.fitsOn_none node
    · exact (h.isDir_parent hold hnew hx).imp id fun ⟨y, hy, hyf, hpath⟩ =>
        ⟨y, hy, trivial, hyf, addedNode_of_isFolder hyf, hpath⟩
  exact hloop.imp fun _ hok => hok.imp id fun hput x hx => hput x hx trivial

/-- The next update fails no assertion. -/
theorem Shows.receiveDiff_isOk (peer : ℤ) :
    ∃ r, receiveDiff c (filesystemDiff old new).1 (filesystemDiff old new).2 peer = .ok r := by
  refine receiveDiff_isOk_iff.mpr ⟨?_, (h.exists_putAdditions hold hnew).imp fun _ hput => hput.1⟩
  refine (patch_removed_isOk_iff hold.tidy hnew.tidy hnew.visible (hold.isDeletions hnew)
    (h.deletionsFit hold hnew)).mpr fun q n hnode hunmarked => ?_
  have hin := (isDiff_additions hold.tidy.wellFormed.distinct
    hnew.tidy.wellFormed.distinct).nodes_le hnode
  have hmarked := (hnew.tidy.wellFormed.view.mark_iff q n).mpr hin
  have hmarkedOld : (q, marker n) ∈ old.view.entries := by
    by_contra hnot
    exact hunmarked ((hold.mem_additions hnew).mpr ⟨hmarked, hnot⟩)
  exact h.lookup_folder hmarkedOld (marker_isFolder n)

variable {peer : ℤ} (hok : receiveDiff c (filesystemDiff old new).1 (filesystemDiff old new).2 peer =
  .ok (c', sent))

include hok

/-- What has been put for the additions, and nothing else. -/
theorem Shows.lookup_added (hx : x ∈ (filesystemDiff old new).1.view.entries) :
    c'.dir.lookup (diskPath x) = addedNode x := by
  have ha := hold.isDiffTree_additions hnew
  obtain ⟨rand, hget, -⟩ := receiveDiff_ok hok
  have hput := putEntries_of_getFileAdditions hget
  obtain ⟨dir', hput', hadded⟩ := h.exists_putAdditions hold hnew
  obtain rfl := Except.ok.inj (hput.symm.trans hput')
  cases hnode : addedNode x with
  | some node => exact hadded x hx node hnode
  | none =>
    rcases putEntries_ok ha.distinct ha.legal hput (diskPath x) with hsame | ⟨y, hy, hpath, node, hnode', -⟩
    · exact hsame.trans (h.lookup_free hold hnew hx)
    · rw [ha.unique y hy x hx hpath, hnode] at hnode'
      cases hnode'

omit h in
theorem IsVersion.lookup_not_added
    (hp : ∀ x ∈ (filesystemDiff old new).1.view.entries, diskPath x ≠ p) :
    c'.dir.lookup p = (removePaths c.dir (filesystemDiff old new).2).lookup p := by
  have ha := hold.isDiffTree_additions hnew
  obtain ⟨rand, hget, -⟩ := receiveDiff_ok hok
  refine (putEntries_ok ha.distinct ha.legal (putEntries_of_getFileAdditions hget) p).resolve_right ?_
  rintro ⟨x, hx, hpath, -⟩
  exact hp x hx hpath

omit h in
/-- The files among the additions are to be written. -/
theorem IsVersion.writerAt_added (hx : x ∈ (filesystemDiff old new).1.view.entries)
    (hfile : x.2.isFolder = 0) : writerAt c'.ft (entryPath x.1 x.2) = some (newWriter x) := by
  have ha := hold.isDiffTree_additions hnew
  have hsmall := hold.isSmall_additions hnew
  obtain ⟨rand, hget, -⟩ := receiveDiff_ok hok
  rw [table_of_getFileAdditions hget]
  refine writerAt_setFiles ha hsmall hx hfile ?_
  exact (lookup_filetableAddFilesystem_isSome ha.distinct).mpr
    (Or.inl ((isFilePath_iff_of_small hsmall).mpr ⟨x, hx, hfile, rfl⟩))

omit h in
/-- At other paths the files to be written are those of before, but for the deletions. -/
theorem IsVersion.mem_writerAt_not_added
    (hp : ∀ x ∈ (filesystemDiff old new).1.view.entries, x.2.isFolder = 0 → entryPath x.1 x.2 ≠ path) :
    file ∈ writerAt c'.ft path ↔ file ∈ writerAt c.ft path ∧
      ∀ x ∈ (filesystemDiff old new).2.view.entries, x.2.isFolder = 0 → entryPath x.1 x.2 ≠ path := by
  have ha := hold.isDiffTree_additions hnew
  have hsmall : IsSmall (filesystemDiff old new).2 := fun x hx =>
    hold.small x ((hold.mem_deletions hnew).mp hx).1
  have hnot : ¬ IsFilePath (filesystemDiff old new).1.view.entries path := fun h => by
    obtain ⟨x, hx, hfile, hpath⟩ := (isFilePath_iff_of_small (hold.isSmall_additions hnew)).mp h
    exact hp x hx hfile hpath
  obtain ⟨rand, hget, -⟩ := receiveDiff_ok hok
  rw [table_of_getFileAdditions hget, writerAt_setFiles_of_not ha hp, mem_writerAt_iff_lookup,
    mem_writerAt_iff_lookup, lookup_filetableAddFilesystem_of_not ha.distinct hnot]
  simp only [lookup_filetableRemoveFilesystem (hold.isDeletions hnew).distinct,
    isFilePath_iff_of_small hsmall, not_exists, not_and, ne_eq]
  exact ⟨fun ⟨e, ⟨he, hnone⟩, hrest⟩ => ⟨⟨e, he, hrest⟩, hnone⟩,
    fun ⟨⟨e, he, hrest⟩, hnone⟩ => ⟨e, ⟨he, hnone⟩, hrest⟩⟩

/-- Of the additions a snapshot has the folders and the empty files. -/
theorem Shows.mem_snapshot_added (hx : x ∈ (filesystemDiff old new).1.view.entries) :
    x ∉ c'.dir.filesystemNew.view.entries ↔ x.2.isFolder = 0 ∧ InTransfer c'.ft x := by
  have hxnew := ((hold.mem_additions hnew).mp hx).1
  have hlookup := h.lookup_added hold hnew hok hx
  have hsnapshot : x ∉ c'.dir.filesystemNew.view.entries ↔ addedNode x = none := by
    refine ⟨fun hnot => ?_, fun hnone hmem => ?_⟩
    · by_contra hsome
      obtain ⟨node, hnode⟩ := Option.ne_none_iff_exists'.mp hsome
      have hmem := mem_snapshot_of_lookup node (hnew.visible x hxnew) (hlookup.trans hnode)
      rw [hnew.entryOf_addedNode hxnew hnode] at hmem
      exact hnot hmem
    · obtain ⟨node, hnode, -⟩ := lookup_of_mem_snapshot hmem
      rw [hlookup, hnone] at hnode
      cases hnode
  rw [hsnapshot, addedNode_eq_none_iff (hnew.small x hxnew)]
  refine and_congr_right fun hfile => ?_
  unfold InTransfer
  rw [hold.writerAt_added hnew hok hx hfile, ne_eq, ← allChunksWritten_newWriter]
  exact ⟨fun hlacks => ⟨_, rfl, hlacks⟩, fun ⟨_, hmem, hlacks⟩ => Option.some.inj hmem ▸ hlacks⟩

/-- What both trees have is there or in transfer as before. -/
theorem Shows.mem_snapshot_kept (hx : x ∈ old.view.entries) (hxnew : x ∈ new.view.entries) :
    x ∉ c'.dir.filesystemNew.view.entries ↔ x.2.isFolder = 0 ∧ InTransfer c'.ft x := by
  have hnotAdded : ∀ y ∈ (filesystemDiff old new).1.view.entries, y ≠ x := fun y hy heq =>
    ((hold.mem_additions hnew).mp hy).2 (heq ▸ hx)
  have hlookup : c'.dir.lookup (diskPath x) = c.dir.lookup (diskPath x) := by
    rw [hold.lookup_not_added hnew hok fun y hy hpath => ?_, h.lookup_kept hold hnew hx hxnew]
    exact hnotAdded y hy (hnew.tidy.eq_of_diskPath ((hold.mem_additions hnew).mp hy).1 hxnew hpath)
  have hwriter : writerAt c'.ft (entryPath x.1 x.2) = writerAt c.ft (entryPath x.1 x.2) := by
    refine Option.ext fun file => (hold.mem_writerAt_not_added hnew hok fun y hy _ hpath => ?_).trans
      (and_iff_left fun y hy _ hpath => ?_)
    · exact hnotAdded y hy
        (eq_of_entryPath hnew.isDiffTree ((hold.mem_additions hnew).mp hy).1 hxnew hpath)
    · obtain ⟨hyold, hynew⟩ := (hold.mem_deletions hnew).mp hy
      exact hynew (eq_of_entryPath hold.isDiffTree hyold hx hpath ▸ hxnew)
  rw [mem_snapshot_congr hlookup, h.missing x hx]
  unfold InTransfer
  rw [hwriter]

/-- **An update.** The directory goes from the old tree to the new one, whose new files are in transfer. -/
theorem Shows.receiveDiff : Shows c' new where
  visible p hp := by
    by_cases hadded : ∃ x ∈ (filesystemDiff old new).1.view.entries, diskPath x = p
    · obtain ⟨x, hx, rfl⟩ := hadded
      exact hnew.visible x ((hold.mem_additions hnew).mp hx).1
    · rw [hold.lookup_not_added hnew hok fun x hx hpath => hadded ⟨x, hx, hpath⟩] at hp
      obtain ⟨node, hnode⟩ := Option.ne_none_iff_exists'.mp hp
      exact h.visible_of_lookup (lookup_of_removePaths hnode)
  listed z hz := by
    obtain ⟨node, hnode, hentry⟩ := lookup_of_mem_snapshot hz
    by_cases hadded : ∃ x ∈ (filesystemDiff old new).1.view.entries, diskPath x = diskPath z
    · obtain ⟨x, hx, hpath⟩ := hadded
      have hxnew := ((hold.mem_additions hnew).mp hx).1
      rw [← hpath, h.lookup_added hold hnew hok hx] at hnode
      obtain ⟨hq, hn⟩ := diskPath_inj.mp hpath
      have hsame := hnew.entryOf_addedNode hxnew hnode
      rw [hn, hentry] at hsame
      rwa [show z = x from Prod.ext hq.symm hsame]
    · rw [hold.lookup_not_added hnew hok fun x hx hpath => hadded ⟨x, hx, hpath⟩] at hnode
      have hkept := (h.mem_kept hold hnew hnode).2
      rwa [hentry] at hkept
  missing x hx := by
    by_cases hxold : x ∈ old.view.entries
    · exact h.mem_snapshot_kept hold hnew hok hxold hx
    · exact h.mem_snapshot_added hold hnew hok ((hold.mem_additions hnew).mpr ⟨hx, hxold⟩)
  writers path file hfile := by
    by_cases hadded : ∃ x ∈ (filesystemDiff old new).1.view.entries,
        x.2.isFolder = 0 ∧ entryPath x.1 x.2 = path
    · obtain ⟨x, hx, hxfile, rfl⟩ := hadded
      rw [hold.writerAt_added hnew hok hx hxfile] at hfile
      cases hfile
      exact ⟨x, ((hold.mem_additions hnew).mp hx).1, hxfile, rfl, isWriter_newWriter⟩
    · obtain ⟨hfile, hkept⟩ := (hold.mem_writerAt_not_added hnew hok fun x hx hxfile hpath =>
        hadded ⟨x, hx, hxfile, hpath⟩).mp hfile
      obtain ⟨x, hx, hxfile, hpath, hwriter⟩ := h.writers path file hfile
      refine ⟨x, by_contra fun hxnew => ?_, hxfile, hpath, hwriter⟩
      exact hkept x ((hold.mem_deletions hnew).mpr ⟨hx, hxnew⟩) hxfile hpath

end Update

/-! ## Chunks -/

section Chunk

variable {chunk : List UInt8} {k requestId : ℤ} {data : Option (List UInt8)} {e : FileTableEntry}

theorem IsWriter.setChunk (h : IsWriter x file) (hset : chunkyfileSetChunk file k chunk = .ok file') :
    IsWriter x file' := by
  have hpath := SharedFile.path_setChunk hset
  unfold chunkyfileSetChunk at hset
  split_ifs at hset with hbounds
  cases hset
  obtain ⟨-, hoffset, hend⟩ := hbounds
  refine ⟨h.path, h.size, ?_, h.time⟩
  have hfits : (chunkOffset k).toNat + chunk.length ≤ file.data.length := by omega
  exact (Buffer.length_splice hfits).trans h.length

/-- A chunk that has been written stays written. -/
theorem allChunksWritten_setChunk (hset : chunkyfileSetChunk file k chunk = .ok file')
    (hall : chunkyfileAllChunksWritten file = true) : chunkyfileAllChunksWritten file' = true := by
  unfold chunkyfileSetChunk at hset
  split_ifs at hset with hbounds
  cases hset
  obtain ⟨⟨hk, -⟩, -⟩ := hbounds
  unfold chunkyfileAllChunksWritten at hall ⊢
  rw [List.all_eq_true] at hall ⊢
  intro i hi
  have hi' := hall i hi
  rw [List.getD_eq_getElem?_getD] at hi' ⊢
  rw [List.getElem?_set]
  split_ifs with heq hlt
  · rfl
  · rw [heq] at hlt
    rw [List.getElem?_eq_none (by omega)] at hi'
    cases hi'
  · exact hi'

theorem writerAt_isUpdate (h : IsUpdate ft ft' path e) {path' : CString} : writerAt ft' path' =
    if path' = path then e.file.filter (fun file => file.path.isSome) else writerAt ft path' := by
  unfold writerAt
  rw [getChunkyfile_isUpdate h]
  split_ifs <;> rfl

/-- A file that lacks chunks after one more has been written is still in transfer. -/
theorem Shows.stored (h : Shows c tree) (hfile : filetableGetChunkyfile c.ft path = some file)
    (hset : chunkyfileSetChunk file k chunk = .ok file')
    (hall : ¬ chunkyfileAllChunksWritten file' = true) (he : e.file = some file')
    (hupdate : IsUpdate c.ft ft path e) (hdir : c'.dir = c.dir) (hft : c'.ft = ft) : Shows c' tree := by
  have hpath := SharedFile.path_setChunk hset
  have hlacked : ¬ chunkyfileAllChunksWritten file = true := fun hold =>
    hall (allChunksWritten_setChunk hset hold)
  refine ⟨hdir ▸ h.visible, hdir ▸ h.listed, fun x hx => ?_, fun path' file1 hfile1 => ?_⟩
  · rw [hdir, h.missing x hx]
    refine and_congr_right fun _ => ?_
    unfold InTransfer
    rw [hft, writerAt_isUpdate hupdate, he]
    split_ifs with hp
    · rw [hp]
      unfold writerAt
      rw [hfile, Option.filter_some, Option.filter_some, hpath]
      split_ifs
      · exact iff_of_true ⟨file, rfl, hlacked⟩ ⟨file', rfl, hall⟩
      · exact iff_of_false nofun nofun
    · exact Iff.rfl
  · rw [hft, writerAt_isUpdate hupdate, he] at hfile1
    split_ifs at hfile1 with hp
    · obtain ⟨hsame, hsome⟩ := Option.filter_eq_some_iff.mp hfile1
      cases hsame
      obtain ⟨x, hx, hxfile, hxpath, hwriter⟩ :=
        h.writers path file (writerAt_of_getChunkyfile hfile (hpath ▸ hsome))
      exact ⟨x, hx, hxfile, hxpath.trans hp.symm, hwriter.setChunk hset⟩
    · exact h.writers path' file1 hfile1

theorem path_isSome_of_write (h : chunkyfileWrite dir file = .ok dir') : file.path.isSome = true := by
  unfold chunkyfileWrite at h
  cases hpath : file.path with
  | none =>
    rw [hpath] at h
    cases h
  | some path => rfl

/-- A writer writes the entry. -/
theorem IsWriter.lookup_write (h : IsWriter x file) (hlegal : ∀ n ∈ diskPath x, IsName n)
    (hfile : x.2.isFolder = 0) (hwrite : chunkyfileWrite dir file = .ok dir') :
    ∃ node, entryOf x.2.name node = x.2 ∧
      ∀ p, dir'.lookup p = if p = diskPath x then some node else dir.lookup p := by
  unfold chunkyfileWrite at hwrite
  rw [h.path] at hwrite
  have hdisk : resolve (entryPath x.1 x.2) = diskPath x := itemPath_eq hlegal
  have hlength : (file.data.take file.size.toNat).length = x.2.size.toNat := by
    rw [List.length_take, h.length, h.size, Int.toNat_natCast, Nat.min_self]
  refine ⟨.file (file.data.take file.size.toNat) file.modifyTime, ?_, fun p => ?_⟩
  · show (⟨x.2.name, UInt64.ofNat (file.data.take file.size.toNat).length, file.modifyTime, 0⟩ : File) = x.2
    rw [hlength, h.time, UInt64.ofNat_toNat, ← hfile]
  · rw [Directory.lookup_write hwrite, hdisk]

/-- A file that is complete is written to the directory, as the tree lists it. -/
theorem Shows.completed (htree : IsVersion tree) (h : Shows c tree)
    (hfile : filetableGetChunkyfile c.ft path = some file)
    (hset : chunkyfileSetChunk file k chunk = .ok file') (hwrite : chunkyfileWrite c.dir file' = .ok dir)
    (he : e.file = none) (hupdate : IsUpdate c.ft ft path e) (hdir : c'.dir = dir) (hft : c'.ft = ft) :
    Shows c' tree := by
  obtain ⟨x, hx, hxfile, hxpath, hwriter⟩ := h.writers path file
    (writerAt_of_getChunkyfile hfile (SharedFile.path_setChunk hset ▸ path_isSome_of_write hwrite))
  obtain ⟨node, hentry, hlookup⟩ :=
    (hwriter.setChunk hset).lookup_write (htree.tidy.legal x hx) hxfile (hdir ▸ hwrite)
  constructor
  · intro p hp
    rw [hlookup] at hp
    split_ifs at hp with hpx
    · rw [hpx]
      exact htree.visible x hx
    · exact h.visible p hp
  · intro z hz
    by_cases hpz : diskPath z = diskPath x
    · obtain ⟨node', hnode, hzentry⟩ := lookup_of_mem_snapshot hz
      rw [hlookup, if_pos hpz] at hnode
      cases hnode
      obtain ⟨hq, hn⟩ := diskPath_inj.mp hpz
      rw [hn, hentry] at hzentry
      rwa [show z = x from Prod.ext hq hzentry.symm]
    · exact h.listed ((mem_snapshot_congr ((hlookup _).trans (if_neg hpz))).mp hz)
  · intro y hy
    by_cases hyx : y = x
    · subst hyx
      have hwritten := mem_snapshot_of_lookup node (htree.visible y hx) ((hlookup _).trans (if_pos rfl))
      rw [hentry] at hwritten
      refine iff_of_false (fun hnot => hnot hwritten) ?_
      rintro ⟨-, file1, hmem, -⟩
      rw [hft, writerAt_isUpdate hupdate, if_pos hxpath, he] at hmem
      cases hmem
    · have hsame : c'.dir.lookup (diskPath y) = c.dir.lookup (diskPath y) := by
        rw [hlookup, if_neg fun hp => hyx (htree.tidy.eq_of_diskPath hy hx hp)]
      rw [mem_snapshot_congr hsame, h.missing y hy]
      unfold InTransfer
      rw [hft, writerAt_isUpdate hupdate,
        if_neg fun hp => hyx (eq_of_entryPath htree.isDiffTree hy hx (hp.trans hxpath.symm))]
  · intro path' file1 hfile1
    rw [hft, writerAt_isUpdate hupdate, he] at hfile1
    split_ifs at hfile1 with hp
    · cases hfile1
    · exact h.writers path' file1 hfile1

/-- **A chunk.** -/
theorem Shows.receiveChunk (htree : IsVersion tree) (h : Shows c tree)
    (hok : receiveChunk c path k data requestId = .ok (c', sent)) : Shows c' tree := by
  obtain ⟨e, he, hreceived⟩ := receiveChunk_ok hok
  have hentry := getChunkyfile_of_lookup he
  cases hreceived with
  | ignored _ hupdate | rejected _ _ hupdate =>
    exact h.congr rfl fun _ => writerAt_congr (SharedFile.getChunkyfile_of_isUpdate he hupdate rfl)
  | completed _ _ hfile hset _ hwrite hupdate =>
    exact h.completed htree (hentry.trans hfile) hset hwrite rfl hupdate rfl rfl
  | stored _ _ hfile hset hall hupdate =>
    exact h.stored (hentry.trans hfile) hset hall rfl hupdate rfl rfl

end Chunk

/-! ## Other events -/

/-- What happens to a client between updates when its user changes nothing, and no check reports a file
that is in transfer as deleted. -/
def Client.Quiet (c : Client) : ClientEvent → Prop
  | .edit _ | .master _ | .diff _ _ _ => False
  | .checkLocal now => c.Settled now →
    ¬ checkFileSystem c.localDiff.1 = true ∧ ¬ checkFileSystem c.localDiff.2 = true
  | _ => True

/-- Between updates the directory goes on showing the tree. -/
theorem Shows.step {ev : ClientEvent} (htree : IsVersion tree) (h : Shows c tree) (hquiet : c.Quiet ev)
    (hok : c.step ev = .ok (c', sent)) : Shows c' tree := by
  cases ev with
  | peerAdded peerId =>
    cases hok
    exact h
  | peerDeleted peerId =>
    cases hok
    exact h.congr rfl fun _ => writerAt_congr getChunkyfile_removePeer
  | chunkRequest peerId filepath chunkId requestId =>
    obtain ⟨rfl | ⟨hnone, content, rfl⟩, -⟩ := receiveChunkRequest_ok hok
    · exact h
    · refine h.congr rfl fun path => ?_
      show writerAt (filetableSetChunkyfile c.ft filepath _) path = _
      by_cases hp : path = filepath
      · -- a file that has been opened for reading
        have hbefore : writerAt c.ft path = none :=
          writerAt_eq_none_of_getChunkyfile (by rw [hp, hnone]; nofun)
        rw [hbefore]
        refine writerAt_eq_none_of_getChunkyfile fun file hfile => ?_
        rw [getChunkyfile_setChunkyfile, hp, hnone] at hfile
        split_ifs at hfile <;> cases hfile
        rfl
      · refine writerAt_congr ?_
        rw [getChunkyfile_setChunkyfile, if_neg fun hp' => hp hp'.1]
  | chunk filepath chunkId data requestId => exact h.receiveChunk htree hok
  | chunkGot peerId filepath chunkId =>
    obtain ⟨ft, hft, hok⟩ := bind_eq_ok.mp hok
    cases hok
    exact h.congr rfl fun _ => writerAt_congr (getChunkyfile_setPeerHasChunk hft)
  | diff | master | edit => exact hquiet.elim
  | workQueue =>
    obtain ⟨requests, jobs, hc', -⟩ := checkWorkQueue_ok hok
    exact h.congr (by rw [hc']) fun _ => writerAt_congr (getChunkyfile_checkWorkQueue hok)
  | checkLocal now =>
    have hchecked : checkLocalFilesystem c now = (c', sent) := Except.ok.inj hok
    by_cases hsettled : c.Settled now
    · obtain ⟨hadds, hdels⟩ := hquiet hsettled
      rw [checkLocalFilesystem_of_settled hsettled, if_neg (by simp [hadds, hdels])] at hchecked
      cases hchecked
      exact h.congr rfl fun _ => rfl
    · obtain ⟨prevFs, prevTime, heq⟩ := checkLocalFilesystem_of_not_settled hsettled
      rw [heq] at hchecked
      cases hchecked
      exact h.congr rfl fun _ => rfl

/-! ## The first master -/

/-- A client that has handled nothing yet: its directory has no hidden files, and its table comes from
the tracker. -/
structure IsFresh (c : Client) : Prop where
  snapshot : c.curFs = c.dir.filesystemNew
  visible : ∀ p, c.dir.lookup p ≠ none → ∀ n ∈ p, ¬ IsHidden n
  table : ∀ path, filetableGetChunkyfile c.ft path = none

section Adopt

variable {m : Folder} (hm : IsVersion m) (h : IsFresh c)

include hm h

theorem IsFresh.mem_additions : x ∈ (filesystemDiff c.curFs m).1.view.entries ↔
    x ∈ m.view.entries ∧ x ∉ c.dir.filesystemNew.view.entries := by
  rw [h.snapshot, (isDiff_additions (wellFormed_filesystemNew c.dir).distinct
    hm.tidy.wellFormed.distinct).entries_eq]
  exact Iff.rfl

theorem IsFresh.isDiffTree_additions : IsDiffTree (filesystemDiff c.curFs m).1 := by
  rw [h.snapshot]
  exact hm.isDiffTree.subtract (wellFormed_filesystemNew c.dir).distinct

omit hm in
theorem IsFresh.canRemove : CanRemove c m := fun _ _ n hn =>
  h.visible _ hn n (List.mem_append_right _ (List.mem_singleton_self n))

variable (hok : updateLocalFilesystem c m = .ok (c', sent))

include hok

omit hm h in
theorem adoptedDir_of_updateLocalFilesystem : c'.dir = c.adoptedDir m ∧ c'.curFs = m := by
  obtain ⟨rand, st, rfl, -, hc', -⟩ := updateLocalFilesystem_ok hok rfl
  refine ⟨?_, by rw [hc']⟩
  rw [hc', prepareAdditions_fst]
  rfl

/-- The files that the client lacks are to be written, and no others. -/
theorem IsFresh.mem_writerAt_adopted {path : CString} : file ∈ writerAt c'.ft path ↔
    ∃ x ∈ (filesystemDiff c.curFs m).1.view.entries,
      x.2.isFolder = 0 ∧ entryPath x.1 x.2 = path ∧ file = newWriter x := by
  have ha := h.isDiffTree_additions hm
  have hsmall : IsSmall (filesystemDiff c.curFs m).1 := fun x hx =>
    hm.small x ((h.mem_additions hm).mp hx).1
  have hdiff : filesystemDiff c.curFs m =
    ((filesystemDiff c.curFs m).1, (filesystemDiff c.curFs m).2) := rfl
  obtain ⟨rand, st, rfl, henqueue, -⟩ := updateLocalFilesystem_ok hok hdiff
  have hwritten : ∀ x ∈ (filesystemDiff c.curFs m).1.view.entries, x.2.isFolder = 0 →
      writerAt c'.ft (entryPath x.1 x.2) = some (newWriter x) := by
    intro x hx hfile
    have hkey := (filetableEnqueueWorkForFilesystem_isOk c.jobs.rand ha.distinct).mp ⟨_, henqueue⟩ _
      ((isFilePath_iff_of_small hsmall).mpr ⟨x, hx, hfile, rfl⟩)
    rw [writerAt_congr (getChunkyfile_enqueueWork henqueue), prepareAdditions_snd]
    exact writerAt_setFiles ha hsmall hx hfile ((lookup_foldl_prepareAddition _ _).mp hkey)
  constructor
  · intro hfile
    by_cases hadded : ∃ x ∈ (filesystemDiff c.curFs m).1.view.entries,
        x.2.isFolder = 0 ∧ entryPath x.1 x.2 = path
    · obtain ⟨x, hx, hxfile, rfl⟩ := hadded
      rw [hwritten x hx hxfile] at hfile
      exact ⟨x, hx, hxfile, rfl, (Option.some.inj hfile).symm⟩
    · rw [writerAt_congr (getChunkyfile_enqueueWork henqueue), prepareAdditions_snd,
        writerAt_setFiles_of_not ha fun x hx hxfile hpath => hadded ⟨x, hx, hxfile, hpath⟩,
        mem_writerAt_iff_lookup] at hfile
      obtain ⟨e, he, hef, -⟩ := hfile
      have hold := getChunkyfile_of_lookup (lookup_of_filetableRemoveFilesystem he)
      rw [h.table, hef] at hold
      cases hold
  · rintro ⟨x, hx, hxfile, rfl, rfl⟩
    exact hwritten x hx hxfile

/-- **The first master.** The directory shows the master when its empty files were there before. -/
theorem IsFresh.shows (hempty : ∀ x ∈ m.view.entries, x.2.isFolder = 0 → x.2.size = 0 →
    x ∈ c.dir.filesystemNew.view.entries) : Shows c' m := by
  obtain ⟨hdir, hcur⟩ := adoptedDir_of_updateLocalFilesystem hok
  have hon := (onDisk_of_snapshot h.snapshot).adopted hm.isMaster h.canRemove hdir hcur
  have ha := h.isDiffTree_additions hm
  refine ⟨fun p hp => ?_, ?_, fun x hx => ?_, fun path file hfile => ?_⟩
  · obtain ⟨node, hnode⟩ := Option.ne_none_iff_exists'.mp hp
    have hput : putEntries folderNode (removePaths c.dir (filesystemDiff c.curFs m).2)
        (filesystemDiff c.curFs m).1 = .ok c'.dir := hdir ▸ putEntries_folderNode
    rcases putEntries_ok ha.distinct ha.legal hput p with hsame | ⟨x, hx, rfl, -⟩
    · rw [hsame] at hnode
      exact h.visible p (by rw [lookup_of_removePaths hnode]; nofun)
    · exact hm.visible x ((h.mem_additions hm).mp hx).1
  · have hlisted := hon.announced
    rwa [hcur] at hlisted
  · have hmissing := hon.missing x
    rw [hcur, ← h.snapshot, h.mem_additions hm] at hmissing
    have hlacks : x ∉ c'.dir.filesystemNew.view.entries ↔
        x ∉ c.dir.filesystemNew.view.entries ∧ x.2.isFolder = 0 := by
      simpa [hx] using hmissing
    rw [hlacks, and_comm]
    refine and_congr_right fun hfile => ⟨fun hnot => ?_, ?_⟩
    · refine ⟨newWriter x, (h.mem_writerAt_adopted hm hok).mpr
        ⟨x, (h.mem_additions hm).mpr ⟨hx, hnot⟩, hfile, rfl, rfl⟩, fun hall => hnot ?_⟩
      exact hempty x hx hfile (allChunksWritten_newWriter.mp hall)
    · rintro ⟨file, hmem, -⟩
      obtain ⟨y, hy, -, hpath, -⟩ := (h.mem_writerAt_adopted hm hok).mp hmem
      obtain ⟨hym, hynot⟩ := (h.mem_additions hm).mp hy
      rwa [eq_of_entryPath hm.isDiffTree hym hx hpath] at hynot
  · obtain ⟨x, hx, hxfile, hpath, rfl⟩ := (h.mem_writerAt_adopted hm hok).mp hfile
    exact ⟨x, ((h.mem_additions hm).mp hx).1, hxfile, hpath, isWriter_newWriter⟩

end Adopt

end DartSync
