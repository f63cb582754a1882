import DartSync.Client.Files

/-!
# Masters and the directory

When a master is adopted, `cur_fs` is the master at once, while its files come to the directory chunk
by chunk. `OnDisk` says how the two then differ: the directory has what `cur_fs` lists apart from the
files that the client is owed.
-/

namespace DartSync

open Directory

variable {c c' : Client} {dir : Directory} {fs m owed : Folder} {q : List CString} {n : CString}
  {node : Node} {x y : List CString × File}

/-! ## Entries and the directory -/

/-- No path of the tree is left out by a snapshot. -/
def VisiblePaths (fs : Folder) : Prop := ∀ x ∈ fs.view.entries, ∀ n ∈ diskPath x, ¬ IsHidden n

theorem visiblePaths_filesystemNew (dir : Directory) : VisiblePaths dir.filesystemNew :=
  fun _ hx => (mem_entries_filesystemNew.mp hx).1

theorem lookup_of_mem_snapshot (h : x ∈ dir.filesystemNew.view.entries) :
    ∃ node, dir.lookup (diskPath x) = some node ∧ entryOf x.2.name node = x.2 :=
  Option.map_eq_some_iff.mp (mem_entries_filesystemNew.mp h).2

theorem mem_snapshot_of_lookup (node : Node) (hvisible : ∀ k ∈ q ++ [n], ¬ IsHidden k)
    (h : dir.lookup (q ++ [n]) = some node) :
    (q, entryOf n node) ∈ dir.filesystemNew.view.entries := by
  rw [mem_entries_filesystemNew, entryOf_name, h]
  exact ⟨hvisible, rfl⟩

theorem lookup_eq_dir_of_mem_snapshot (h : x ∈ dir.filesystemNew.view.entries)
    (hfolder : x.2.isFolder ≠ 0) : dir.lookup (diskPath x) = some .dir := by
  obtain ⟨node, hnode, hentry⟩ := lookup_of_mem_snapshot h
  rw [← hentry] at hfolder
  rw [hnode, entryOf_isFolder hfolder]

/-- A snapshot does not see a change that leaves the path alone. -/
theorem mem_snapshot_congr {dir' : Directory} (h : dir'.lookup (diskPath x) = dir.lookup (diskPath x)) :
    x ∈ dir'.filesystemNew.view.entries ↔ x ∈ dir.filesystemNew.view.entries := by
  obtain ⟨q, e⟩ := x
  rw [mem_entries_filesystemNew, mem_entries_filesystemNew]
  exact and_congr_right fun _ => by rw [show dir'.lookup (q ++ [e.name]) = _ from h]; rfl

/-- At a path a well-formed tree has one entry. -/
theorem IsTidy.eq_of_diskPath (hfs : IsTidy fs) (hx : x ∈ fs.view.entries) (hy : y ∈ fs.view.entries)
    (h : diskPath x = diskPath y) : x = y := hfs.wellFormed.eq_of_diskPath hx hy h

/-- The folder of an entry is the root or is listed itself. -/
theorem IsTidy.parent (hfs : IsTidy fs) (hx : x ∈ fs.view.entries) :
    x.1 = [] ∨ ∃ y ∈ fs.view.entries, y.2.isFolder ≠ 0 ∧ diskPath y = x.1 := by
  obtain ⟨q, e⟩ := x
  have hnode := hfs.wellFormed.view.holds q e hx
  rcases List.eq_nil_or_concat q with rfl | ⟨q, n, rfl⟩
  · exact Or.inl rfl
  · rw [List.concat_eq_append] at hnode ⊢
    exact Or.inr ⟨(q, marker n), (hfs.wellFormed.view.mark_iff q n).mpr hnode, marker_isFolder n, rfl⟩

/-! ## What is on disk -/

/-- The tree has a file. -/
def hasFiles (fs : Folder) : Bool := (entryList false fs).any fun x => decide (x.2.isFolder = 0)

theorem hasFiles_iff (hfs : fs.Distinct) :
    hasFiles fs = true ↔ ∃ x ∈ fs.view.entries, x.2.isFolder = 0 := by
  unfold hasFiles
  rw [List.any_eq_true]
  exact exists_congr fun x => and_congr (mem_entryList false hfs) decide_eq_true_iff

/-- `cur_fs` lists what the directory has, and besides the files that the client is owed. -/
structure OnDisk (c : Client) (owed : Folder) : Prop where
  tidy : IsTidy c.curFs
  visible : VisiblePaths c.curFs
  distinct : owed.Distinct
  announced : c.dir.filesystemNew.view.entries ⊆ c.curFs.view.entries
  missing : ∀ x, x ∈ c.curFs.view.entries ∧ x ∉ c.dir.filesystemNew.view.entries ↔
    x ∈ owed.view.entries ∧ x.2.isFolder = 0

theorem onDisk_of_snapshot (h : c.curFs = c.dir.filesystemNew) : OnDisk c emptyFilesystem where
  tidy := h ▸ isTidy_filesystemNew _
  visible := h ▸ visiblePaths_filesystemNew _
  distinct := wellFormed_emptyFilesystem.distinct
  announced := h ▸ subset_rfl
  missing x := by
    rw [h]
    exact iff_of_false (fun hx => hx.2 hx.1) fun hx => Folder.not_mem_entries_of_isEmpty rfl x hx.1

/-- A master as the snapshots of the clients make it, with sizes that are no negative `int`s. -/
structure IsMaster (m : Folder) : Prop where
  tidy : IsTidy m
  visible : VisiblePaths m
  plain : ∀ x ∈ m.view.entries, x.2.isFolder = 0 → x.2.IsPlain

/-- Nothing hidden lies in what a master takes away. -/
def CanRemove (c : Client) (m : Folder) : Prop :=
  ∀ x ∈ c.curFs.view.entries \ m.view.entries, ∀ n, c.dir.lookup (diskPath x ++ [n]) ≠ none →
    ¬ IsHidden n

namespace OnDisk

/-- Where the directory has a folder, `cur_fs` has its marker. -/
theorem eq_marker (h : OnDisk c owed) (hx : x ∈ c.curFs.view.entries)
    (hdir : c.dir.lookup (diskPath x) = some .dir) : x = (x.1, marker x.2.name) :=
  h.tidy.eq_of_diskPath hx
    (h.announced (mem_snapshot_of_lookup .dir (h.visible x hx) hdir)) rfl

/-- A folder that `cur_fs` lists is there. -/
theorem lookup_folder (h : OnDisk c owed) (hx : x ∈ c.curFs.view.entries) (hfolder : x.2.isFolder ≠ 0) :
    c.dir.lookup (diskPath x) = some .dir :=
  lookup_eq_dir_of_mem_snapshot
    (by_contra fun hnot => hfolder ((h.missing x).mp ⟨hx, hnot⟩).2) hfolder

section Adopted

variable (h : OnDisk c owed) (hm : IsMaster m) (hremove : CanRemove c m)
include h hm

include hremove in
/-- Everything that the master lacks is removed. -/
theorem lookup_removed (hx : x ∈ c.curFs.view.entries \ m.view.entries) :
    (removePaths c.dir (filesystemDiff c.curFs m).2).lookup (diskPath x) = none := by
  have hentries := entries_deletions h.tidy hm.tidy
  refine lookup_removePaths_self (fun _ => True) (distinct_deletions h.tidy.wellFormed.distinct)
    (legalPaths_deletions h.tidy hm.tidy) (fun x hx _ hdir n hn => ?_) (hentries ▸ hx) trivial
  rw [hentries] at hx ⊢
  have hxm := h.eq_marker hx.1 hdir
  refine ⟨by rw [hxm]; exact marker_isFolder _, ?_⟩
  obtain ⟨node, hnode⟩ := Option.ne_none_iff_exists'.mp hn
  have hvisible : ∀ k ∈ diskPath x ++ [n], ¬ IsHidden k := fun k hk =>
    (List.mem_append.mp hk).elim (h.visible x hx.1 k)
      fun hk => List.mem_singleton.mp hk ▸ hremove x hx n hn
  refine ⟨entryOf n node, ⟨h.announced (mem_snapshot_of_lookup node hvisible hnode), fun hin => ?_⟩,
    trivial, entryOf_name⟩
  -- the master would list the folder that it lacks
  rcases hm.tidy.parent hin with hnil | ⟨y, hy, hyf, hpath⟩
  · exact List.append_ne_nil_of_right_ne_nil x.1 (List.cons_ne_nil _ _) hnil
  · have hym : y.2 = marker y.2.name := hm.tidy.wellFormed.view.mark_of_dir y.1 y.2 hy hyf
    obtain ⟨hfolder, hname⟩ := diskPath_inj.mp hpath
    refine hx.2 ?_
    rw [hxm, ← hname, ← hym, ← hfolder]
    exact hy

theorem lookup_kept (hx : ∀ y ∈ c.curFs.view.entries \ m.view.entries, diskPath y ≠ q) :
    (removePaths c.dir (filesystemDiff c.curFs m).2).lookup q = c.dir.lookup q := by
  refine lookup_removePaths_of_ne (resolve_ne_of_mem
    (distinct_deletions h.tidy.wellFormed.distinct) (legalPaths_deletions h.tidy hm.tidy) ?_)
  rwa [entries_deletions h.tidy hm.tidy]

/-- What the master shares with `cur_fs` is not removed. -/
theorem lookup_shared (hx : x ∈ c.curFs.view.entries) (hxm : x ∈ m.view.entries) :
    (removePaths c.dir (filesystemDiff c.curFs m).2).lookup (diskPath x) =
      c.dir.lookup (diskPath x) :=
  h.lookup_kept hm fun _ hy heq => hy.2 (h.tidy.eq_of_diskPath hx hy.1 heq.symm ▸ hxm)

include hremove in
/-- Every folder that the master adds is made. -/
theorem lookup_made (hx : x ∈ m.view.entries \ c.curFs.view.entries) (hfolder : x.2.isFolder ≠ 0) :
    (c.adoptedDir m).lookup (diskPath x) = some .dir := by
  have hentries := entries_additions h.tidy hm.tidy
  refine lookup_makeFolders_self (distinct_additions hm.tidy.wellFormed.distinct)
    (legalPaths_additions h.tidy hm.tidy) ?_ ?_ (hentries ▸ hx) hfolder
  all_goals rw [hentries]
  · intro x hx _ node hnode
    exfalso
    have hsome : (removePaths c.dir (filesystemDiff c.curFs m).2).lookup (diskPath x) ≠ none := by
      rw [hnode]
      exact Option.some_ne_none _
    have hold : c.dir.lookup (diskPath x) = some node :=
      ((lookup_foldl_remove_or (fun item : IteratorItem => resolve item.path)
        _).resolve_right hsome).symm.trans hnode
    have hcur : (x.1, entryOf x.2.name node) ∈ c.curFs.view.entries :=
      h.announced (mem_snapshot_of_lookup node (hm.visible x hx.1) hold)
    have hpath : diskPath (x.1, entryOf x.2.name node) = diskPath x := by
      unfold diskPath
      rw [entryOf_name]
    by_cases hin : (x.1, entryOf x.2.name node) ∈ m.view.entries
    · rw [hm.tidy.eq_of_diskPath hin hx.1 hpath] at hcur
      exact hx.2 hcur
    · rw [← hpath, h.lookup_removed hm hremove ⟨hcur, hin⟩] at hnode
      cases hnode
  · intro x hx _
    rcases hm.tidy.parent hx.1 with hnil | ⟨y, hy, hyf, hpath⟩
    · exact Or.inl (Or.inl hnil)
    · by_cases hin : y ∈ c.curFs.view.entries
      · refine Or.inl (Or.inr ?_)
        rw [← hpath, h.lookup_shared hm hin hy]
        exact h.lookup_folder hin hyf
      · exact Or.inr ⟨y, ⟨hy, hin⟩, hyf, hpath⟩

theorem lookup_not_made
    (hx : ∀ y ∈ m.view.entries \ c.curFs.view.entries, y.2.isFolder ≠ 0 → diskPath y ≠ q) :
    (c.adoptedDir m).lookup q =
      (removePaths c.dir (filesystemDiff c.curFs m).2).lookup q := by
  refine lookup_makeFolders_of_ne fun item hitem hlen => ?_
  obtain ⟨r, e, he, rfl⟩ :=
    (mem_filesystemIterator (distinct_additions hm.tidy.wellFormed.distinct)).mp hitem
  have hx' := (entries_additions h.tidy hm.tidy) ▸ he
  show itemPath (r, e) ≠ q
  rw [itemPath_eq (legalPaths_additions h.tidy hm.tidy _ he)]
  refine hx _ hx' fun hfile => ?_
  have hpos : 0 ≤ (itemOf (joinPath .empty r) e).length := length_itemOf.mpr (hm.plain _ hx'.1 hfile)
  rw [hlen] at hpos
  cases hpos

include hremove in
/-- Of what the master lists, the directory has the folders and the files it had before. -/
theorem mem_snapshot_adopted (hx : x ∈ m.view.entries) :
    x ∈ (c.adoptedDir m).filesystemNew.view.entries ↔
      x.2.isFolder ≠ 0 ∨ x ∈ c.dir.filesystemNew.view.entries := by
  have hnotMade : ¬ (x ∉ c.curFs.view.entries ∧ x.2.isFolder ≠ 0) → (c.adoptedDir m).lookup (diskPath x) =
      (removePaths c.dir (filesystemDiff c.curFs m).2).lookup (diskPath x) := fun hnot =>
    h.lookup_not_made hm fun y hy hyf heq => by
      obtain rfl := hm.tidy.eq_of_diskPath hy.1 hx heq
      exact hnot ⟨hy.2, hyf⟩
  by_cases hfolder : x.2.isFolder ≠ 0
  · refine iff_of_true ?_ (Or.inl hfolder)
    have hdir : (c.adoptedDir m).lookup (diskPath x) = some .dir := by
      by_cases hcur : x ∈ c.curFs.view.entries
      · rw [hnotMade fun hnot => hnot.1 hcur, h.lookup_shared hm hcur hx, h.lookup_folder hcur hfolder]
      · exact h.lookup_made hm hremove ⟨hx, hcur⟩ hfolder
    have hmark : x.2 = marker x.2.name := hm.tidy.wellFormed.view.mark_of_dir x.1 x.2 hx hfolder
    have hmem := mem_snapshot_of_lookup .dir (hm.visible x hx) hdir
    rwa [show entryOf x.2.name .dir = x.2 from hmark.symm] at hmem
  · rw [or_iff_right hfolder]
    have hsame := hnotMade fun hnot => hfolder hnot.2
    by_cases hcur : x ∈ c.curFs.view.entries
    · exact mem_snapshot_congr (hsame.trans (h.lookup_shared hm hcur hx))
    · refine iff_of_false (fun hmem => hcur ?_) fun hmem => hcur (h.announced hmem)
      obtain ⟨node, hnode, -⟩ := lookup_of_mem_snapshot hmem
      rw [hsame] at hnode
      have hold := (lookup_foldl_remove_or (fun item : IteratorItem => resolve item.path)
        _).resolve_right (ne_of_eq_of_ne hnode (Option.some_ne_none node))
      exact h.announced ((mem_snapshot_congr (hsame.trans hold)).mp hmem)

include hremove in
theorem snapshot_adopted_subset :
    (c.adoptedDir m).filesystemNew.view.entries ⊆ m.view.entries := by
  intro x hx
  obtain ⟨node, hnode, hentry⟩ := lookup_of_mem_snapshot hx
  by_cases hmade : ∃ y ∈ m.view.entries \ c.curFs.view.entries, y.2.isFolder ≠ 0 ∧
      diskPath y = diskPath x
  · obtain ⟨y, hy, hyf, hpath⟩ := hmade
    have hmark : y.2 = marker y.2.name := hm.tidy.wellFormed.view.mark_of_dir y.1 y.2 hy.1 hyf
    rw [← hpath, h.lookup_made hm hremove hy hyf] at hnode
    cases hnode
    obtain ⟨hfolder, hname⟩ := diskPath_inj.mp hpath
    have hxy : x = y := Prod.ext hfolder.symm (by rw [← hentry, ← hname]; exact hmark.symm)
    exact hxy ▸ hy.1
  · by_contra hxm
    have hsame := h.lookup_not_made hm fun y hy hyf hpath => hmade ⟨y, hy, hyf, hpath⟩
    by_cases hgone : ∃ y ∈ c.curFs.view.entries \ m.view.entries, diskPath y = diskPath x
    · obtain ⟨y, hy, hpath⟩ := hgone
      rw [hsame, ← hpath, h.lookup_removed hm hremove hy] at hnode
      cases hnode
    · have hkept := h.lookup_kept hm fun y hy hpath => hgone ⟨y, hy, hpath⟩
      have hcur := h.announced ((mem_snapshot_congr (hsame.trans hkept)).mp hx)
      exact hgone ⟨x, ⟨hcur, hxm⟩, rfl⟩

include hremove in
/-- After the adoption the client is owed the files that the directory did not have. -/
theorem adopted (hdir : c'.dir = c.adoptedDir m) (hcur : c'.curFs = m) :
    OnDisk c' (filesystemDiff c.dir.filesystemNew m).1 where
  tidy := hcur ▸ hm.tidy
  visible := hcur ▸ hm.visible
  distinct := distinct_additions hm.tidy.wellFormed.distinct
  announced := by
    rw [hdir, hcur]
    exact h.snapshot_adopted_subset hm hremove
  missing x := by
    rw [hdir, hcur, (isDiff_additions (wellFormed_filesystemNew c.dir).distinct
      hm.tidy.wellFormed.distinct).entries_eq, Set.mem_sdiff, and_assoc]
    refine and_congr_right fun hx => ?_
    rw [h.mem_snapshot_adopted hm hremove hx, not_or, not_not, and_comm]

end Adopted

end OnDisk

end DartSync
