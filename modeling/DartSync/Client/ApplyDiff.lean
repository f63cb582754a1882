import DartSync.Client.OnDisk

/-!
# Applying a diff to a directory that has changed

`RemoveFileDeletions` removes what lies at the paths of the deletions, whatever it is by now, while
`filesystem_minus_equals` removes an entry only if it is the one listed, and a folder with all its
content. `appliesDiff_iff` says for which directories the two agree, nothing goes that is not listed,
and the handling of the diff completes.
-/

namespace DartSync

open Directory

variable {c : Client} {dir : Directory} {d a old new : Folder} {p q : List CString} {n : CString}
  {node : Node} {x y : List CString × File}

/-! ## Deletions -/

/-- The directory loses what a snapshot of it would lose, and all that it loses is listed. -/
structure RemovesListed (dir : Directory) (d : Folder) : Prop where
  agree : (removePaths dir d).filesystemNew.view = (filesystemMinusEquals dir.filesystemNew d).view
  listed : ∀ x ∈ dir.filesystemNew.view.entries, x ∉ (removePaths dir d).filesystemNew.view.entries →
    x ∈ d.view.entries

/-- Where a deletion leads to a file, this is the file that is listed; where the listed folder still
is a folder, all its content is listed; and where a listed file has become a folder, this has content. -/
structure DeletionsFit (dir : Directory) (d : Folder) : Prop where
  file : ∀ x ∈ d.view.entries, ∀ content mtime,
    dir.lookup (diskPath x) = some (.file content mtime) → entryOf x.2.name (.file content mtime) = x.2
  content : ∀ x ∈ d.view.entries, x.2.isFolder ≠ 0 → dir.lookup (diskPath x) = some .dir →
    ∀ n node, dir.lookup (diskPath x ++ [n]) = some node → (diskPath x, entryOf n node) ∈ d.view.entries
  kept : ∀ x ∈ d.view.entries, x.2.isFolder = 0 → dir.lookup (diskPath x) = some .dir →
    ∃ n, dir.lookup (diskPath x ++ [n]) ≠ none

/-- The deletions of a diff: visible paths, markers for folders, and nothing listed below a file. -/
structure IsDeletions (d : Folder) : Prop extends IsDiffTree d where
  visible : VisiblePaths d
  mark : ∀ x ∈ d.view.entries, x.2.isFolder ≠ 0 → x.2 = marker x.2.name
  below : ∀ x ∈ d.view.entries, ∀ e, (diskPath x, e) ∈ d.view.entries → x.2.isFolder ≠ 0

theorem isDeletions_filesystemDiff (hold : IsTidy old) (hvisible : VisiblePaths old) (hnew : new.Distinct) :
    IsDeletions (filesystemDiff old new).2 := by
  have hsub : ∀ x ∈ (filesystemDiff old new).2.view.entries, x ∈ old.view.entries := by
    rw [(isDiff_deletions hold.wellFormed.distinct hnew).entries_eq]
    exact fun x hx => hx.1
  refine ⟨(hold.wellFormed.isDiffTree hold.legal).subtract hnew, fun x hx => hvisible x (hsub x hx),
    fun x hx hfolder => hold.wellFormed.view.mark_of_dir x.1 x.2 (hsub x hx) hfolder, fun x hx e he => ?_⟩
  rcases hold.parent (hsub _ he) with hroot | ⟨y, hy, hyf, hpath⟩
  · exact absurd hroot (List.append_ne_nil_of_right_ne_nil x.1 (List.cons_ne_nil _ _))
  · rwa [← hold.eq_of_diskPath hy (hsub x hx) hpath]

theorem lookup_removePaths_or :
    (removePaths dir d).lookup p = dir.lookup p ∨ (removePaths dir d).lookup p = none :=
  Directory.lookup_foldl_remove_or (fun item : IteratorItem => resolve item.path) _

theorem lookup_of_removePaths (h : (removePaths dir d).lookup p = some node) : dir.lookup p = some node := by
  rcases lookup_removePaths_or with hsame | hnone
  · exact hsame.symm.trans h
  · rw [hnone] at h
    cases h

/-- Where a listed marker cuts the snapshot off, all that is there is listed. -/
theorem DeletionsFit.listed_of_cut (h : DeletionsFit dir d)
    (hcut : TreeSet.Cut fileMarking dir.filesystemNew.view d.view p)
    (hn : dir.lookup (p ++ [n]) = some node) : (p, entryOf n node) ∈ d.view.entries := by
  obtain ⟨q, m, r, rfl, hsnap, hm, hfolder⟩ := hcut
  induction r using List.reverseRecOn generalizing n node with
  | nil => exact h.content (q, m) hm hfolder (lookup_eq_dir_of_mem_snapshot hsnap hfolder) n node hn
  | append_singleton r k ih =>
    rw [show q ++ fileMarking.name m :: (r ++ [k]) = q ++ fileMarking.name m :: r ++ [k] by simp] at hn ⊢
    have hdir := (isDir_of_lookup hn).resolve_left (by simp)
    exact h.content _ (ih hdir) (marker_isFolder k) hdir n node hn

section Deletions

variable (hd : IsDeletions d)

include hd

/-- What lies at the path of a deletion is in the snapshot. -/
theorem IsDeletions.mem_snapshot (hx : x ∈ d.view.entries) (node : Node)
    (h : dir.lookup (diskPath x) = some node) :
    (x.1, entryOf x.2.name node) ∈ dir.filesystemNew.view.entries :=
  mem_snapshot_of_lookup node (hd.visible x hx) h

theorem IsDeletions.listed_of_removed (h : (removePaths dir d).lookup p ≠ dir.lookup p) :
    ∃ x ∈ d.view.entries, diskPath x = p := by
  by_contra hnone
  exact h (lookup_removePaths_of_ne (resolve_ne_of_mem hd.distinct hd.legal
    fun x hx hpath => hnone ⟨x, hx, hpath⟩))

section Fit

variable (h : DeletionsFit dir d)

include h

/-- What is listed and in the snapshot goes. -/
theorem DeletionsFit.lookup_removed (hx : x ∈ d.view.entries) (hsnap : x ∈ dir.filesystemNew.view.entries) :
    (removePaths dir d).lookup (diskPath x) = none := by
  refine lookup_removePaths_self (fun y => y.2.isFolder ≠ 0 ∨ dir.lookup (diskPath y) ≠ some .dir)
    hd.distinct hd.legal (fun y hy hgood hdir n hn => ?_) hx ?_
  · have hfolder := hgood.resolve_right (not_not.mpr hdir)
    obtain ⟨node, hnode⟩ := Option.ne_none_iff_exists'.mp hn
    refine ⟨hfolder, entryOf n node, h.content y hy hfolder hdir n node hnode, ?_, entryOf_name⟩
    cases node with
    | dir => exact Or.inl (marker_isFolder n)
    | file content mtime =>
      refine Or.inr fun hdir' => ?_
      have hsame : dir.lookup (diskPath y ++ [n]) = some .dir := hdir'
      rw [hnode] at hsame
      cases hsame
  · by_cases hfolder : x.2.isFolder = 0
    · refine Or.inr fun hdir => ?_
      obtain ⟨node, hnode, hentry⟩ := lookup_of_mem_snapshot hsnap
      rw [hdir] at hnode
      cases hnode
      exact marker_isFolder x.2.name (hentry ▸ hfolder)
    · exact Or.inl hfolder

/-- Nothing else goes. -/
theorem DeletionsFit.lookup_unremoved
    (hp : ∀ x ∈ d.view.entries, x ∈ dir.filesystemNew.view.entries → diskPath x ≠ p) :
    (removePaths dir d).lookup p = dir.lookup p := by
  by_contra hgone
  obtain ⟨x, hx, rfl⟩ := hd.listed_of_removed hgone
  have hnone := lookup_removePaths_or.resolve_left hgone
  obtain ⟨node, hnode⟩ : ∃ node, dir.lookup (diskPath x) = some node := by
    refine Option.ne_none_iff_exists'.mp fun hfree => hgone ?_
    rw [hnone, hfree]
  have hsnap := hd.mem_snapshot hx node hnode
  cases node with
  | file content mtime =>
    rw [h.file x hx content mtime hnode] at hsnap
    exact hp x hx hsnap rfl
  | dir =>
    by_cases hfolder : x.2.isFolder = 0
    · -- a folder in place of a listed file keeps its content, which is not listed
      obtain ⟨n, hn⟩ := h.kept x hx hfolder hnode
      have hkept : (removePaths dir d).lookup (diskPath x ++ [n]) = dir.lookup (diskPath x ++ [n]) := by
        by_contra hremoved
        obtain ⟨y, hy, hpath⟩ := hd.listed_of_removed hremoved
        obtain ⟨hfolder', -⟩ := List.append_inj' hpath rfl
        exact hd.below x hx y.2 (hfolder' ▸ hy) hfolder
      obtain ⟨node, hnode'⟩ := Option.ne_none_iff_exists'.mp (hkept ▸ hn)
      rcases Directory.isDir_of_lookup hnode' with hroot | hdir
      · exact List.append_ne_nil_of_right_ne_nil x.1 (List.cons_ne_nil _ _) hroot
      · rw [hnone] at hdir
        cases hdir
    · rw [show entryOf x.2.name .dir = x.2 from (hd.mark x hx hfolder).symm] at hsnap
      exact hp x hx hsnap rfl

/-- What is removed from a visible path is listed. -/
theorem DeletionsFit.listed_of_changed (hvisible : ∀ k ∈ q ++ [n], ¬ IsHidden k)
    (hnode : dir.lookup (q ++ [n]) = some node)
    (hchanged : (removePaths dir d).lookup (q ++ [n]) ≠ dir.lookup (q ++ [n])) :
    (q, entryOf n node) ∈ d.view.entries := by
  by_contra hlisted
  refine hchanged (h.lookup_unremoved hd fun x hx hsnap hpath => hlisted ?_)
  have hthere := mem_snapshot_of_lookup node hvisible hnode
  have hpath' : diskPath x = diskPath (q, entryOf n node) := by
    rw [hpath]
    unfold diskPath
    rw [entryOf_name]
  rwa [← (wellFormed_filesystemNew dir).eq_of_diskPath hsnap hthere hpath']

/-- What is listed at a visible path is removed. -/
theorem DeletionsFit.lookup_of_listed (hvisible : ∀ k ∈ q ++ [n], ¬ IsHidden k)
    (hnode : dir.lookup (q ++ [n]) = some node) (hlisted : (q, entryOf n node) ∈ d.view.entries) :
    (removePaths dir d).lookup (q ++ [n]) = none := by
  have hgone := h.lookup_removed hd hlisted (mem_snapshot_of_lookup node hvisible hnode)
  unfold diskPath at hgone
  rwa [entryOf_name] at hgone

theorem DeletionsFit.mem_removed : x ∈ (removePaths dir d).filesystemNew.view.entries ↔
    x ∈ dir.filesystemNew.view.entries ∧ x ∉ d.view.entries := by
  constructor
  · intro hx
    obtain ⟨node, hnode, hentry⟩ := lookup_of_mem_snapshot hx
    have hsnap : x ∈ dir.filesystemNew.view.entries :=
      (mem_snapshot_congr (hnode.trans (lookup_of_removePaths hnode).symm)).mp hx
    refine ⟨hsnap, fun hlisted => ?_⟩
    rw [h.lookup_removed hd hlisted hsnap] at hnode
    cases hnode
  · rintro ⟨hsnap, hlisted⟩
    refine (mem_snapshot_congr (h.lookup_unremoved hd fun y hy hysnap hpath => hlisted ?_)).mpr hsnap
    rwa [← (Directory.wellFormed_filesystemNew dir).eq_of_diskPath hysnap hsnap hpath]

theorem DeletionsFit.agree : (removePaths dir d).filesystemNew.view =
    (filesystemMinusEquals dir.filesystemNew d).view := by
  have hsnapshot := wellFormed_filesystemNew dir
  refine Eq.trans ?_ (view_folderRemove hsnapshot.distinct hd.distinct).symm
  refine TreeSet.ext (Set.ext fun x => ?_) (Set.ext fun p => ?_)
  · rw [h.mem_removed hd]
    refine and_congr_right fun hsnap => (and_iff_left_of_imp fun hlisted hcut => hlisted ?_).symm
    obtain ⟨node, hnode, hentry⟩ := lookup_of_mem_snapshot hsnap
    have hcontent := h.listed_of_cut hcut hnode
    rwa [hentry] at hcontent
  · rcases List.eq_nil_or_concat p with rfl | ⟨q, k, rfl⟩
    · exact iff_of_true (mem_nodes_filesystemNew.mpr (Or.inl rfl))
        ⟨mem_nodes_filesystemNew.mpr (Or.inl rfl), TreeSet.not_cut_nil⟩
    · rw [List.concat_eq_append, mem_nodes_filesystemNew, or_iff_right (by simp)]
      constructor
      · rintro ⟨hvisible, hdir⟩
        refine ⟨mem_nodes_filesystemNew.mpr (Or.inr ⟨hvisible, lookup_of_removePaths hdir⟩), fun hcut => ?_⟩
        have hmarked : (q, marker k) ∈ dir.filesystemNew.view.entries :=
          mem_snapshot_of_lookup .dir hvisible (lookup_of_removePaths hdir)
        have hlisted : (q, marker k) ∈ d.view.entries := by
          rcases TreeSet.cut_append_singleton.mp hcut with habove | ⟨m, hsnap, hm, hfolder, rfl⟩
          · exact h.listed_of_cut habove (lookup_of_removePaths hdir)
          · have hmark : m = marker m.name := hd.mark (q, m) hm hfolder
            show (q, marker m.name) ∈ d.view.entries
            rwa [← hmark]
        rw [show q ++ [k] = diskPath (q, marker k) from rfl, h.lookup_removed hd hlisted hmarked] at hdir
        cases hdir
      · rintro ⟨hnode, hcut⟩
        obtain ⟨hvisible, hdir⟩ := (mem_nodes_filesystemNew.mp hnode).resolve_left (by simp)
        refine ⟨hvisible, (h.lookup_unremoved hd fun x hx hsnap hpath => hcut ?_).trans hdir⟩
        have hmarked : (q, marker k) ∈ dir.filesystemNew.view.entries :=
          mem_snapshot_of_lookup .dir hvisible hdir
        obtain rfl := hsnapshot.eq_of_diskPath hsnap hmarked hpath
        exact TreeSet.cut_append_singleton.mpr (Or.inr ⟨marker k, hsnap, hx, marker_isFolder k, rfl⟩)

end Fit

/-- A listed path that is no directory, or one without content, is free afterwards. -/
theorem IsDeletions.lookup_freed (hx : x ∈ d.view.entries)
    (h : dir.lookup (diskPath x) = some .dir → ∀ n, dir.lookup (diskPath x ++ [n]) = none) :
    (removePaths dir d).lookup (diskPath x) = none := by
  refine lookup_removePaths_self (fun y => y = x) hd.distinct hd.legal (fun y _ hy hdir n hn => ?_) hx rfl
  subst hy
  exact absurd (h hdir n) hn

theorem DeletionsFit.of_removesListed (h : RemovesListed dir d) : DeletionsFit dir d := by
  have hgone : ∀ {q n node}, (∀ k ∈ q ++ [n], ¬ IsHidden k) → dir.lookup (q ++ [n]) = some node →
      (removePaths dir d).lookup (q ++ [n]) = none → (q, entryOf n node) ∈ d.view.entries := by
    intro q n node hvisible hnode hnone
    refine h.listed _ (mem_snapshot_of_lookup node hvisible hnode) fun hthere => ?_
    obtain ⟨node', hnode', -⟩ := lookup_of_mem_snapshot hthere
    rw [show diskPath (q, entryOf n node) = q ++ [n] by unfold diskPath; rw [entryOf_name], hnone] at hnode'
    cases hnode'
  constructor
  · intro x hx content mtime hfile
    have hnone := hd.lookup_freed hx fun hdir => by rw [hfile] at hdir; cases hdir
    have hlisted := hgone (hd.visible x hx) hfile hnone
    exact congrArg Prod.snd (hd.unique _ hlisted x hx rfl)
  · intro x hx hfolder hdir n node hnode
    have hmarked : x ∈ dir.filesystemNew.view.entries := by
      have hsnap := hd.mem_snapshot hx .dir hdir
      rwa [show entryOf x.2.name .dir = x.2 from (hd.mark x hx hfolder).symm] at hsnap
    -- a snapshot loses the marker, so the directory has lost the folder and with it the content
    have hnone : (removePaths dir d).lookup (diskPath x ++ [n]) = none := by
      by_contra hsome
      obtain ⟨node', hnode'⟩ := Option.ne_none_iff_exists'.mp hsome
      have hthere := (isDir_of_lookup hnode').resolve_left
        (List.append_ne_nil_of_right_ne_nil x.1 (List.cons_ne_nil _ _))
      have hin := (mem_snapshot_congr (hthere.trans hdir.symm)).mpr hmarked
      rw [h.agree] at hin
      have hleft : x ∈ ((dir.filesystemNew.view).remove fileMarking d.view).entries :=
        view_folderRemove (wellFormed_filesystemNew dir).distinct hd.distinct ▸ hin
      exact hleft.2.1 hx
    obtain ⟨y, hy, hpath⟩ := hd.listed_of_removed (by rw [hnone, hnode]; nofun)
    exact hgone (hpath ▸ hd.visible y hy) hnode hnone
  · intro x hx hfile hdir
    by_contra hempty
    rw [not_exists] at hempty
    have hnone := hd.lookup_freed hx fun _ n => not_not.mp (hempty n)
    have hlisted := hgone (hd.visible x hx) hdir hnone
    have hsame := hd.unique _ hlisted x hx rfl
    rw [← hsame] at hfile
    exact marker_isFolder _ hfile

/-- **Deletions.** The directory loses what a snapshot would lose, and only what is listed, exactly when
the deletions fit. -/
theorem removesListed_iff_fit : RemovesListed dir d ↔ DeletionsFit dir d := by
  refine ⟨.of_removesListed hd, fun h => ⟨h.agree hd, fun x hsnap hgone => ?_⟩⟩
  by_contra hlisted
  exact hgone ((h.mem_removed hd).mpr ⟨hsnap, hlisted⟩)

end Deletions

/-! ## Additions -/

/-- A file that has no chunks: `GetFileAdditions` writes it at once. -/
def File.IsChunkless (e : File) : Prop :=
  e.isFolder = 0 ∧ intOfSize e.size ≠ -1 ∧ numChunksForSize (intOfSize e.size) < 1

theorem addedNode_eq_some (h : addedNode x = some node) :
    node = .dir ∨ x.2.IsChunkless ∧ node = .file [] x.2.lastModified := by
  unfold addedNode itemNode itemOf at h
  dsimp only at h
  by_cases hfolder : x.2.isFolder = 0
  · rw [if_neg (not_not.mpr hfolder), if_neg (not_not.mpr hfolder)] at h
    split_ifs at h with hlength hchunks
    · exact Or.inl (Option.some.inj h).symm
    · exact Or.inr ⟨⟨hfolder, hlength, hchunks⟩, (Option.some.inj h).symm⟩
  · rw [if_pos hfolder, if_pos rfl] at h
    exact Or.inl (Option.some.inj h).symm

theorem addedNode_of_isChunkless (h : x.2.IsChunkless) :
    addedNode x = some (.file [] x.2.lastModified) := by
  obtain ⟨hfile, hlength, hchunks⟩ := h
  unfold addedNode itemNode itemOf
  dsimp only
  rw [if_neg (not_not.mpr hfile), if_neg (not_not.mpr hfile), if_neg hlength, if_pos hchunks]

/-- Every folder into which the additions go is there or added; and where a file without chunks is
added, a folder at its path, and a file at a path above it, is among the deletions. -/
structure AdditionsFit (dir : Directory) (a d : Folder) : Prop where
  folder : ∀ q n, q ++ [n] ∈ a.view.nodes → (q, marker n) ∉ a.view.entries →
    dir.lookup (q ++ [n]) = some .dir
  free : ∀ x ∈ a.view.entries, x.2.IsChunkless → dir.lookup (diskPath x) = some .dir →
    (x.1, marker x.2.name) ∈ d.view.entries
  above : ∀ x ∈ a.view.entries, x.2.IsChunkless → ∀ q n content mtime, q ++ [n] <+: x.1 →
    dir.lookup (q ++ [n]) = some (.file content mtime) →
      (q, entryOf n (.file content mtime)) ∈ d.view.entries

/-- The handling of a diff completes when its two steps that can fail do. -/
theorem receiveDiff_isOk_iff {peer : ℤ} : (∃ r, receiveDiff c a d peer = .ok r) ↔
    (∃ fs, patch (removePaths c.dir d).filesystemNew a d = .ok fs) ∧
      ∃ dir', putEntries addedNode (removePaths c.dir d) a = .ok dir' := by
  constructor
  · rintro ⟨r, h⟩
    unfold receiveDiff at h
    obtain ⟨fs, hfs, h⟩ := bind_eq_ok.mp h
    obtain ⟨st, hget, -⟩ := bind_eq_ok.mp h
    exact ⟨⟨fs, hfs⟩, _, putEntries_of_getFileAdditions hget⟩
  · rintro ⟨⟨fs, hfs⟩, dir', hput⟩
    have hget (ft : FileTable) : getFileAdditions (removePaths c.dir d) ft a =
        .ok (dir', (filesystemIteratorRelative false a).foldl setFile ft) := by
      rw [getFileAdditions_eq, hput]
      rfl
    exact ⟨_, bind_eq_ok.mpr ⟨fs, hfs, bind_eq_ok.mpr ⟨_, hget _, rfl⟩⟩⟩

section Diff

variable (hold : IsTidy old) (hnew : IsTidy new) (hvisible : VisiblePaths new)

include hold hnew

theorem isDiffTree_additions : IsDiffTree (filesystemDiff old new).1 :=
  (hnew.wellFormed.isDiffTree hnew.legal).subtract hold.wellFormed.distinct

include hvisible in
theorem visiblePaths_additions : VisiblePaths (filesystemDiff old new).1 := by
  intro x hx
  rw [(isDiff_additions hold.wellFormed.distinct hnew.wellFormed.distinct).entries_eq] at hx
  exact hvisible x hx.1

variable (hd : IsDeletions (filesystemDiff old new).2) (h : DeletionsFit dir (filesystemDiff old new).2)

include hvisible hd h

/-- A folder of the new tree is not removed. -/
theorem lookup_newFolder (hnode : q ++ [n] ∈ new.view.nodes) (hdir : dir.lookup (q ++ [n]) = some .dir) :
    (removePaths dir (filesystemDiff old new).2).lookup (q ++ [n]) = some .dir := by
  have hmarked : (q, marker n) ∈ new.view.entries := (hnew.wellFormed.view.mark_iff q n).mpr hnode
  by_contra hgone
  have hlisted : (q, marker n) ∈ (filesystemDiff old new).2.view.entries :=
    h.listed_of_changed hd (hvisible (q, marker n) hmarked) hdir fun hsame => hgone (hsame.trans hdir)
  rw [(isDiff_deletions hold.wellFormed.distinct hnew.wellFormed.distinct).entries_eq] at hlisted
  exact hlisted.2 hmarked

/-- `filesystem_plus_equals` fails no assertion when the folders are there. -/
theorem patch_removed_isOk_iff : (∃ fs, patch (removePaths dir (filesystemDiff old new).2).filesystemNew
      (filesystemDiff old new).1 (filesystemDiff old new).2 = .ok fs) ↔
    ∀ q n, q ++ [n] ∈ (filesystemDiff old new).1.view.nodes →
      (q, marker n) ∉ (filesystemDiff old new).1.view.entries → dir.lookup (q ++ [n]) = some .dir := by
  have ha := isDiff_additions hold.wellFormed.distinct hnew.wellFormed.distinct
  have hsnapshot := wellFormed_filesystemNew (removePaths dir (filesystemDiff old new).2)
  have hmark : ∀ q m, (q, m) ∈ (filesystemDiff old new).1.view.entries → m.isFolder ≠ 0 →
      m = marker m.name := by
    intro q m hm
    rw [ha.entries_eq] at hm
    exact hnew.wellFormed.view.mark_of_dir q m hm.1
  rw [patch_isOk_iff hsnapshot.distinct (distinct_additions hnew.wellFormed.distinct) hd.distinct
    (TreeSet.WellFormed.uniqueMarks ha hnew.wellFormed.view),
    TreeSet.remove_of_disjoint fun x hx => ((h.mem_removed hd).mp hx).2]
  constructor
  · intro hadd q n hnode hunmarked
    rcases hadd.found q n hnode with hthere | ⟨m, hm, hfolder, rfl⟩
    · exact lookup_of_removePaths ((mem_nodes_filesystemNew.mp hthere).resolve_left (by simp)).2
    · exact absurd (hmark q m hm hfolder ▸ hm) hunmarked
  · intro hfolders
    refine ⟨fun q m hm hfolder => ?_, fun q m hm hfolder => ?_, fun q n hnode => ?_⟩
    · exact TreeSet.mem_diff_nodes_of_marker hold.wellFormed.view hnew.wellFormed.view ha hm hfolder
    · rw [hmark q m hm hfolder]
      exact hsnapshot.view.mark_iff q m.name
    · by_cases hmarked : (q, marker n) ∈ (filesystemDiff old new).1.view.entries
      · exact Or.inr ⟨marker n, hmarked, marker_isFolder n, rfl⟩
      · have hnode' := ha.nodes_le hnode
        refine Or.inl (mem_nodes_filesystemNew.mpr (Or.inr ⟨?_, ?_⟩))
        · exact hvisible (q, marker n) ((hnew.wellFormed.view.mark_iff q n).mpr hnode')
        · exact lookup_newFolder hold hnew hvisible hd h hnode' (hfolders q n hnode hmarked)

/-- The files without chunks have all been written, so no other node than a deletion was in their way. -/
theorem additionsFit_of_putEntries {dir' : Directory}
    (hfolders : ∀ q n, q ++ [n] ∈ (filesystemDiff old new).1.view.nodes →
      (q, marker n) ∉ (filesystemDiff old new).1.view.entries → dir.lookup (q ++ [n]) = some .dir)
    (hput : putEntries addedNode (removePaths dir (filesystemDiff old new).2) (filesystemDiff old new).1 =
      .ok dir') : AdditionsFit dir (filesystemDiff old new).1 (filesystemDiff old new).2 := by
  have htree := isDiffTree_additions hold hnew
  have hseen := visiblePaths_additions hold hnew hvisible
  have hwritten : ∀ x ∈ (filesystemDiff old new).1.view.entries, x.2.IsChunkless →
      (removePaths dir (filesystemDiff old new).2).lookup (diskPath x) ≠ some .dir ∧
        ∃ node, dir'.lookup (diskPath x) = some node := by
    intro x hx hchunkless
    have hfile := lookup_foldlM_put_file hput ((mem_entryList false htree.distinct).mpr hx)
      (addedNode_of_isChunkless hchunkless)
    rw [itemPath_eq (htree.legal x hx)] at hfile
    exact ⟨hfile.1, hfile.2.imp fun _ h => h.1⟩
  refine ⟨hfolders, fun x hx hchunkless hdir => ?_, fun x hx hchunkless q n content mtime hpre hfile => ?_⟩
  · refine h.listed_of_changed hd (hseen x hx) hdir fun hsame => ?_
    exact (hwritten x hx hchunkless).1 (hsame.trans hdir)
  · refine h.listed_of_changed hd (fun k hk => hseen x hx k (List.mem_append_left _ (hpre.subset hk)))
      hfile fun hsame => ?_
    -- the file would still be there, but the file that has been written lies below it
    obtain ⟨node, hnode, hfit⟩ := fitsOn_of_foldlM_put hput (hsame.trans hfile)
    obtain ⟨node', hnode'⟩ := (hwritten x hx hchunkless).2
    obtain ⟨r, hr⟩ := hpre
    have hdir : dir'.IsDir (q ++ [n]) := by
      rw [diskPath, ← hr, List.append_assoc] at hnode'
      cases r with
      | nil => exact isDir_of_lookup hnode'
      | cons k r => exact isDir_of_append (r ++ [x.2.name]) hnode'
    rw [hdir.resolve_left (by simp)] at hnode
    cases hnode
    cases (hfit _ rfl).mpr rfl

/-- No file is left above a file without chunks. -/
theorem lookup_above_chunkless
    (hfits : AdditionsFit dir (filesystemDiff old new).1 (filesystemDiff old new).2)
    (hx : x ∈ (filesystemDiff old new).1.view.entries) (hchunkless : x.2.IsChunkless)
    (hpre : q ++ [n] <+: x.1) (content : List UInt8) (mtime : Int64) :
    (removePaths dir (filesystemDiff old new).2).lookup (q ++ [n]) ≠ some (.file content mtime) := by
  intro hfile
  have hthere := lookup_of_removePaths hfile
  have hseen : ∀ k ∈ q ++ [n], ¬ IsHidden k := fun k hk =>
    visiblePaths_additions hold hnew hvisible x hx k (List.mem_append_left _ (hpre.subset hk))
  rw [h.lookup_of_listed hd hseen hthere (hfits.above x hx hchunkless q n content mtime hpre hthere)] at hfile
  cases hfile

/-- Nothing is left in the way of a file without chunks, and a folder comes about when no file is on its
path. -/
theorem exists_putEntries_of_additionsFit
    (hfits : AdditionsFit dir (filesystemDiff old new).1 (filesystemDiff old new).2) :
    ∃ dir', putEntries addedNode (removePaths dir (filesystemDiff old new).2) (filesystemDiff old new).1 =
      .ok dir' := by
  have ha := isDiff_additions hold.wellFormed.distinct hnew.wellFormed.distinct
  have htree := isDiffTree_additions hold hnew
  have hloop : ∃ dir', putEntries addedNode (removePaths dir (filesystemDiff old new).2)
      (filesystemDiff old new).1 = .ok dir' ∧ ∀ x ∈ (filesystemDiff old new).1.view.entries,
        (x.2.IsChunkless ∨ x.2.isFolder ≠ 0 ∧ ∀ q n content mtime, q ++ [n] <+: diskPath x →
          (removePaths dir (filesystemDiff old new).2).lookup (q ++ [n]) ≠ some (.file content mtime)) →
        ∀ node, addedNode x = some node → dir'.lookup (diskPath x) = some node := by
    refine exists_putEntries htree.distinct htree.legal (fun x hx hbad node hnode => ?_)
      (fun x hx y hy hpath node node' hnode hnode' => ?_) (fun x hx hgood node hnode => ?_)
      fun x hx hgood _ => ?_
    · exact (addedNode_eq_some hnode).resolve_right fun hfile => hbad (Or.inl hfile.1)
    · rw [htree.unique x hx y hy hpath, hnode'] at hnode
      exact (Option.some.inj hnode).symm
    · rcases hgood with hchunkless | ⟨hfolder, hfree⟩
      · rw [addedNode_of_isChunkless hchunkless] at hnode
        cases hnode
        refine fun node hthere => iff_of_false ?_ nofun
        rintro rfl
        have hdir := lookup_of_removePaths hthere
        rw [show diskPath x = x.1 ++ [x.2.name] from rfl, h.lookup_of_listed hd
          (visiblePaths_additions hold hnew hvisible x hx) hdir (hfits.free x hx hchunkless hdir)] at hthere
        cases hthere
      · rw [addedNode_of_isFolder hfolder] at hnode
        cases hnode
        intro node hthere
        cases node with
        | dir => exact Iff.rfl
        | file content mtime => exact absurd hthere (hfree x.1 x.2.name content mtime (List.prefix_refl _))
    · have hnode := ha.holds x.1 x.2 hx
      rcases List.eq_nil_or_concat x.1 with hroot | ⟨q, n, hparent⟩
      · exact Or.inl (Or.inl hroot)
      · rw [List.concat_eq_append] at hparent
        rw [hparent] at hnode ⊢
        by_cases hmarked : (q, marker n) ∈ (filesystemDiff old new).1.view.entries
        · refine Or.inr ⟨(q, marker n), hmarked,
            Or.inr ⟨marker_isFolder n, fun q' n' content mtime hpre => ?_⟩,
            marker_isFolder n, addedNode_of_isFolder (marker_isFolder n), rfl⟩
          have hpre' : q' ++ [n'] <+: x.1 := hparent ▸ hpre
          rcases hgood with hchunkless | ⟨-, hfree⟩
          · exact lookup_above_chunkless hold hnew hvisible hd h hfits hx hchunkless hpre' content mtime
          · exact hfree q' n' content mtime (hpre'.trans (List.prefix_append _ _))
        · exact Or.inl (Or.inr (lookup_newFolder hold hnew hvisible hd h (ha.nodes_le hnode)
            (hfits.folder q n hnode hmarked)))
  exact hloop.imp fun _ hput => hput.1

end Diff

/-! ## The handling of a diff -/

/-- The handling of a diff completes, loses of the directory what a snapshot would lose and only what is
listed, and leaves every path alone that is not named. -/
structure AppliesDiff (c : Client) (a d : Folder) (peer : ℤ) : Prop where
  completes : ∃ r, receiveDiff c a d peer = .ok r
  removes : RemovesListed c.dir d
  frame : ∀ r, receiveDiff c a d peer = .ok r → ∀ p,
    (∀ x ∈ a.view.entries ∪ d.view.entries, diskPath x ≠ p) → r.1.dir.lookup p = c.dir.lookup p

theorem lookup_receiveDiff {peer : ℤ} {r : Client × List ClientMessage} (ha : IsDiffTree a)
    (hd : IsDeletions d) (h : receiveDiff c a d peer = .ok r)
    (hp : ∀ x ∈ a.view.entries ∪ d.view.entries, diskPath x ≠ p) : r.1.dir.lookup p = c.dir.lookup p := by
  obtain ⟨rand, hget, -⟩ := receiveDiff_ok h
  have hadded : r.1.dir.lookup p = (removePaths c.dir d).lookup p := by
    refine (putEntries_ok ha.distinct ha.legal (putEntries_of_getFileAdditions hget) p).resolve_right ?_
    rintro ⟨x, hx, hpath, -⟩
    exact hp x (Or.inl hx) hpath
  rw [hadded]
  by_contra hremoved
  obtain ⟨x, hx, hpath⟩ := hd.listed_of_removed hremoved
  exact hp x (Or.inr hx) hpath

/-- **Diffs.** A client with any directory applies a diff that another client has computed exactly when
its deletions and then its additions fit. -/
theorem appliesDiff_iff (c : Client) (old new : Folder) (peer : ℤ) (hold : IsTidy old)
    (hvold : VisiblePaths old) (hnew : IsTidy new) (hvnew : VisiblePaths new) :
    AppliesDiff c (filesystemDiff old new).1 (filesystemDiff old new).2 peer ↔
      DeletionsFit c.dir (filesystemDiff old new).2 ∧
        AdditionsFit c.dir (filesystemDiff old new).1 (filesystemDiff old new).2 := by
  have hd := isDeletions_filesystemDiff hold hvold hnew.wellFormed.distinct
  constructor
  · rintro ⟨hcompletes, hremoves, -⟩
    have hfit := DeletionsFit.of_removesListed hd hremoves
    obtain ⟨hpatch, dir', hput⟩ := receiveDiff_isOk_iff.mp hcompletes
    have hfolders := (patch_removed_isOk_iff hold hnew hvnew hd hfit).mp hpatch
    exact ⟨hfit, additionsFit_of_putEntries hold hnew hvnew hd hfit hfolders hput⟩
  · rintro ⟨hfit, hadd⟩
    refine ⟨receiveDiff_isOk_iff.mpr ⟨?_, ?_⟩, (removesListed_iff_fit hd).mpr hfit, fun r hr p hp => ?_⟩
    · exact (patch_removed_isOk_iff hold hnew hvnew hd hfit).mpr hadd.folder
    · exact exists_putEntries_of_additionsFit hold hnew hvnew hd hfit hadd
    · exact lookup_receiveDiff (isDiffTree_additions hold hnew) hd hr hp

/-! ## An edited file -/

namespace ApplyDiffExample

/-- A tree with one file `a` of one byte. -/
def oneByte : Folder := ⟨.empty, [⟨.ofBytes [97], 1, 5, 0⟩], []⟩

theorem hasRoom_empty : Directory.empty.HasRoom [.ofBytes [97]] := by decide

/-- The directory in which the user has made the file longer. -/
def edited : Directory := Directory.empty.insert [.ofBytes [97]] (.file [1, 2] 9) hasRoom_empty

def client (dir : Directory) : Client := .initial dir filetableNew 0 fun _ => 0

theorem visiblePaths_of_test {fs : Folder} (hfs : fs.Distinct)
    (h : ∀ x ∈ entryList false fs, ∀ n ∈ diskPath x, ¬ IsHidden n) : VisiblePaths fs :=
  fun x hx => h x ((mem_entryList false hfs).mpr hx)

theorem isTidy_oneByte : IsTidy oneByte := ⟨by decide, legalPaths_of_named (by decide)⟩

theorem isTidy_empty : IsTidy emptyFilesystem := ⟨by decide, legalPaths_of_named (by decide)⟩

theorem visiblePaths_oneByte : VisiblePaths oneByte :=
  visiblePaths_of_test isTidy_oneByte.wellFormed.distinct (by decide)

theorem visiblePaths_empty : VisiblePaths emptyFilesystem :=
  visiblePaths_of_test isTidy_empty.wellFormed.distinct (by decide)

end ApplyDiffExample

open ApplyDiffExample

theorem appliesDiff_iff_edited :
    AppliesDiff (client edited) (filesystemDiff oneByte emptyFilesystem).1
        (filesystemDiff oneByte emptyFilesystem).2 2 ↔
      DeletionsFit edited (filesystemDiff oneByte emptyFilesystem).2 ∧
        AdditionsFit edited (filesystemDiff oneByte emptyFilesystem).1
          (filesystemDiff oneByte emptyFilesystem).2 :=
  appliesDiff_iff (client edited) oneByte emptyFilesystem 2 isTidy_oneByte visiblePaths_oneByte
    isTidy_empty visiblePaths_empty

/-- The edited file is removed with the version that the diff deletes. -/
theorem not_appliesDiff_edited :
    (IsTidy oneByte ∧ VisiblePaths oneByte) ∧ (IsTidy emptyFilesystem ∧ VisiblePaths emptyFilesystem) ∧
    ¬ AppliesDiff (client edited) (filesystemDiff oneByte emptyFilesystem).1
        (filesystemDiff oneByte emptyFilesystem).2 2 ∧
      (removePaths edited (filesystemDiff oneByte emptyFilesystem).2).lookup [.ofBytes [97]] = none ∧
      (filesystemMinusEquals edited.filesystemNew (filesystemDiff oneByte emptyFilesystem).2).files =
        [⟨.ofBytes [97], 2, 9, 0⟩] := by
  refine ⟨⟨isTidy_oneByte, visiblePaths_oneByte⟩, ⟨isTidy_empty, visiblePaths_empty⟩, fun h => ?_,
    by decide, by decide⟩
  have hd := isDeletions_filesystemDiff isTidy_oneByte visiblePaths_oneByte isTidy_empty.wellFormed.distinct
  have hlisted : ([], ⟨.ofBytes [97], 1, 5, 0⟩) ∈ (filesystemDiff oneByte emptyFilesystem).2.view.entries :=
    ⟨_, rfl, by decide⟩
  have hfile := (DeletionsFit.of_removesListed hd h.removes).file _ hlisted [1, 2] 9 (by decide)
  exact absurd (congrArg File.size hfile) (by decide)

end DartSync
