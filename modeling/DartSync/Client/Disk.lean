import DartSync.Client.Steps
import DartSync.Directory.Put
import DartSync.FileSystem.Order

/-!
# The loops over the directory

`removePaths` removes what a tree lists, the content of a folder before the folder; `makeFolders`
makes the folders of a tree, each after the folder it lies in. Neither touches a
path that the tree does not list.
-/

namespace DartSync

variable {dir : Directory} {ft : FileTable} {d a : Folder} {p q : List CString} {n : CString}
  {x : List CString × File} {e : File} {α : Type*}

namespace Directory

/-- Removing paths leaves what is at a path or nothing. -/
theorem lookup_foldl_remove_or (path : α → List CString) (l : List α) :
    (l.foldl (fun dir x => dir.remove (path x)) dir).lookup q = dir.lookup q ∨
      (l.foldl (fun dir x => dir.remove (path x)) dir).lookup q = none := by
  induction l generalizing dir with
  | nil => exact Or.inl rfl
  | cons x l ih =>
    rw [List.foldl_cons]
    have hx : (dir.remove (path x)).lookup q = dir.lookup q ∨
        (dir.remove (path x)).lookup q = none := by
      by_cases hq : q = path x
      · unfold remove
        split_ifs
        · rw [lookup_erase, if_pos hq]
          exact Or.inr rfl
        · exact Or.inl rfl
      · exact Or.inl (lookup_remove_of_ne hq)
    exact ih.elim (fun h => by rw [h]; exact hx) Or.inr

theorem lookup_foldl_remove_of_ne (path : α → List CString) {l : List α}
    (h : ∀ x ∈ l, path x ≠ q) :
    (l.foldl (fun dir x => dir.remove (path x)) dir).lookup q = dir.lookup q := by
  induction l generalizing dir with
  | nil => rfl
  | cons x l ih =>
    rw [List.foldl_cons, ih fun y hy => h y (List.mem_cons_of_mem x hy),
      lookup_remove_of_ne (h x List.mem_cons_self).symm]

/-- A good path goes when the content of its directory is good and comes before it. -/
theorem lookup_foldl_remove_self (path : α → List CString) (good : α → Prop) {l : List α}
    (h : ∀ l1 x l2, l = l1 ++ x :: l2 → good x → dir.lookup (path x) = some .dir →
      ∀ n, dir.lookup (path x ++ [n]) ≠ none → ∃ y ∈ l1, good y ∧ path y = path x ++ [n]) :
    ∀ x ∈ l, good x → (l.foldl (fun dir x => dir.remove (path x)) dir).lookup (path x) = none := by
  induction l using List.reverseRecOn with
  | nil => exact fun _ hx => absurd hx List.not_mem_nil
  | append_singleton l x ih =>
    have hgone := ih fun l1 y l2 hl => h l1 y (l2 ++ [x]) (by rw [hl]; simp)
    rw [List.foldl_append, List.foldl_cons, List.foldl_nil]
    set dir' := l.foldl (fun dir x => dir.remove (path x)) dir with hdir'
    have hx : good x → (dir'.remove (path x)).lookup (path x) = none := by
      intro hgood
      refine lookup_remove_self ?_
      by_contra hstuck
      rw [not_or, not_not] at hstuck
      obtain ⟨hisdir, hcontent⟩ := hstuck
      refine hcontent fun y hy hparent => ?_
      by_contra hne
      obtain ⟨m, hm⟩ : ∃ m, y.1 = path x ++ [m] :=
        ⟨y.1.getLast hne, by rw [← hparent, List.dropLast_concat_getLast]⟩
      have hlook : dir'.lookup (path x ++ [m]) ≠ none := by
        rw [← hm, lookup_eq_some.mpr (show (y.1, y.2) ∈ dir'.nodes from hy)]
        exact Option.some_ne_none _
      -- what is still there was there, so it is listed before and has been removed
      have hbefore : ∀ q, dir'.lookup q ≠ none → dir'.lookup q = dir.lookup q := fun q hq =>
        (lookup_foldl_remove_or path l).resolve_right hq
      obtain ⟨z, hz, hgoodz, hpath⟩ := h l x [] rfl hgood
        (by rw [← hbefore _ (by rw [hisdir]; nofun), hisdir]) m (by rw [← hbefore _ hlook]; exact hlook)
      exact hlook (hpath ▸ hgone z hz hgoodz)
    intro y hy hgood
    rcases List.mem_append.mp hy with hy | hy
    · exact (lookup_foldl_remove_or path [x]).elim (fun hsame => hsame.trans (hgone y hy hgood)) id
    · obtain rfl := List.mem_singleton.mp hy
      exact hx hgood

end Directory

/-! ## Entries on disk -/

/-- The path of an entry in the directory. -/
def diskPath (x : List CString × File) : List CString := x.1 ++ [x.2.name]

theorem diskPath_inj {y : List CString × File} :
    diskPath x = diskPath y ↔ x.1 = y.1 ∧ x.2.name = y.2.name := by
  constructor
  · intro h
    obtain ⟨hfolder, hname⟩ := List.append_inj' h rfl
    exact ⟨hfolder, by simpa using hname⟩
  · rintro ⟨hfolder, hname⟩
    unfold diskPath
    rw [hfolder, hname]

/-- Every name on the path of an entry is legal. -/
def LegalPaths (d : Folder) : Prop := ∀ x ∈ d.view.entries, ∀ n ∈ diskPath x, IsName n

theorem legalPaths_of_named (hd : d.Named) : LegalPaths d := by
  rintro ⟨q, e⟩ he n hn
  obtain ⟨hq, hname⟩ := hd.of_mem_entries he
  rcases List.mem_append.mp hn with hn | hn
  · exact hq n hn
  · rw [List.mem_singleton.mp hn]
    exact hname

/-- A tree as a diff lists it: no folder twice, legal names, and one entry at a path. -/
structure IsDiffTree (fs : Folder) : Prop where
  distinct : fs.Distinct
  legal : LegalPaths fs
  unique : ∀ x ∈ fs.view.entries, ∀ y ∈ fs.view.entries, diskPath x = diskPath y → x = y

theorem Folder.WellFormed.eq_of_diskPath (hd : d.WellFormed) {y : List CString × File}
    (hx : x ∈ d.view.entries) (hy : y ∈ d.view.entries) (h : diskPath x = diskPath y) : x = y := by
  obtain ⟨hfolder, hname⟩ := diskPath_inj.mp h
  obtain ⟨q, e⟩ := x
  obtain ⟨q', e'⟩ := y
  obtain rfl : q = q' := hfolder
  rw [hd.view.unique q e e' hx hy hname]

theorem Folder.WellFormed.isDiffTree (hd : d.WellFormed) (hlegal : LegalPaths d) : IsDiffTree d :=
  ⟨hd.distinct, hlegal, fun _ hx _ hy => hd.eq_of_diskPath hx hy⟩

/-- What is left of such a tree is one. -/
theorem IsDiffTree.subtract {s : Folder} (hd : IsDiffTree d) (hs : s.Distinct) :
    IsDiffTree (folderSubtract fileEquals d s) := by
  have hsub : ∀ x ∈ (folderSubtract fileEquals d s).view.entries, x ∈ d.view.entries := by
    rw [entries_folderSubtract hd.distinct hs]
    exact fun x hx => hx.1
  exact ⟨hd.distinct.subtract, fun x hx => hd.legal x (hsub x hx),
    fun x hx y hy => hd.unique x (hsub x hx) y (hsub y hy)⟩

/-- The path to which the item of an entry leads. -/
def itemPath (x : List CString × File) : List CString :=
  resolve (itemOf (joinPath .empty x.1) x.2).path

theorem itemPath_eq (hx : ∀ n ∈ diskPath x, IsName n) : itemPath x = diskPath x := by
  show resolve (addStrings [joinPath .empty x.1, .slash, x.2.name]) = _
  rw [← joinPath_append_singleton]
  exact resolve_joinPath hx

/-- The paths that a loop over a tree visits are those of its entries. -/
theorem resolve_ne_of_mem {fileFirst : Bool} (hd : d.Distinct) (hlegal : LegalPaths d)
    (hp : ∀ x ∈ d.view.entries, diskPath x ≠ p) :
    ∀ item ∈ filesystemIteratorRelative fileFirst d, resolve item.path ≠ p := by
  intro item hitem
  obtain ⟨q, e, he, rfl⟩ := (mem_filesystemIterator hd).mp hitem
  show itemPath (q, e) ≠ p
  rw [itemPath_eq (hlegal _ he)]
  exact hp _ he

/-! ## Removing -/

theorem lookup_removePaths_of_ne
    (h : ∀ item ∈ filesystemIteratorRelative true d, resolve item.path ≠ p) :
    (removePaths dir d).lookup p = dir.lookup p :=
  Directory.lookup_foldl_remove_of_ne (fun item : IteratorItem => resolve item.path) h

theorem removePaths_eq (dir : Directory) (d : Folder) : removePaths dir d =
    (entryList true d).foldl (fun dir y => dir.remove (itemPath y)) dir := by
  unfold removePaths
  rw [filesystemIteratorRelative_eq, List.foldl_map]
  rfl

/-- Every good entry goes, when its path is free of content that is not a good entry. -/
theorem lookup_removePaths_self (good : List CString × File → Prop) (hd : d.Distinct)
    (hlegal : LegalPaths d)
    (hdisk : ∀ x ∈ d.view.entries, good x → dir.lookup (diskPath x) = some .dir →
      ∀ n, dir.lookup (diskPath x ++ [n]) ≠ none → x.2.isFolder ≠ 0 ∧
        ∃ e, (diskPath x, e) ∈ d.view.entries ∧ good (diskPath x, e) ∧ e.name = n)
    (hx : x ∈ d.view.entries) (hgood : good x) : (removePaths dir d).lookup (diskPath x) = none := by
  have hpath : ∀ y ∈ entryList true d, itemPath y = diskPath y := fun y hy =>
    itemPath_eq (hlegal y ((mem_entryList true hd).mp hy))
  have hmem := (mem_entryList true hd).mpr hx
  rw [removePaths_eq, ← hpath x hmem]
  refine Directory.lookup_foldl_remove_self itemPath good (fun l1 y l2 hl hgoody hdir n hn => ?_) x hmem
    hgood
  have hy : y ∈ entryList true d := by rw [hl]; simp
  rw [hpath y hy] at hdir hn ⊢
  obtain ⟨hfolder, e, he, hgoode, rfl⟩ := hdisk y ((mem_entryList true hd).mp hy) hgoody hdir n hn
  have he' := (mem_entryList true hd).mpr he
  refine ⟨_, ?_, hgoode, hpath _ he'⟩
  -- the entry is listed, and neither at `y` nor after it
  have horder := pairwise_entryList_true hd
  rw [hl, List.pairwise_append, List.pairwise_cons] at horder
  rw [hl] at he'
  rcases List.mem_append.mp he' with h | h
  · exact h
  · rcases List.mem_cons.mp h with h | h
    · have := congrArg (fun z => z.1.length) h
      simp [diskPath] at this
    · exact absurd ⟨hfolder, List.prefix_refl _⟩ (horder.2.1.1 _ h)

/-! ## Additions -/

/-- A loop over the additions that puts `make` of each entry at its path. -/
def putEntries (make : List CString × File → Option Node) (dir : Directory) (a : Folder) :
    Except Abort Directory :=
  (entryList false a).foldlM (fun dir x => dir.put (itemPath x) (make x)) dir

/-- The folder of an entry is listed before it. -/
theorem listed_before {l1 l2 : List (List CString × File)} {y : List CString × File} (ha : a.Distinct)
    (hl : entryList false a = l1 ++ x :: l2) (hy : y ∈ a.view.entries) (hfolder : y.2.isFolder ≠ 0)
    (hpath : diskPath y = x.1) : y ∈ l1 := by
  have horder := pairwise_entryList_false ha
  have hlisted := (mem_entryList false ha).mpr hy
  rw [hl, List.pairwise_append, List.pairwise_cons] at horder
  rw [hl] at hlisted
  rcases List.mem_append.mp hlisted with h | h
  · exact h
  · rcases List.mem_cons.mp h with rfl | h
    · have := congrArg List.length hpath
      simp [diskPath] at this
    · exact absurd ⟨hfolder, hpath ▸ List.prefix_refl _⟩ (horder.2.1.1 y h)

section Put

variable {make : List CString × File → Option Node} {dir' : Directory} (ha : a.Distinct)
  (hlegal : LegalPaths a)

include ha hlegal

/-- After the loop a path is as it was or has what was put there. -/
theorem putEntries_ok (h : putEntries make dir a = .ok dir') (p : List CString) :
    dir'.lookup p = dir.lookup p ∨ ∃ x ∈ a.view.entries, diskPath x = p ∧
      ∃ node, make x = some node ∧ dir'.lookup p = some node ∧ node.FitsOn (dir.lookup p) := by
  refine (Directory.foldlM_put_ok h p).imp id fun ⟨x, hx, hpath, hput⟩ => ?_
  have hx' := (mem_entryList false ha).mp hx
  exact ⟨x, hx', (itemPath_eq (hlegal x hx')).symm.trans hpath, hput⟩

/-- The loop puts every good entry, when it fits and lies in a folder that exists or is put. -/
theorem exists_putEntries {good : List CString × File → Prop}
    (hbad : ∀ x ∈ a.view.entries, ¬ good x → ∀ node, make x = some node → node = .dir)
    (hsame : ∀ x ∈ a.view.entries, ∀ y ∈ a.view.entries, diskPath x = diskPath y →
      ∀ node node', make x = some node → make y = some node' → node = node')
    (hfit : ∀ x ∈ a.view.entries, good x → ∀ node, make x = some node →
      node.FitsOn (dir.lookup (diskPath x)))
    (hparent : ∀ x ∈ a.view.entries, good x → make x ≠ none → dir.IsDir x.1 ∨
      ∃ y ∈ a.view.entries, good y ∧ y.2.isFolder ≠ 0 ∧ make y = some .dir ∧ diskPath y = x.1) :
    ∃ dir', putEntries make dir a = .ok dir' ∧ ∀ x ∈ a.view.entries, good x → ∀ node,
      make x = some node → dir'.lookup (diskPath x) = some node := by
  have hmem : ∀ x ∈ entryList false a, x ∈ a.view.entries := fun x hx => (mem_entryList false ha).mp hx
  have hpath : ∀ x ∈ a.view.entries, itemPath x = diskPath x := fun x hx => itemPath_eq (hlegal x hx)
  have hloop : ∃ dir', putEntries make dir a = .ok dir' ∧ ∀ x ∈ entryList false a, good x →
      ∀ node, make x = some node → dir'.lookup (itemPath x) = some node :=
    Directory.exists_foldlM_put (fun x hx => hbad x (hmem x hx))
    (fun x hx y hy h => hsame x (hmem x hx) y (hmem y hy)
      ((hpath x (hmem x hx)).symm.trans (h.trans (hpath y (hmem y hy)))))
    (fun x hx hgood node hmake => by
      rw [hpath x (hmem x hx)]
      exact ⟨by simp [diskPath], hlegal x (hmem x hx), hfit x (hmem x hx) hgood node hmake⟩)
    (fun l1 x l2 hl hgood hmake => by
      have hx : x ∈ a.view.entries := hmem x (by rw [hl]; simp)
      rw [hpath x hx, show (diskPath x).dropLast = x.1 from List.dropLast_concat]
      refine (hparent x hx hgood hmake).imp id fun ⟨y, hy, hgoody, hfolder, hmakey, hyx⟩ => ?_
      exact ⟨y, listed_before ha hl hy hfolder hyx, hgoody, hmakey, (hpath y hy).trans hyx⟩)
  obtain ⟨dir', hok, hput⟩ := hloop
  refine ⟨dir', hok, fun x hx hgood node hmake => ?_⟩
  rw [← hpath x hx]
  exact hput x ((mem_entryList false ha).mpr hx) hgood node hmake

end Put

/-! ## Making folders -/

/-- The directory after the folders of the additions have been made. -/
def makeFolders (dir : Directory) (additions : Folder) : Directory :=
  ((filesystemIteratorRelative false additions).filter fun item => item.length = -1).foldl
    (fun dir item => dir.mkdir (resolve item.path)) dir

theorem prepareAdditions_fst : (prepareAdditions dir ft a).1 = makeFolders dir a := by
  unfold prepareAdditions makeFolders
  induction filesystemIteratorRelative false a generalizing dir ft with
  | nil => rfl
  | cons item items ih =>
    rw [List.foldl_cons, List.filter_cons]
    unfold prepareAddition
    by_cases h : item.length = -1
    · rw [if_pos h, if_pos (decide_eq_true h), List.foldl_cons]
      exact ih
    · rw [if_neg h, if_neg (by simpa using h)]
      exact ih

/-- The file that a turn of either loop over the additions gives to an entry of the table. -/
def setFile (ft : FileTable) (item : IteratorItem) : FileTable :=
  if item.length = -1 then ft else filetableSetChunkyfile ft item.path (some (writerOf item))

theorem prepareAdditions_snd :
    (prepareAdditions dir ft a).2 = (filesystemIteratorRelative false a).foldl setFile ft := by
  unfold prepareAdditions
  induction filesystemIteratorRelative false a generalizing dir ft with
  | nil => rfl
  | cons item items ih =>
    rw [List.foldl_cons, List.foldl_cons]
    unfold prepareAddition setFile
    by_cases h : item.length = -1
    · rw [if_pos h, if_pos h]
      exact ih
    · rw [if_neg h, if_neg h]
      exact ih

/-- What `UpdateLocalFilesystem` makes of an addition on disk. -/
def folderNode (x : List CString × File) : Option Node :=
  if (itemOf (joinPath .empty x.1) x.2).length = -1 then some .dir else none

theorem folderNode_eq_dir {node : Node} (h : folderNode x = some node) : node = .dir := by
  unfold folderNode at h
  split_ifs at h
  exact (Option.some.inj h).symm

theorem folderNode_of_isFolder (h : x.2.isFolder ≠ 0) : folderNode x = some .dir := if_pos (if_pos h)

theorem putEntries_folderNode : putEntries folderNode dir a = .ok (makeFolders dir a) := by
  unfold putEntries makeFolders
  rw [filesystemIteratorRelative_eq]
  induction entryList false a generalizing dir with
  | nil => rfl
  | cons x l ih =>
    rw [List.foldlM_cons, List.map_cons, List.filter_cons]
    unfold folderNode
    by_cases h : (itemOf (joinPath .empty x.1) x.2).length = -1
    · rw [if_pos h, if_pos (decide_eq_true h), List.foldl_cons]
      exact ih
    · rw [if_neg h, if_neg (by simpa using h)]
      exact ih

theorem lookup_makeFolders_of_ne
    (h : ∀ item ∈ filesystemIteratorRelative false a, item.length = -1 → resolve item.path ≠ p) :
    (makeFolders dir a).lookup p = dir.lookup p := by
  refine (Directory.foldlM_put_ok putEntries_folderNode p).resolve_right ?_
  rintro ⟨x, hx, hpath, node, hnode, -⟩
  unfold folderNode at hnode
  split_ifs at hnode with hlength
  refine h _ ?_ hlength hpath
  rw [filesystemIteratorRelative_eq]
  exact List.mem_map_of_mem hx

/-- Every folder listed is made, when each lies in a folder that exists or is listed. -/
theorem lookup_makeFolders_self (ha : a.Distinct) (hlegal : LegalPaths a)
    (hfit : ∀ x ∈ a.view.entries, x.2.isFolder ≠ 0 → Node.dir.FitsOn (dir.lookup (diskPath x)))
    (hparent : ∀ x ∈ a.view.entries, x.2.isFolder ≠ 0 → dir.IsDir x.1 ∨
      ∃ y ∈ a.view.entries, y.2.isFolder ≠ 0 ∧ diskPath y = x.1)
    (hx : x ∈ a.view.entries) (hfolder : x.2.isFolder ≠ 0) :
    (makeFolders dir a).lookup (diskPath x) = some .dir := by
  have hloop : ∃ dir', putEntries folderNode dir a = .ok dir' ∧ ∀ y ∈ a.view.entries, y.2.isFolder ≠ 0 →
      ∀ node, folderNode y = some node → dir'.lookup (diskPath y) = some node :=
    exists_putEntries ha hlegal (fun _ _ _ _ hmake => folderNode_eq_dir hmake)
    (fun _ _ _ _ _ _ _ h h' => (folderNode_eq_dir h).trans (folderNode_eq_dir h').symm)
    (fun y hy hyf node hmake => folderNode_eq_dir hmake ▸ hfit y hy hyf)
    (fun y hy hyf _ => (hparent y hy hyf).imp id fun ⟨z, hz, hzf, hzy⟩ =>
      ⟨z, hz, hzf, hzf, folderNode_of_isFolder hzf, hzy⟩)
  obtain ⟨dir', hok, hput⟩ := hloop
  obtain rfl : makeFolders dir a = dir' := Except.ok.inj (putEntries_folderNode.symm.trans hok)
  exact hput x hx hfolder .dir (folderNode_of_isFolder hfolder)

/-! ## Making folders and empty files -/

/-- What a turn of the loop of `GetFileAdditions` puts on disk. -/
def itemNode (item : IteratorItem) : Option Node :=
  if item.length = -1 then some .dir
  else if numChunksForSize item.length < 1 then some (.file [] item.modTime) else none

/-- What `GetFileAdditions` makes of an addition on disk. -/
def addedNode (x : List CString × File) : Option Node := itemNode (itemOf (joinPath .empty x.1) x.2)

theorem addedNode_of_isFolder {x : List CString × File} (h : x.2.isFolder ≠ 0) :
    addedNode x = some .dir := if_pos (if_pos h)

theorem nonpos_of_numChunksForSize {size : ℤ} (h : numChunksForSize size < 1) : size ≤ 0 := by
  by_contra hpos
  rw [numChunksForSize_of_nonneg (by omega)] at h
  omega

theorem getFileAddition_eq (st : Directory × FileTable) (item : IteratorItem) :
    getFileAddition st item = (st.1.put (resolve item.path) (itemNode item)).map
      fun dir => (dir, setFile st.2 item) := by
  unfold getFileAddition setFile itemNode
  by_cases hfolder : item.length = -1
  · rw [if_pos hfolder, if_pos hfolder, if_pos hfolder]
    rfl
  · rw [if_neg hfolder, if_neg hfolder, if_neg hfolder]
    show (if numChunksForSize item.length < 1 then _ else _) = _
    by_cases hempty : numChunksForSize item.length < 1
    · rw [if_pos hempty, if_pos hempty]
      have hwrite : chunkyfileWrite st.1 (writerOf item) =
          st.1.write (resolve item.path) [] item.modTime := by
        show st.1.write _ (List.take item.length.toNat _) _ = _
        rw [Int.toNat_of_nonpos (nonpos_of_numChunksForSize hempty), List.take_zero]
        rfl
      show (chunkyfileWrite st.1 (writerOf item) >>= fun dir => pure _) = _
      rw [hwrite]
      show _ = (st.1.write (resolve item.path) [] item.modTime).map _
      cases st.1.write (resolve item.path) [] item.modTime <;> rfl
    · rw [if_neg hempty, if_neg hempty]
      rfl

/-- The directory and the table go their own ways through the loop. -/
theorem getFileAdditions_eq : getFileAdditions dir ft a = (putEntries addedNode dir a).map
    fun dir => (dir, (filesystemIteratorRelative false a).foldl setFile ft) := by
  unfold getFileAdditions putEntries
  rw [filesystemIteratorRelative_eq]
  induction entryList false a generalizing dir ft with
  | nil => rfl
  | cons x l ih =>
    rw [List.map_cons, List.foldlM_cons, List.foldlM_cons, List.foldl_cons, getFileAddition_eq]
    show ((dir.put (itemPath x) (addedNode x)).map _ >>= _) = _
    cases dir.put (itemPath x) (addedNode x) with
    | error => rfl
    | ok dir1 => exact ih

theorem putEntries_of_getFileAdditions {dir' : Directory} {ft' : FileTable}
    (h : getFileAdditions dir ft a = .ok (dir', ft')) :
    putEntries addedNode dir a = .ok dir' := by
  rw [getFileAdditions_eq] at h
  cases hput : putEntries addedNode dir a with
  | error => rw [hput] at h; cases h
  | ok dir1 =>
    rw [hput] at h
    cases h
    rfl

end DartSync
