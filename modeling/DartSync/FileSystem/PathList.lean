import DartSync.FileSystem.Order

/-!
# The iterator of a tree

The two recursions of `FileSystem.c` that fill the queue of an iterator. Each pushes the entries of
one kind at once, lets the folders fill the queue further, and appends the entries of the other kind,
which it has kept in a queue of its own, at the end. What a loop over the iterator then sees is
described by the entries of the tree (`filesystemiterator_yields`).
-/

namespace DartSync

/-! ## Filling the queue -/

mutual

/-- `filesystem_get_path_list_file_first`, which adds to `file_list` -/
def pathListFileFirst (path : CString) (fileList : List File) : Folder → List File
  | ⟨_, files, folders⟩ =>
    let st := files.foldl (fun st file => if file.isFolder = 0 then (st.1 ++ [listed path file], st.2)
      else (st.1, st.2 ++ [listed path file])) (fileList, [])
    pathListsFileFirst path st.1 folders ++ st.2

/-- Its loop over the folders. -/
def pathListsFileFirst (path : CString) (fileList : List File) : List Folder → List File
  | [] => fileList
  | folder :: rest =>
    let nextPath := addStrings [path, .slash, folder.name]
    pathListsFileFirst path (pathListFileFirst nextPath fileList folder) rest

end

mutual

/-- `filesystem_get_path_list_folder_first`, which adds to `file_list` -/
def pathListFolderFirst (path : CString) (fileList : List File) : Folder → List File
  | ⟨_, files, folders⟩ =>
    let st := files.foldl (fun st file => if file.isFolder = 0 then (st.1, st.2 ++ [listed path file])
      else (st.1 ++ [listed path file], st.2)) (fileList, [])
    pathListsFolderFirst path st.1 folders ++ st.2

/-- Its loop over the folders. -/
def pathListsFolderFirst (path : CString) (fileList : List File) : List Folder → List File
  | [] => fileList
  | folder :: rest =>
    let nextPath := addStrings [path, .slash, folder.name]
    pathListsFolderFirst path (pathListFolderFirst nextPath fileList folder) rest

end

/-- `_FileSystemIterator` -/
structure FileSystemIterator where
  fileList : List File
  prevFile : Option File

/-- `filesystemiterator_new` -/
def filesystemiteratorNew (filesystem : Folder) (rootPath : CString) (fileFirst : Bool) :
    FileSystemIterator where
  fileList := if fileFirst then pathListFileFirst rootPath [] filesystem
    else pathListFolderFirst rootPath [] filesystem
  prevFile := none

namespace FileSystemIterator

/-- `filesystemiterator_next`; NULL when the queue is empty. -/
def next (fsi : FileSystemIterator) : Option IteratorItem × FileSystemIterator :=
  match fsi.fileList with
  | [] => (none, { fsi with prevFile := none })
  | file :: fileList => (some (filesystemiteratorNext file), ⟨fileList, some file⟩)

/-- What `while ((path = filesystemiterator_next(...)))` goes through; `none` when it takes more than
`fuel` rounds. -/
def iterate : ℕ → FileSystemIterator → Option (List IteratorItem)
  | 0, _ => none
  | fuel + 1, fsi =>
    match fsi.next with
    | (none, _) => some []
    | (some item, fsi) => (iterate fuel fsi).map (item :: ·)

/-- The loop goes through the queue. -/
theorem iterate_eq {fuel : ℕ} {fsi : FileSystemIterator} (h : fsi.fileList.length < fuel) :
    fsi.iterate fuel = some (fsi.fileList.map filesystemiteratorNext) := by
  induction fuel generalizing fsi with
  | zero => omega
  | succ fuel ih =>
    obtain ⟨fileList, prevFile⟩ := fsi
    cases fileList with
    | nil => rfl
    | cons file fileList =>
      have hrest : FileSystemIterator.iterate fuel ⟨fileList, some file⟩ = some _ :=
        ih (Nat.lt_of_succ_lt_succ h)
      show (FileSystemIterator.iterate fuel ⟨fileList, some file⟩).map _ = _
      rw [hrest]
      rfl

end FileSystemIterator

variable {f : Folder} {ds : List Folder} {path : CString} {fileList : List File}
  {x y : List CString × File} {item : IteratorItem}

/-- A loop that appends to one of two queues. -/
theorem foldl_append_two {α β : Type*} (p : α → Prop) [DecidablePred p] (g : α → β) (l : List α)
    (st : List β × List β) :
    l.foldl (fun st a => if p a then (st.1 ++ [g a], st.2) else (st.1, st.2 ++ [g a])) st =
      (st.1 ++ (l.filter fun a => p a).map g, st.2 ++ (l.filter fun a => ¬ p a).map g) := by
  induction l generalizing st with
  | nil => simp
  | cons a l ih =>
    rw [List.foldl_cons, ih]
    by_cases h : p a <;> simp [h]

/-- What the recursion over the files first adds. -/
theorem pathListFileFirst_eq :
    pathListFileFirst path fileList f = fileList ++ filesystemGetPathList true path f := by
  induction f using Folder.ind generalizing path fileList with
  | h f ih =>
    obtain ⟨name, files, folders⟩ := f
    have hlists : ∀ (ds : List Folder), (∀ d ∈ ds, d ∈ folders) → ∀ fileList,
        pathListsFileFirst path fileList ds = fileList ++ filesystemGetPathLists true path ds := by
      intro ds hds
      induction ds with
      | nil => intro fileList; simp [pathListsFileFirst]
      | cons d ds ihd =>
        intro fileList
        rw [pathListsFileFirst, filesystemGetPathLists_cons, ih d (hds d List.mem_cons_self),
          ihd fun d' hd' => hds d' (List.mem_cons_of_mem d hd'), List.append_assoc]
    rw [pathListFileFirst, filesystemGetPathList, foldl_append_two, hlists folders fun _ hd => hd]
    simp

/-- What the recursion over the folders first adds. -/
theorem pathListFolderFirst_eq :
    pathListFolderFirst path fileList f = fileList ++ filesystemGetPathList false path f := by
  induction f using Folder.ind generalizing path fileList with
  | h f ih =>
    obtain ⟨name, files, folders⟩ := f
    have hlists : ∀ (ds : List Folder), (∀ d ∈ ds, d ∈ folders) → ∀ fileList,
        pathListsFolderFirst path fileList ds = fileList ++ filesystemGetPathLists false path ds := by
      intro ds hds
      induction ds with
      | nil => intro fileList; simp [pathListsFolderFirst]
      | cons d ds ihd =>
        intro fileList
        rw [pathListsFolderFirst, filesystemGetPathLists_cons, ih d (hds d List.mem_cons_self),
          ihd fun d' hd' => hds d' (List.mem_cons_of_mem d hd'), List.append_assoc]
    have hfiles : files.foldl (fun st file => if file.isFolder = 0 then
          (st.1, st.2 ++ [listed path file]) else (st.1 ++ [listed path file], st.2)) (fileList, []) =
        (fileList ++ (files.filter fun file => file.isFolder ≠ 0).map (listed path),
          (files.filter fun file => file.isFolder = 0).map (listed path)) := by
      have := foldl_append_two (fun file : File => file.isFolder ≠ 0) (listed path) files (fileList, [])
      simpa [ite_not] using this
    rw [pathListFolderFirst, filesystemGetPathList, hfiles, hlists folders fun _ hd => hd]
    simp

theorem fileList_filesystemiteratorNew (fileFirst : Bool) :
    (filesystemiteratorNew f path fileFirst).fileList = filesystemGetPathList fileFirst path f := by
  cases fileFirst
  · exact pathListFolderFirst_eq
  · exact pathListFileFirst_eq

/-- A loop over an iterator goes through the items of the tree. -/
theorem iterate_filesystemiteratorNew {fuel : ℕ} (fileFirst : Bool)
    (h : (filesystemIterator path fileFirst f).length < fuel) :
    (filesystemiteratorNew f path fileFirst).iterate fuel =
      some (filesystemIterator path fileFirst f) := by
  unfold filesystemIterator at h ⊢
  rw [List.length_map] at h
  rw [FileSystemIterator.iterate_eq (by rwa [fileList_filesystemiteratorNew]),
    fileList_filesystemiteratorNew]

/-! ## What a loop sees -/

theorem not_above_self : ¬ Above x x := by
  intro h
  have := h.2.length_le
  rw [List.length_append, List.length_singleton] at this
  omega

/-- No entry is listed twice. -/
theorem nodup_entryList (fileFirst : Bool) (hf : f.Distinct) : (entryList fileFirst f).Nodup := by
  induction f using Folder.ind with
  | h f ih =>
    obtain ⟨name, files, folders⟩ := f
    have hlists : (entryLists fileFirst folders).Nodup := by
      refine pairwise_entryLists fileFirst hf.folders_nodup (fun d hd => ?_) fun n m x y hne h => ?_
      · refine (ih d hd (hf.of_mem hd)).imp fun hne h => hne ?_
        rw [Prod.mk.injEq, List.cons_inj_right] at h
        exact Prod.ext h.1 h.2
      · exact hne (List.cons.inj (congrArg Prod.fst h)).1
    have hkind (p : File → Bool) : ((files.filter p).map fun e => (([] : List CString), e)).Nodup :=
      (hf.files_nodup.filter p).map fun e e' h => congrArg Prod.snd h
    have hbelow : ∀ p : File → Bool, ∀ x ∈ (files.filter p).map fun e => (([] : List CString), e),
        ∀ y ∈ entryLists fileFirst folders, x ≠ y := by
      rintro p x hx y hy rfl
      obtain ⟨e, -, rfl⟩ := List.mem_map.mp hx
      obtain ⟨d, -, z, -, h⟩ := (mem_entryLists fileFirst).mp hy
      exact List.cons_ne_nil _ _ (congrArg Prod.fst h).symm
    have hkinds : ∀ x ∈ (files.filter fun file => file.isFolder = 0).map fun e => (([] : List CString), e),
        ∀ y ∈ (files.filter fun file => file.isFolder ≠ 0).map fun e => (([] : List CString), e),
          x ≠ y := by
      rintro x hx y hy rfl
      obtain ⟨e, he, rfl⟩ := List.mem_map.mp hx
      obtain ⟨e', he', h⟩ := List.mem_map.mp hy
      obtain rfl : e' = e := congrArg Prod.snd h
      exact of_decide_eq_true (List.mem_filter.mp he').2 (of_decide_eq_true (List.mem_filter.mp he).2)
    rw [entryList]
    cases fileFirst
    · refine List.nodup_append.mpr ⟨List.nodup_append.mpr ⟨hkind _, hlists, hbelow _⟩, hkind _, ?_⟩
      intro x hx y hy
      rcases List.mem_append.mp hx with hx | hx
      exacts [(hkinds y hy x hx).symm, (hbelow _ y hy x hx).symm]
    · refine List.nodup_append.mpr ⟨List.nodup_append.mpr ⟨hkind _, hlists, hbelow _⟩, hkind _, ?_⟩
      intro x hx y hy
      rcases List.mem_append.mp hx with hx | hx
      exacts [hkinds x hx y hy, (hbelow _ y hy x hx).symm]

/-- The item that an iterator rooted at `rootPath` has to yield for an entry. -/
structure Yields (rootPath : CString) (x : List CString × File) (item : IteratorItem) : Prop where
  path : item.path = joinPath rootPath (x.1 ++ [x.2.name])
  folder : x.2.isFolder ≠ 0 → item.length = -1 ∧ item.modTime = 0
  file : x.2.isFolder = 0 → item.modTime = x.2.lastModified ∧
    (x.2.size.toNat < 2 ^ 31 → item.length = x.2.size.toNat)

theorem yields_itemOf (rootPath : CString) (x : List CString × File) :
    Yields rootPath x (itemOf (joinPath rootPath x.1) x.2) where
  path := (joinPath_append_singleton rootPath x.2.name x.1).symm
  folder h := ⟨if_pos h, if_pos h⟩
  file h := ⟨if_neg (not_not.mpr h), fun hsize => (if_neg (not_not.mpr h)).trans (intOfSize_eq hsize)⟩

/-- **Iteration.** A loop over an iterator yields every entry of the tree exactly once and nothing
else, with the files first each folder after what lies in it, and before it otherwise. -/
theorem filesystemiterator_yields (fs : Folder) (rootPath : CString) (fileFirst : Bool)
    (hfs : fs.WellFormed) : ∃ (order : List (List CString × File)) (items : List IteratorItem),
      (∀ fuel, items.length < fuel →
        (filesystemiteratorNew fs rootPath fileFirst).iterate fuel = some items) ∧
      List.Forall₂ (Yields rootPath) order items ∧
      order.Nodup ∧ (∀ x, x ∈ order ↔ x ∈ fs.view.entries) ∧
      ∀ (i j : ℕ) (x y : List CString × File), order[i]? = some x → order[j]? = some y → Above x y →
        if fileFirst then j < i else i < j := by
  refine ⟨entryList fileFirst fs, filesystemIterator rootPath fileFirst fs,
    fun fuel hfuel => iterate_filesystemiteratorNew fileFirst hfuel, ?_,
    nodup_entryList fileFirst hfs.distinct, fun x => mem_entryList fileFirst hfs.distinct, ?_⟩
  · rw [filesystemIterator_eq, List.forall₂_map_right_iff, List.forall₂_same]
    exact fun x _ => yields_itemOf rootPath x
  · intro i j x y hi hj habove
    obtain ⟨hilt, rfl⟩ := List.getElem?_eq_some_iff.mp hi
    obtain ⟨hjlt, rfl⟩ := List.getElem?_eq_some_iff.mp hj
    have hne : i ≠ j := by
      rintro rfl
      exact not_above_self habove
    cases fileFirst with
    | false =>
      refine lt_of_le_of_ne (not_lt.mp fun hlt => ?_) hne
      exact List.pairwise_iff_getElem.mp (pairwise_entryList_false hfs.distinct) j i hjlt hilt hlt habove
    | true =>
      refine lt_of_le_of_ne (not_lt.mp fun hlt => ?_) hne.symm
      exact List.pairwise_iff_getElem.mp (pairwise_entryList_true hfs.distinct) i j hilt hjlt hlt habove

namespace PathListExample

/-- A file `a`, and a folder `d` with a file `y`. -/
def nested : Folder :=
  ⟨.empty, [⟨.ofBytes [97], 1, 2, 0⟩, marker (.ofBytes [100])],
    [⟨.ofBytes [100], [⟨.ofBytes [121], 3, 4, 0⟩], []⟩]⟩

end PathListExample

open PathListExample

theorem filesystemiterator_yields_nested :
    ∃ (order : List (List CString × File)) (items : List IteratorItem),
      (filesystemiteratorNew nested .slash true).iterate (items.length + 1) = some items ∧
      List.Forall₂ (Yields .slash) order items ∧ order.Nodup ∧
      ∀ x, x ∈ order ↔ x ∈ nested.view.entries := by
  obtain ⟨order, items, hiterate, hyields, hnodup, hmem, -⟩ :=
    filesystemiterator_yields nested .slash true (by decide)
  exact ⟨order, items, hiterate _ (Nat.lt_succ_self _), hyields, hnodup, hmem⟩

/-- With the files first the folder comes last. -/
example : ((filesystemiteratorNew nested .empty true).iterate 4).map (List.map IteratorItem.length) =
    some [1, 3, -1] := by decide

end DartSync
