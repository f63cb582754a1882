import Mathlib.Algebra.Ring.Nat
import DartSync.FileSystem.Folder

/-!
# Iterating over a file system

The iterators list every entry of a tree with its path. The path and the kind are what the loops
of the client and of the file table read; `mem_filesystemIterator` describes the list by the view
of the tree.
-/

namespace DartSync

/-- The `new_file` of `filesystem_get_path_list_file_first` for an entry of the folder at `path`. -/
def listed (path : CString) (file : File) : File :=
  if file.isFolder = 0 then { file with name := addStrings [path, .slash, file.name], isFolder := 0 }
  else ⟨addStrings [path, .slash, file.name], 0, 0, 1⟩

mutual

/-- `filesystem_get_path_list_file_first` and `filesystem_get_path_list_folder_first`: the entries
of one kind, then what lies in the folders, then the entries of the other kind. -/
def filesystemGetPathList (fileFirst : Bool) (path : CString) : Folder → List File
  | ⟨_, files, folders⟩ =>
    let plain := (files.filter fun file => file.isFolder = 0).map (listed path)
    let marks := (files.filter fun file => file.isFolder ≠ 0).map (listed path)
    if fileFirst then plain ++ filesystemGetPathLists fileFirst path folders ++ marks
    else marks ++ filesystemGetPathLists fileFirst path folders ++ plain

/-- The loop over the folders. -/
def filesystemGetPathLists (fileFirst : Bool) (path : CString) : List Folder → List File
  | [] => []
  | folder :: rest => filesystemGetPathList fileFirst (addStrings [path, .slash, folder.name]) folder ++
      filesystemGetPathLists fileFirst path rest

end

/-- `filesystem_get_path_list_file_first` -/
def filesystemGetPathListFileFirst : CString → Folder → List File := filesystemGetPathList true

/-- `filesystem_get_path_list_folder_first` -/
def filesystemGetPathListFolderFirst : CString → Folder → List File := filesystemGetPathList false

/-- What a call of `filesystemiterator_next` yields: the path, and the outputs `length` and
`mod_time`. The length of a folder is -1, that of a file is its size cut to an `int`. -/
structure IteratorItem where
  path : CString
  length : ℤ
  modTime : Int64
  deriving DecidableEq

/-- `(int)` of an `unsigned long` -/
def intOfSize (size : UInt64) : ℤ := size.toUInt32.toInt32.toInt

/-- A size below 2 GiB is kept. -/
theorem intOfSize_eq {size : UInt64} (h : size.toNat < 2 ^ 31) : intOfSize size = size.toNat := by
  have htoNat : size.toUInt32.toBitVec.toNat = size.toNat := by
    show size.toUInt32.toNat = _
    rw [UInt64.toNat_toUInt32]
    omega
  show size.toUInt32.toBitVec.toInt = _
  rw [BitVec.toInt_eq_toNat_of_lt (by omega), htoNat]

/-- `filesystemiterator_next` -/
def filesystemiteratorNext (file : File) : IteratorItem where
  path := file.name
  length := if file.isFolder ≠ 0 then -1 else intOfSize file.size
  modTime := file.lastModified

/-- What a `filesystemiterator_new` of a tree rooted at `rootPath` goes through. -/
def filesystemIterator (rootPath : CString) (fileFirst : Bool) (filesystem : Folder) :
    List IteratorItem :=
  (filesystemGetPathList fileFirst rootPath filesystem).map filesystemiteratorNext

/-- What a `filesystemiterator_relative_new` goes through. -/
def filesystemIteratorRelative (fileFirst : Bool) (filesystem : Folder) : List IteratorItem :=
  filesystemIterator .empty fileFirst filesystem

variable {fileFirst : Bool} {f : Folder} {path : CString} {ds : List Folder} {x e : File}
  {item : IteratorItem}

/-! ## The paths listed -/

@[simp] theorem filesystemGetPathLists_nil : filesystemGetPathLists fileFirst path [] = [] := rfl

@[simp] theorem filesystemGetPathLists_cons (d : Folder) (ds : List Folder) :
    filesystemGetPathLists fileFirst path (d :: ds) =
      filesystemGetPathList fileFirst (addStrings [path, .slash, d.name]) d ++
        filesystemGetPathLists fileFirst path ds := rfl

theorem mem_filesystemGetPathLists : x ∈ filesystemGetPathLists fileFirst path ds ↔
    ∃ d ∈ ds, x ∈ filesystemGetPathList fileFirst (addStrings [path, .slash, d.name]) d := by
  induction ds with
  | nil => simp
  | cons d ds ih => simp [ih]

/-- Both orders list the same entries. -/
theorem mem_filesystemGetPathList_cases : x ∈ filesystemGetPathList fileFirst path f ↔
    (∃ e ∈ f.files, x = listed path e) ∨ ∃ d ∈ f.folders,
      x ∈ filesystemGetPathList fileFirst (addStrings [path, .slash, d.name]) d := by
  obtain ⟨name, files, folders⟩ := f
  have hfiles : (x ∈ (files.filter fun file => file.isFolder = 0).map (listed path) ∨
      x ∈ (files.filter fun file => file.isFolder ≠ 0).map (listed path)) ↔
        ∃ e ∈ files, x = listed path e := by
    simp only [List.mem_map, List.mem_filter, decide_eq_true_eq]
    constructor
    · rintro (⟨e, ⟨he, -⟩, rfl⟩ | ⟨e, ⟨he, -⟩, rfl⟩) <;> exact ⟨e, he, rfl⟩
    · rintro ⟨e, he, rfl⟩
      by_cases h : e.isFolder = 0
      exacts [Or.inl ⟨e, ⟨he, h⟩, rfl⟩, Or.inr ⟨e, ⟨he, h⟩, rfl⟩]
  rw [filesystemGetPathList, ← hfiles, ← mem_filesystemGetPathLists]
  cases fileFirst <;> simp only [Bool.false_eq_true, if_true, if_false, List.mem_append] <;> tauto

/-! ## The entries in order -/

mutual

/-- The entries of a tree with the paths of their folders, in the order of the iterators. -/
def entryList (fileFirst : Bool) : Folder → List (List CString × File)
  | ⟨_, files, folders⟩ =>
    let plain := (files.filter fun file => file.isFolder = 0).map fun e => ([], e)
    let marks := (files.filter fun file => file.isFolder ≠ 0).map fun e => ([], e)
    if fileFirst then plain ++ entryLists fileFirst folders ++ marks
    else marks ++ entryLists fileFirst folders ++ plain

def entryLists (fileFirst : Bool) : List Folder → List (List CString × File)
  | [] => []
  | d :: ds => (entryList fileFirst d).map (fun x => (d.name :: x.1, x.2)) ++
      entryLists fileFirst ds

end

@[simp] theorem entryLists_nil : entryLists fileFirst [] = [] := rfl

@[simp] theorem entryLists_cons (d : Folder) (ds : List Folder) : entryLists fileFirst (d :: ds) =
    (entryList fileFirst d).map (fun x => (d.name :: x.1, x.2)) ++ entryLists fileFirst ds := rfl

section Entries

variable {x : List CString × File}

theorem mem_entryLists (fileFirst : Bool) : x ∈ entryLists fileFirst ds ↔
    ∃ d ∈ ds, ∃ y ∈ entryList fileFirst d, x = (d.name :: y.1, y.2) := by
  induction ds with
  | nil => simp
  | cons d ds ih =>
    rw [entryLists_cons, List.mem_append, ih, List.mem_map]
    constructor
    · rintro (⟨y, hy, rfl⟩ | ⟨d', hd', h⟩)
      exacts [⟨d, List.mem_cons_self, y, hy, rfl⟩, ⟨d', List.mem_cons_of_mem d hd', h⟩]
    · rintro ⟨d', hd', y, hy, rfl⟩
      rcases List.mem_cons.mp hd' with rfl | hd'
      exacts [Or.inl ⟨y, hy, rfl⟩, Or.inr ⟨d', hd', y, hy, rfl⟩]

/-- The listed files are those of the entries. -/
theorem filesystemGetPathList_eq (fileFirst : Bool) : filesystemGetPathList fileFirst path f =
    (entryList fileFirst f).map fun x => listed (joinPath path x.1) x.2 := by
  induction f using Folder.ind generalizing path with
  | h f ih =>
    obtain ⟨name, files, folders⟩ := f
    have hlists : ∀ ds : List Folder, (∀ d ∈ ds, d ∈ folders) →
        filesystemGetPathLists fileFirst path ds =
          (entryLists fileFirst ds).map fun x => listed (joinPath path x.1) x.2 := by
      intro ds
      induction ds with
      | nil => exact fun _ => rfl
      | cons d ds ihds =>
        intro hds
        rw [filesystemGetPathLists_cons, entryLists_cons, List.map_append, List.map_map,
          ih d (hds d List.mem_cons_self), ihds fun d' hd' => hds d' (List.mem_cons_of_mem d hd')]
        rfl
    rw [filesystemGetPathList, entryList, hlists folders fun _ hd => hd]
    cases fileFirst <;> simp [List.map_append, List.map_map, Function.comp_def]

/-- Both orders have the files of a folder, and what lies in its folders. -/
theorem mem_entryList_cases (fileFirst : Bool) : x ∈ entryList fileFirst f ↔
    (x.1 = [] ∧ x.2 ∈ f.files) ∨ x ∈ entryLists fileFirst f.folders := by
  obtain ⟨name, files, folders⟩ := f
  obtain ⟨q, e⟩ := x
  have hfiles : ((q, e) ∈ (files.filter fun file => file.isFolder = 0).map (fun e => ([], e)) ∨
      (q, e) ∈ (files.filter fun file => file.isFolder ≠ 0).map fun e => ([], e)) ↔
        q = [] ∧ e ∈ files := by
    simp only [List.mem_map, List.mem_filter, decide_eq_true_eq]
    constructor
    · rintro (⟨e', ⟨he, -⟩, h⟩ | ⟨e', ⟨he, -⟩, h⟩) <;> cases h <;> exact ⟨rfl, he⟩
    · rintro ⟨rfl, he⟩
      by_cases h : e.isFolder = 0
      exacts [Or.inl ⟨e, ⟨he, h⟩, rfl⟩, Or.inr ⟨e, ⟨he, h⟩, rfl⟩]
  rw [entryList, ← hfiles]
  cases fileFirst <;> simp only [Bool.false_eq_true, if_true, if_false, List.mem_append] <;>
    tauto

theorem mem_entryList (fileFirst : Bool) (hf : f.Distinct) :
    x ∈ entryList fileFirst f ↔ x ∈ f.view.entries := by
  induction f using Folder.ind generalizing x with
  | h f ih =>
    obtain ⟨name, files, folders⟩ := f
    obtain ⟨q, e⟩ := x
    rw [mem_entryList_cases, mem_entryLists]
    cases q with
    | nil => simp
    | cons n q =>
      rw [Folder.mem_entries_cons]
      constructor
      · rintro (⟨h, -⟩ | ⟨d, hd, ⟨q', e'⟩, hy, heq⟩)
        · cases h
        · cases heq
          exact ⟨d, Folder.child_of_mem hf hd, (ih d hd (hf.of_mem hd)).mp hy⟩
      · rintro ⟨d, hd, he⟩
        obtain rfl := Folder.child_name hd
        exact Or.inr ⟨d, Folder.child_mem hd, (q, e),
          (ih d (Folder.child_mem hd) (hf.child hd)).mpr he, rfl⟩

end Entries

/-- The list holds each entry of the tree under its path. -/
theorem mem_filesystemGetPathList (hf : f.Distinct) :
    x ∈ filesystemGetPathList fileFirst path f ↔
      ∃ q e, (q, e) ∈ f.view.entries ∧ x = listed (joinPath path q) e := by
  rw [filesystemGetPathList_eq, List.mem_map]
  constructor
  · rintro ⟨⟨q, e⟩, he, rfl⟩
    exact ⟨q, e, (mem_entryList fileFirst hf).mp he, rfl⟩
  · rintro ⟨q, e, he, rfl⟩
    exact ⟨(q, e), (mem_entryList fileFirst hf).mpr he, rfl⟩

/-- The item of an entry of the folder at `path`. -/
def itemOf (path : CString) (e : File) : IteratorItem where
  path := addStrings [path, .slash, e.name]
  length := if e.isFolder ≠ 0 then -1 else intOfSize e.size
  modTime := if e.isFolder ≠ 0 then 0 else e.lastModified

theorem filesystemiteratorNext_listed : filesystemiteratorNext (listed path e) = itemOf path e := by
  unfold listed filesystemiteratorNext itemOf
  by_cases h : e.isFolder = 0
  · simp [h]
  · have h1 : (1 : Int32) ≠ 0 := by decide
    simp [h]

/-- **Iteration.** An iterator yields each entry of the tree once under its path. -/
theorem mem_filesystemIterator (hf : f.Distinct) : item ∈ filesystemIterator path fileFirst f ↔
    ∃ q e, (q, e) ∈ f.view.entries ∧ item = itemOf (joinPath path q) e := by
  unfold filesystemIterator
  rw [List.mem_map]
  constructor
  · rintro ⟨x, hx, rfl⟩
    obtain ⟨q, e, he, rfl⟩ := (mem_filesystemGetPathList hf).mp hx
    exact ⟨q, e, he, filesystemiteratorNext_listed⟩
  · rintro ⟨q, e, he, rfl⟩
    exact ⟨_, (mem_filesystemGetPathList hf).mpr ⟨q, e, he, rfl⟩, filesystemiteratorNext_listed⟩

/-! ## Files -/

/-- An entry that the loops over a tree take for a file: its length is not negative. -/
def File.IsPlain (e : File) : Prop := e.isFolder = 0 ∧ 0 ≤ intOfSize e.size

instance : DecidablePred File.IsPlain := fun _ => inferInstanceAs (Decidable (_ ∧ _))

/-- The path of an entry below the root. -/
def entryPath (q : List CString) (e : File) : CString := addStrings [joinPath .empty q, .slash, e.name]

theorem length_itemOf : 0 ≤ (itemOf path e).length ↔ e.IsPlain := by
  unfold itemOf File.IsPlain
  by_cases h : e.isFolder = 0 <;> simp [h]

/-- `p` is the path of an entry of `t` that is taken for a file. -/
def IsFilePath (t : Set (List CString × File)) (p : CString) : Prop :=
  ∃ q e, (q, e) ∈ t ∧ e.IsPlain ∧ p = entryPath q e

/-- The paths of the entries that are no folders. -/
def filePaths (fs : Folder) : Set CString :=
  {p | ∃ q e, (q, e) ∈ fs.view.entries ∧ e.isFolder = 0 ∧ p = entryPath q e}

/-- Where no size is negative as an `int`, every entry that is no folder is taken for a file. -/
theorem isFilePath_iff_mem_filePaths {p : CString}
    (h : ∀ q e, (q, e) ∈ f.view.entries → e.isFolder = 0 → e.IsPlain) :
    IsFilePath f.view.entries p ↔ p ∈ filePaths f := by
  constructor
  · rintro ⟨q, e, he, hplain, rfl⟩
    exact ⟨q, e, he, hplain.1, rfl⟩
  · rintro ⟨q, e, he, hfile, rfl⟩
    exact ⟨q, e, he, h q e he hfile, rfl⟩

/-- The test that no file of the tree has a negative size. -/
def Folder.isPlain (f : Folder) : Bool :=
  f.allFolders fun d => d.files.all fun e => decide (e.isFolder = 0 → e.IsPlain)

theorem Folder.isPlain_of_test (h : f.isPlain = true) :
    ∀ q e, (q, e) ∈ f.view.entries → e.isFolder = 0 → e.IsPlain := fun _ _ he hfile =>
  of_decide_eq_true (Folder.allFolders_files (fun e => decide (e.isFolder = 0 → e.IsPlain)) h he) hfile

/-- The paths at which the loops over a tree act on a file. -/
theorem exists_mem_filesystemIteratorRelative (fileFirst : Bool) (hf : f.Distinct) {p : CString} :
    (∃ item ∈ filesystemIteratorRelative fileFirst f, 0 ≤ item.length ∧ item.path = p) ↔
      IsFilePath f.view.entries p := by
  unfold filesystemIteratorRelative
  constructor
  · rintro ⟨item, hitem, hlen, rfl⟩
    obtain ⟨q, e, he, rfl⟩ := (mem_filesystemIterator hf).mp hitem
    exact ⟨q, e, he, length_itemOf.mp hlen, rfl⟩
  · rintro ⟨q, e, he, hplain, rfl⟩
    exact ⟨_, (mem_filesystemIterator hf).mpr ⟨q, e, he, rfl⟩, length_itemOf.mpr hplain, rfl⟩

end DartSync
