import DartSync.Basic
import DartSync.Library.KeyedList
import DartSync.Library.TreeSet

/-!
# File system trees

The data of `FileSystem.c`: a `File` entry, and a `Folder` that holds entries and folders. Each
folder is listed twice in its parent, once in `folders` and once in `files`, where an entry with
`is_folder = 1` marks it; `Folder.WellFormed` says that the two lists agree.

`Folder.view` is the tree as a set of entries and a set of folder paths; the operations of the
source are described by their effect on it. It sees every entry of a tree in which no folder holds
two folders of one name (`Folder.Distinct`). Two such trees with one view are the same up to the
order inside each folder (`sameTree_of_view_eq`).
-/

namespace DartSync

open KeyedList

/-- `_File` -/
structure File where
  name : CString
  size : UInt64
  lastModified : Int64
  isFolder : Int32
  deriving DecidableEq

/-- `_Folder` -/
structure Folder where
  name : CString
  files : List File
  folders : List Folder

/-- The root of `filesystem_new(NULL)`. -/
def emptyFilesystem : Folder := ⟨.empty, [], []⟩

/-- `file_equals_name_only` -/
def fileEqualsNameOnly (f0 f1 : File) : Bool := f0.name = f1.name

/-- `file_equals` -/
def fileEquals (f0 f1 : File) : Bool :=
  decide (f0.name = f1.name) && decide (f0.size = f1.size) &&
    decide (f0.lastModified = f1.lastModified) && decide (f0.isFolder = f1.isFolder)

@[simp] theorem fileEquals_iff {f0 f1 : File} : fileEquals f0 f1 = true ↔ f0 = f1 := by
  cases f0; cases f1
  simp [fileEquals, and_assoc]

/-- `folder_equals` -/
def folderEquals (f0 f1 : Folder) : Bool := f0.name = f1.name

/-- The entry `folder_new` lists for a folder. -/
def marker (name : CString) : File := ⟨name, 0, 0, 1⟩

/-- Entries carry their name; a nonzero `is_folder` marks a folder. -/
def fileMarking : Marking CString File where
  name := File.name
  dir e := e.isFolder ≠ 0
  mark := marker
  name_mark _ := rfl
  dir_mark _ := show (1 : Int32) ≠ 0 by decide

@[simp] theorem fileMarking_name (e : File) : fileMarking.name e = e.name := rfl

@[simp] theorem fileMarking_dir (e : File) : fileMarking.dir e ↔ e.isFolder ≠ 0 := Iff.rfl

@[simp] theorem fileMarking_mark (n : CString) : fileMarking.mark n = marker n := rfl

@[simp] theorem marker_name (n : CString) : (marker n).name = n := rfl

theorem marker_isFolder (n : CString) : (marker n).isFolder ≠ 0 := show (1 : Int32) ≠ 0 by decide

namespace Folder

/-- Induction on a folder from its subfolders. -/
theorem ind {P : Folder → Prop} (h : ∀ f : Folder, (∀ d ∈ f.folders, P d) → P f) (f : Folder) :
    P f :=
  Folder.rec (motive_1 := P) (motive_2 := fun l => ∀ d ∈ l, P d) (fun _ _ _ ih => h _ ih)
    (by simp) (fun _ _ hd hl => by simpa using ⟨hd, hl⟩) f

/-! ## Well-formed trees -/

/-- In every folder the names in `files` are distinct, those in `folders` are distinct, and the
entries that mark folders carry exactly the names in `folders`. -/
inductive WellFormed : Folder → Prop
  | mk {f : Folder} (files_nodup : (f.files.map File.name).Nodup)
      (folders_nodup : (f.folders.map Folder.name).Nodup)
      (mark_of_dir : ∀ e ∈ f.files, e.isFolder ≠ 0 → e = marker e.name)
      (mark_iff : ∀ n, marker n ∈ f.files ↔ n ∈ f.folders.map Folder.name)
      (folders : ∀ d ∈ f.folders, d.WellFormed) : f.WellFormed

/-- No folder holds an entry twice or two folders of one name. -/
inductive Distinct : Folder → Prop
  | mk {f : Folder} (files_nodup : f.files.Nodup)
      (folders_nodup : (f.folders.map Folder.name).Nodup)
      (folders : ∀ d ∈ f.folders, d.Distinct) : f.Distinct

/-- The same tree up to the order inside each folder. -/
inductive SameTree : Folder → Folder → Prop
  | mk {f g : Folder} (l : List Folder) (files : f.files.Perm g.files)
      (names : f.folders.map Folder.name = l.map Folder.name)
      (folders : List.Forall₂ SameTree f.folders l) (perm : l.Perm g.folders) : SameTree f g

variable {f g d : Folder} {n : CString} {p q : List CString} {e : File}

theorem Distinct.files_nodup (h : f.Distinct) : f.files.Nodup := by cases h; assumption

theorem Distinct.folders_nodup (h : f.Distinct) : (f.folders.map Folder.name).Nodup := by
  cases h; assumption

theorem Distinct.of_mem (h : f.Distinct) (hd : d ∈ f.folders) : d.Distinct := by
  cases h with | mk _ _ h => exact h d hd

theorem WellFormed.distinct : f.WellFormed → f.Distinct := by
  induction f using Folder.ind with
  | h f ih =>
    rintro ⟨hf, hd, -, -, h⟩
    exact ⟨hf.of_map, hd, fun d hd => ih d hd (h d hd)⟩

/-! ## Deciding well-formedness -/

mutual

def isWellFormed : Folder → Bool
  | ⟨_, files, folders⟩ =>
    decide (files.map File.name).Nodup && decide (folders.map Folder.name).Nodup &&
      decide (∀ e ∈ files, e.isFolder ≠ 0 →
        e = marker e.name ∧ e.name ∈ folders.map Folder.name) &&
      decide (∀ n ∈ folders.map Folder.name, marker n ∈ files) && allWellFormed folders

def allWellFormed : List Folder → Bool
  | [] => true
  | d :: ds => d.isWellFormed && allWellFormed ds

end

theorem allWellFormed_iff {ds : List Folder} :
    allWellFormed ds = true ↔ ∀ d ∈ ds, d.isWellFormed = true := by
  induction ds with
  | nil => simp [allWellFormed]
  | cons d ds ih => simp [allWellFormed, ih]

theorem isWellFormed_iff : f.isWellFormed = true ↔ f.WellFormed := by
  induction f using Folder.ind with
  | h f ih =>
    obtain ⟨name, files, folders⟩ := f
    rw [isWellFormed]
    simp only [Bool.and_eq_true, decide_eq_true_eq, allWellFormed_iff]
    constructor
    · rintro ⟨⟨⟨⟨hfiles, hfolders⟩, hdir⟩, hmark⟩, hsub⟩
      refine ⟨hfiles, hfolders, fun e he hd => (hdir e he hd).1, fun n => ⟨fun hn => ?_, hmark n⟩,
        fun d hd => (ih d hd).mp (hsub d hd)⟩
      exact (hdir _ hn (marker_isFolder n)).2
    · rintro ⟨hfiles, hfolders, hdir, hmark, hsub⟩
      refine ⟨⟨⟨⟨hfiles, hfolders⟩, fun e he hd => ⟨hdir e he hd, ?_⟩⟩, fun n => (hmark n).mpr⟩,
        fun d hd => (ih d hd).mpr (hsub d hd)⟩
      rw [← hmark, ← hdir e he hd]
      exact he

instance : DecidablePred WellFormed := fun f => decidable_of_iff _ f.isWellFormed_iff

end Folder

theorem wellFormed_emptyFilesystem : emptyFilesystem.WellFormed := by decide

namespace Folder

variable {f g d : Folder} {n : CString} {p q : List CString} {e : File}

/-! ## Names -/

mutual

/-- Every folder of the tree meets the test. -/
def allFolders (test : Folder → Bool) : Folder → Bool
  | ⟨name, files, folders⟩ => test ⟨name, files, folders⟩ && allFoldersIn test folders

def allFoldersIn (test : Folder → Bool) : List Folder → Bool
  | [] => true
  | d :: ds => d.allFolders test && allFoldersIn test ds

end

/-- Every entry and every folder below the root has a name that `readdir` delivers. -/
def Named (f : Folder) : Prop :=
  f.allFolders (fun d => d.files.all (fun e => decide (IsName e.name)) &&
    d.folders.all fun c => decide (IsName c.name)) = true

instance : DecidablePred Named := fun f => inferInstanceAs (Decidable (f.allFolders _ = true))

theorem allFoldersIn_iff {test : Folder → Bool} {ds : List Folder} :
    allFoldersIn test ds = true ↔ ∀ d ∈ ds, d.allFolders test = true := by
  induction ds with
  | nil => simp [allFoldersIn]
  | cons d ds ih => simp [allFoldersIn, ih]

theorem allFolders_iff {test : Folder → Bool} : f.allFolders test = true ↔
    test f = true ∧ ∀ d ∈ f.folders, d.allFolders test = true := by
  cases f
  rw [allFolders, Bool.and_eq_true, allFoldersIn_iff]

/-! ## Children and paths -/

/-- The folder of name `n` in `f`. -/
def child (f : Folder) (n : CString) : Option Folder := findKey Folder.name n f.folders

/-- The folder at a path below `f`. -/
def node : Folder → List CString → Option Folder
  | f, [] => some f
  | f, n :: p => (f.child n).bind fun d => d.node p

/-- The tree as sets: the entries with the path of their folder, and the folders. -/
def view (f : Folder) : TreeSet CString File where
  entries := {x | ∃ d, f.node x.1 = some d ∧ x.2 ∈ d.files}
  nodes := {p | (f.node p).isSome}

theorem child_mem (h : f.child n = some d) : d ∈ f.folders := mem_of_findKey h

theorem child_name (h : f.child n = some d) : d.name = n := key_of_findKey h

theorem child_of_mem (hf : f.Distinct) (hd : d ∈ f.folders) : f.child d.name = some d :=
  findKey_of_mem hf.folders_nodup hd

theorem Distinct.child (hf : f.Distinct) (h : f.child n = some d) : d.Distinct :=
  hf.of_mem (child_mem h)

theorem child_isSome : (f.child n).isSome ↔ n ∈ f.folders.map Folder.name := findKey_isSome

theorem child_eq_none : f.child n = none ↔ n ∉ f.folders.map Folder.name := findKey_eq_none

@[simp] theorem node_nil : f.node [] = some f := rfl

theorem node_cons : f.node (n :: p) = (f.child n).bind fun d => d.node p := rfl

theorem node_append : f.node (p ++ q) = (f.node p).bind fun d => d.node q := by
  induction p generalizing f with
  | nil => rfl
  | cons n p ih =>
    rw [List.cons_append, node_cons, node_cons]
    cases f.child n with
    | none => rfl
    | some d => exact ih

theorem node_singleton : f.node [n] = f.child n := by
  rw [node_cons]
  cases f.child n <;> rfl

theorem Distinct.node (hf : f.Distinct) (h : f.node p = some d) : d.Distinct := by
  induction p generalizing f with
  | nil => cases h; exact hf
  | cons n p ih =>
    obtain ⟨c, hc, h⟩ := Option.bind_eq_some_iff.mp h
    exact ih (hf.child hc) h

@[simp] theorem mem_entries_nil : ([], e) ∈ f.view.entries ↔ e ∈ f.files := by
  constructor
  · rintro ⟨d, hd, he⟩
    cases hd; exact he
  · exact fun he => ⟨f, rfl, he⟩

theorem mem_entries_cons :
    (n :: p, e) ∈ f.view.entries ↔ ∃ d, f.child n = some d ∧ (p, e) ∈ d.view.entries := by
  constructor
  · rintro ⟨c, hc, he⟩
    obtain ⟨d, hd, hc⟩ := Option.bind_eq_some_iff.mp hc
    exact ⟨d, hd, c, hc, he⟩
  · rintro ⟨d, hd, c, hc, he⟩
    exact ⟨c, Option.bind_eq_some_iff.mpr ⟨d, hd, hc⟩, he⟩

@[simp] theorem mem_nodes_nil : [] ∈ f.view.nodes := rfl

theorem mem_nodes_cons :
    n :: p ∈ f.view.nodes ↔ ∃ d, f.child n = some d ∧ p ∈ d.view.nodes := by
  show ((f.child n).bind fun d => d.node p).isSome ↔ _
  cases f.child n with
  | none => simp
  | some d => simp [view]

@[simp] theorem mem_nodes_singleton : [n] ∈ f.view.nodes ↔ n ∈ f.folders.map Folder.name := by
  rw [← child_isSome, ← node_singleton]; rfl

theorem rooted_view (f : Folder) : f.view.Rooted where
  root := rfl
  parent q n h := by
    obtain ⟨c, hc⟩ := Option.isSome_iff_exists.mp h
    rw [node_append] at hc
    obtain ⟨d, hd, -⟩ := Option.bind_eq_some_iff.mp hc
    exact Option.isSome_iff_exists.mpr ⟨d, hd⟩
  holds q e h := by
    obtain ⟨d, hd, -⟩ := h
    exact Option.isSome_iff_exists.mpr ⟨d, hd⟩

/-! ## Well-formedness of the view -/

theorem WellFormed.of_mem (h : f.WellFormed) (hd : d ∈ f.folders) : d.WellFormed := by
  cases h with | mk _ _ _ _ h => exact h d hd

theorem WellFormed.node (hf : f.WellFormed) (h : f.node p = some d) : d.WellFormed := by
  induction p generalizing f with
  | nil => cases h; exact hf
  | cons n p ih =>
    obtain ⟨c, hc, h⟩ := Option.bind_eq_some_iff.mp h
    exact ih (hf.of_mem (child_mem hc)) h

theorem WellFormed.view (hf : f.WellFormed) : f.view.WellFormed fileMarking where
  toRooted := rooted_view f
  unique := by
    rintro q e e' ⟨d, hd, he⟩ ⟨d', hd', he'⟩ hn
    obtain rfl : d = d' := Option.some.inj (hd.symm.trans hd')
    obtain ⟨h, -⟩ := hf.node hd
    exact List.inj_on_of_nodup_map h he he' hn
  mark_of_dir := by
    rintro q e ⟨d, hd, he⟩ hdir
    obtain ⟨-, -, h, -⟩ := hf.node hd
    exact h e he hdir
  mark_iff q n := by
    constructor
    · rintro ⟨d, hd, he⟩
      obtain ⟨-, -, -, h, -⟩ := hf.node hd
      show (f.node (q ++ [n])).isSome
      rw [node_append, hd, Option.bind_some, node_singleton, child_isSome]
      exact (h n).mp he
    · intro h
      obtain ⟨c, hc⟩ := Option.isSome_iff_exists.mp h
      rw [node_append] at hc
      obtain ⟨d, hd, hc⟩ := Option.bind_eq_some_iff.mp hc
      obtain ⟨-, -, -, h, -⟩ := hf.node hd
      refine ⟨d, hd, (h n).mpr ?_⟩
      rw [← child_isSome, ← node_singleton, hc]; rfl

theorem view_child_wellFormed (h : f.view.WellFormed fileMarking) (hd : f.child n = some d) :
    d.view.WellFormed fileMarking where
  toRooted := rooted_view d
  unique q e e' he he' := h.unique (n :: q) e e' (mem_entries_cons.mpr ⟨d, hd, he⟩)
    (mem_entries_cons.mpr ⟨d, hd, he'⟩)
  mark_of_dir q e he := h.mark_of_dir (n :: q) e (mem_entries_cons.mpr ⟨d, hd, he⟩)
  mark_iff q m := by
    have := h.mark_iff (n :: q) m
    rw [List.cons_append, mem_entries_cons, mem_nodes_cons] at this
    simpa [hd] using this

/-- A tree that the view sees whole and whose view is well formed is well formed. -/
theorem wellFormed_of_view (hf : f.Distinct) (h : f.view.WellFormed fileMarking) :
    f.WellFormed := by
  induction f using Folder.ind with
  | h f ih =>
    refine ⟨?_, hf.folders_nodup, fun e he => ?_, fun n => ?_, fun d hd => ?_⟩
    · refine List.Nodup.map_on (fun e he e' he' hn => ?_) hf.files_nodup
      exact h.unique [] e e' (mem_entries_nil.mpr he) (mem_entries_nil.mpr he') hn
    · exact h.mark_of_dir [] e (mem_entries_nil.mpr he)
    · have := h.mark_iff [] n
      rwa [mem_entries_nil, List.nil_append, mem_nodes_singleton] at this
    · exact ih d hd (hf.of_mem hd) (view_child_wellFormed h (child_of_mem hf hd))

/-- The names on the path of an entry, and its own. -/
theorem Named.of_mem_entries (hf : f.Named) (he : (q, e) ∈ f.view.entries) :
    (∀ n ∈ q, IsName n) ∧ IsName e.name := by
  induction q generalizing f with
  | nil =>
    have h := (allFolders_iff.mp hf).1
    rw [Bool.and_eq_true, List.all_eq_true] at h
    exact ⟨nofun, of_decide_eq_true (h.1 e (mem_entries_nil.mp he))⟩
  | cons n q ih =>
    obtain ⟨d, hd, he⟩ := mem_entries_cons.mp he
    obtain ⟨hnames, hsub⟩ := allFolders_iff.mp hf
    obtain ⟨hq, hname⟩ := ih (hsub d (child_mem hd)) he
    rw [Bool.and_eq_true, List.all_eq_true, List.all_eq_true] at hnames
    have hn := of_decide_eq_true (hnames.2 d (child_mem hd))
    rw [child_name hd] at hn
    exact ⟨fun m hm => (List.mem_cons.mp hm).elim (fun h => h ▸ hn) (hq m), hname⟩

theorem allFolders_files (test : File → Bool)
    (h : f.allFolders (fun d => d.files.all test) = true) (he : (q, e) ∈ f.view.entries) :
    test e = true := by
  induction q generalizing f with
  | nil => exact List.all_eq_true.mp (allFolders_iff.mp h).1 e (mem_entries_nil.mp he)
  | cons n q ih =>
    obtain ⟨d, hd, he⟩ := mem_entries_cons.mp he
    exact ih ((allFolders_iff.mp h).2 d (child_mem hd)) he

/-! ## Trees with one view -/

/-- The view of a child is the part of the view below its name. -/
theorem view_child_eq (h : f.view = g.view) (hd : f.child n = some d) :
    ∃ d', g.child n = some d' ∧ d.view = d'.view := by
  have hn : [n] ∈ g.view.nodes := by
    rw [← h, mem_nodes_cons]
    exact ⟨d, hd, mem_nodes_nil⟩
  obtain ⟨d', hd', -⟩ := mem_nodes_cons.mp hn
  refine ⟨d', hd', ?_⟩
  ext x
  · obtain ⟨q, e⟩ := x
    have : (n :: q, e) ∈ f.view.entries ↔ (n :: q, e) ∈ g.view.entries := by rw [h]
    rw [mem_entries_cons, mem_entries_cons] at this
    simpa [hd, hd'] using this
  · have : n :: x ∈ f.view.nodes ↔ n :: x ∈ g.view.nodes := by rw [h]
    rw [mem_nodes_cons, mem_nodes_cons] at this
    simpa [hd, hd'] using this

/-- **Extensionality.** Trees with one view are the same up to the order inside each folder. -/
theorem sameTree_of_view_eq (hf : f.Distinct) (hg : g.Distinct) (h : f.view = g.view) :
    SameTree f g := by
  induction f using Folder.ind generalizing g with
  | h f ih =>
    -- the folder of `g` that corresponds to a folder of `f`
    let twin (d : Folder) : Folder := (g.child d.name).getD d
    have htwin : ∀ d ∈ f.folders, g.child d.name = some (twin d) ∧ d.view = (twin d).view := by
      intro d hd
      obtain ⟨d', hd', hv⟩ := view_child_eq h (child_of_mem hf hd)
      have : twin d = d' := by simp [twin, hd']
      exact this ▸ ⟨hd', hv⟩
    have hnames : f.folders.map Folder.name = (f.folders.map twin).map Folder.name := by
      rw [List.map_map]
      exact List.map_congr_left fun d hd => (child_name (htwin d hd).1).symm
    have hmem : ∀ c, c ∈ f.folders.map twin ↔ c ∈ g.folders := by
      intro c
      constructor
      · rw [List.mem_map]
        rintro ⟨d, hd, rfl⟩
        exact child_mem (htwin d hd).1
      · intro hc
        obtain ⟨d, hd, -⟩ := view_child_eq h.symm (child_of_mem hg hc)
        have := (htwin d (child_mem hd)).1
        rw [child_name hd, child_of_mem hg hc] at this
        exact List.mem_map.mpr ⟨d, child_mem hd, (Option.some.inj this).symm⟩
    refine ⟨f.folders.map twin, ?_, hnames, ?_, ?_⟩
    · rw [List.perm_ext_iff_of_nodup hf.files_nodup hg.files_nodup]
      intro e
      rw [← mem_entries_nil, ← mem_entries_nil (f := g), h]
    · rw [List.forall₂_map_right_iff, List.forall₂_same]
      exact fun d hd => ih d hd (hf.of_mem hd) (hg.child (htwin d hd).1) (htwin d hd).2
    · refine (List.perm_ext_iff_of_nodup ?_ hg.folders_nodup.of_map).mpr hmem
      exact (hnames ▸ hf.folders_nodup).of_map

end Folder

end DartSync
