import DartSync.ChunkyFile
import DartSync.FileSystem.Subtract

/-!
# The synchronised directory

The directory on disk as a table of its paths, with the system calls that the client makes:
`readdir` and `stat` inside `folder_new`, `remove`, `mkdir`, and the writing of a file. The root of
the table is the synchronised directory, so paths are relative to it. Every change touches one path
only (`lookup_remove`, `lookup_mkdir`, `lookup_write`), and `mem_entries_filesystemNew` describes a
snapshot.
-/

namespace DartSync

open KeyedList

/-- What lies at a path. -/
inductive Node
  | dir
  | file (content : List UInt8) (mtime : Int64)
  deriving DecidableEq

/-- A directory tree. No path occurs twice, the parent of a path is a directory, the root is not
listed, and every name is legal. -/
structure Directory where
  nodes : List (List CString × Node)
  unique : (nodes.map Prod.fst).Nodup
  closed : ∀ p n, p ++ [n] ∈ nodes.map Prod.fst → p = [] ∨ (p, Node.dir) ∈ nodes
  root : [] ∉ nodes.map Prod.fst
  named : ∀ p ∈ nodes.map Prod.fst, ∀ n ∈ p, IsName n

/-- A directory without content. -/
def Directory.empty : Directory where
  nodes := []
  unique := List.nodup_nil
  closed _ _ h := absurd h List.not_mem_nil
  root := List.not_mem_nil
  named _ h := absurd h List.not_mem_nil

/-- The names that `folder_new` leaves out: `d_name[0] == '.'`. -/
def IsHidden (n : CString) : Prop := n.bytes.head? = some 46

instance : DecidablePred IsHidden := fun n => inferInstanceAs (Decidable (n.bytes.head? = some 46))

/-- The components of a path as the system resolves it; `acc` is the component being read. -/
def resolveBytes : List UInt8 → List UInt8 → List CString
  | acc, [] => if acc = [] then [] else [.ofBytes acc]
  | acc, b :: rest =>
    if b = 47 then
      if acc = [] then resolveBytes [] rest else .ofBytes acc :: resolveBytes [] rest
    else resolveBytes (acc ++ [b]) rest

/-- The path of names to which a path string leads. The names `.` and `..` are not special here:
they are hidden, so no snapshot lists them. -/
def resolve (path : CString) : List CString := resolveBytes [] path.bytes

namespace Directory

variable {dir : Directory} {p q : List CString} {n : CString} {node : Node} {e : File}

/-! ## Lookups -/

def lookup (dir : Directory) (p : List CString) : Option Node :=
  (findKey Prod.fst p dir.nodes).map Prod.snd

/-- `p` is the root or a directory. -/
def IsDir (dir : Directory) (p : List CString) : Prop := p = [] ∨ dir.lookup p = some .dir

instance (dir : Directory) (p : List CString) : Decidable (dir.IsDir p) :=
  inferInstanceAs (Decidable (_ ∨ _))

theorem lookup_eq_some : dir.lookup p = some node ↔ (p, node) ∈ dir.nodes := by
  unfold lookup
  rw [Option.map_eq_some_iff]
  constructor
  · rintro ⟨⟨p', node'⟩, hx, rfl⟩
    obtain rfl : p' = p := key_of_findKey hx
    exact mem_of_findKey hx
  · intro h
    exact ⟨(p, node), findKey_of_mem dir.unique h, rfl⟩

theorem lookup_eq_none : dir.lookup p = none ↔ p ∉ dir.nodes.map Prod.fst := by
  unfold lookup
  rw [Option.map_eq_none_iff, findKey_eq_none]

@[simp] theorem lookup_nil : dir.lookup [] = none := lookup_eq_none.mpr dir.root

/-- What exists lies in a directory. -/
theorem isDir_of_lookup (h : dir.lookup (p ++ [n]) = some node) : dir.IsDir p :=
  (dir.closed p n (List.mem_map_of_mem (lookup_eq_some.mp h))).imp id lookup_eq_some.mpr

theorem isName_of_lookup (h : dir.lookup p = some node) : ∀ n ∈ p, IsName n :=
  dir.named p (List.mem_map_of_mem (lookup_eq_some.mp h))

theorem isDir_of_append (r : List CString) (h : dir.lookup (p ++ n :: r) = some node) :
    dir.IsDir p := by
  induction r using List.reverseRecOn generalizing node with
  | nil => exact isDir_of_lookup h
  | append_singleton r m ih =>
    rw [show p ++ n :: (r ++ [m]) = (p ++ n :: r) ++ [m] by simp] at h
    rcases isDir_of_lookup h with h | h
    · simp at h
    · exact ih h

/-! ## System calls -/

/-- Nothing lies directly below `p`. -/
def IsEmptyDir (dir : Directory) (p : List CString) : Prop :=
  ∀ x ∈ dir.nodes, x.1.dropLast = p → x.1 = []

instance (dir : Directory) (p : List CString) : Decidable (dir.IsEmptyDir p) :=
  inferInstanceAs (Decidable (∀ x ∈ dir.nodes, _))

/-- A path without anything below it can be taken out. -/
def erase (dir : Directory) (p : List CString) (h : dir.lookup p ≠ some .dir ∨ dir.IsEmptyDir p) :
    Directory where
  nodes := eraseKey Prod.fst p dir.nodes
  unique := nodup_map_eraseKey dir.unique
  closed q n hq := by
    have hmem := (eraseKey_sublist.map Prod.fst).subset hq
    refine (dir.closed q n hmem).imp id fun hdir => ?_
    have hne : q ≠ p := by
      rintro rfl
      rcases h with h | h
      · exact h (lookup_eq_some.mpr hdir)
      · obtain ⟨x, hx, hxq⟩ := List.mem_map.mp hmem
        have := h x hx (by rw [hxq, List.dropLast_concat])
        rw [hxq] at this
        simp at this
    have hfind : findKey Prod.fst q (eraseKey Prod.fst p dir.nodes) = _ := findKey_eraseKey_of_ne hne
    rw [findKey_of_mem (x := (q, Node.dir)) dir.unique hdir] at hfind
    exact mem_of_findKey hfind
  root h := dir.root ((eraseKey_sublist.map Prod.fst).subset h)
  named q hq := dir.named q ((eraseKey_sublist.map Prod.fst).subset hq)

/-- Something can be made at `p`: it is no directory, its parent is one, and the names are legal. -/
def HasRoom (dir : Directory) (p : List CString) : Prop :=
  p ≠ [] ∧ dir.lookup p ≠ some .dir ∧ dir.IsDir p.dropLast ∧ ∀ n ∈ p, IsName n

instance (dir : Directory) (p : List CString) : Decidable (dir.HasRoom p) :=
  inferInstanceAs (Decidable (_ ∧ _))

/-- A new node in an existing directory. -/
def insert (dir : Directory) (p : List CString) (node : Node) (h : dir.HasRoom p) : Directory where
  nodes := (p, node) :: eraseKey Prod.fst p dir.nodes
  unique := List.nodup_cons.mpr ⟨findKey_eq_none.mp (findKey_eraseKey_self dir.unique),
    nodup_map_eraseKey dir.unique⟩
  closed q n hq := by
    rw [List.map_cons, List.mem_cons] at hq
    have hkeep : (q, Node.dir) ∈ dir.nodes → (q, Node.dir) ∈ eraseKey Prod.fst p dir.nodes := by
      intro hdir
      have hne : q ≠ p := by
        rintro rfl
        exact h.2.1 (lookup_eq_some.mpr hdir)
      have hfind : findKey Prod.fst q (eraseKey Prod.fst p dir.nodes) = _ := findKey_eraseKey_of_ne hne
      rw [findKey_of_mem (x := (q, Node.dir)) dir.unique hdir] at hfind
      exact mem_of_findKey hfind
    rcases hq with rfl | hq
    · have hparent := h.2.2.1
      rw [List.dropLast_concat] at hparent
      exact hparent.imp id fun h => List.mem_cons_of_mem _ (hkeep (lookup_eq_some.mp h))
    · exact (dir.closed q n ((eraseKey_sublist.map Prod.fst).subset hq)).imp id fun hdir =>
        List.mem_cons_of_mem _ (hkeep hdir)
  root hroot := by
    rw [List.map_cons, List.mem_cons] at hroot
    exact hroot.elim (fun h' => h.1 h'.symm)
      fun h' => dir.root ((eraseKey_sublist.map Prod.fst).subset h')
  named q hq := by
    rw [List.map_cons, List.mem_cons] at hq
    rcases hq with rfl | hq
    · exact h.2.2.2
    · exact dir.named q ((eraseKey_sublist.map Prod.fst).subset hq)

/-- `remove`: a file, or an empty directory. -/
def remove (dir : Directory) (p : List CString) : Directory :=
  if h : dir.lookup p ≠ some .dir ∨ dir.IsEmptyDir p then dir.erase p h else dir

/-- `mkdir`: in an existing directory, at a free path. -/
def mkdir (dir : Directory) (p : List CString) : Directory :=
  if h : dir.HasRoom p then
    if dir.lookup p = none then dir.insert p .dir h else dir
  else dir

/-- `fopen(path, "w+")`, the bytes, and `utime`; the `FILE*` is NULL where no file can be. -/
def write (dir : Directory) (p : List CString) (content : List UInt8) (mtime : Int64) :
    Except Abort Directory :=
  if h : dir.HasRoom p then .ok (dir.insert p (.file content mtime) h) else .error .nullPointer

theorem lookup_erase {h : dir.lookup p ≠ some .dir ∨ dir.IsEmptyDir p} :
    (dir.erase p h).lookup q = if q = p then none else dir.lookup q := by
  unfold lookup erase
  rw [findKey_eraseKey dir.unique]
  split_ifs <;> rfl

theorem lookup_insert {h : dir.HasRoom p} : (dir.insert p node h).lookup q =
    if q = p then some node else dir.lookup q := by
  unfold lookup insert
  rw [findKey_cons]
  by_cases hq : q = p
  · simp [hq]
  · rw [if_neg (Ne.symm hq), if_neg hq, findKey_eraseKey_of_ne hq]

/-- `remove` touches no other path. -/
theorem lookup_remove_of_ne (h : q ≠ p) : (dir.remove p).lookup q = dir.lookup q := by
  unfold remove
  split_ifs with hrem
  · rw [lookup_erase, if_neg h]
  · rfl

theorem lookup_remove_self (h : dir.lookup p ≠ some .dir ∨ dir.IsEmptyDir p) :
    (dir.remove p).lookup p = none := by
  unfold remove
  rw [dif_pos h, lookup_erase, if_pos rfl]

/-- `mkdir` touches no other path. -/
theorem lookup_mkdir_of_ne (h : q ≠ p) : (dir.mkdir p).lookup q = dir.lookup q := by
  unfold mkdir
  split_ifs
  · rw [lookup_insert, if_neg h]
  · rfl
  · rfl

theorem lookup_mkdir_self (hp : p ≠ []) (hfree : dir.lookup p = none)
    (hparent : dir.IsDir p.dropLast) (hnames : ∀ n ∈ p, IsName n) :
    (dir.mkdir p).lookup p = some .dir := by
  have hroom : dir.HasRoom p := ⟨hp, by rw [hfree]; nofun, hparent, hnames⟩
  unfold mkdir
  rw [dif_pos hroom, if_pos hfree, lookup_insert, if_pos rfl]

/-- Writing a file touches no other path. -/
theorem lookup_write {dir' : Directory} {content : List UInt8} {mtime : Int64}
    (h : dir.write p content mtime = .ok dir') :
    dir'.lookup q = if q = p then some (.file content mtime) else dir.lookup q := by
  unfold write at h
  by_cases hroom : dir.HasRoom p
  · rw [dif_pos hroom] at h
    rw [← Except.ok.inj h, lookup_insert]
  · rw [dif_neg hroom] at h
    cases h

/-! ## Snapshots -/

/-- `readdir`, without the names left out: what lies directly below `p`. -/
def readdir (dir : Directory) (p : List CString) : List (CString × Node) :=
  dir.nodes.filterMap fun x => match x.1.getLast? with
    | some n => if x.1.dropLast = p ∧ ¬ IsHidden n then some (n, x.2) else none
    | none => none

/-- `file_new`, and the entry that `folder_new` makes for a folder. -/
def entryOf (n : CString) : Node → File
  | .dir => marker n
  | .file content mtime => ⟨n, UInt64.ofNat content.length, mtime, 0⟩

/-- `folder_new`; `fuel` bounds the depth. -/
def folderNew (dir : Directory) : ℕ → List CString → CString → Folder
  | 0, _, name => ⟨name, [], []⟩
  | fuel + 1, p, name =>
    let content := dir.readdir p
    { name := name
      files := content.map fun x => entryOf x.1 x.2
      folders := (content.filter fun x => x.2 = .dir).map fun x =>
        folderNew dir fuel (p ++ [x.1]) x.1 }

/-- The length of the longest path. -/
def depth (dir : Directory) : ℕ := (dir.nodes.map fun x => x.1.length).foldr max 0

/-- `filesystem_new` of the directory. -/
def filesystemNew (dir : Directory) : Folder := dir.folderNew (dir.depth + 1) [] .empty

theorem length_le_depth (h : dir.lookup p = some node) : p.length ≤ dir.depth := by
  have hmem := lookup_eq_some.mp h
  unfold depth
  generalize dir.nodes = l at hmem
  induction l with
  | nil => exact absurd hmem List.not_mem_nil
  | cons x l ih =>
    rw [List.map_cons, List.foldr_cons]
    rcases List.mem_cons.mp hmem with rfl | hmem
    · exact le_max_left _ _
    · exact (ih hmem).trans (le_max_right _ _)

theorem mem_readdir : (n, node) ∈ dir.readdir p ↔
    ¬ IsHidden n ∧ dir.lookup (p ++ [n]) = some node := by
  unfold readdir
  rw [List.mem_filterMap, lookup_eq_some]
  constructor
  · rintro ⟨⟨r, node'⟩, hx, h⟩
    rcases List.eq_nil_or_concat r with rfl | ⟨r, m, rfl⟩
    · simp at h
    · rw [List.concat_eq_append] at hx h
      simp only [List.getLast?_append, List.getLast?_singleton, Option.some_or,
        List.dropLast_concat, Option.ite_none_right_eq_some, Option.some.injEq,
        Prod.mk.injEq] at h
      obtain ⟨⟨rfl, hhid⟩, rfl, rfl⟩ := h
      exact ⟨hhid, hx⟩
  · rintro ⟨hhid, hx⟩
    exact ⟨_, hx, by simp [hhid]⟩

theorem nodup_readdir : ((dir.readdir p).map Prod.fst).Nodup := by
  have hunique := dir.unique
  unfold readdir
  generalize dir.nodes = l at hunique
  induction l with
  | nil => exact List.nodup_nil
  | cons x l ih =>
    rw [List.map_cons, List.nodup_cons] at hunique
    rw [List.filterMap_cons]
    split
    · exact ih hunique.2
    · rename_i y hy
      rw [List.map_cons, List.nodup_cons]
      refine ⟨fun hmem => hunique.1 ?_, ih hunique.2⟩
      obtain ⟨z, hz, hzy⟩ := List.mem_map.mp hmem
      obtain ⟨w, hw, hwz⟩ := List.mem_filterMap.mp hz
      -- both paths are `p` and the same name
      have hpath : ∀ {v : List CString × Node} {u : CString × Node},
          (match v.1.getLast? with
            | some n => if v.1.dropLast = p ∧ ¬ IsHidden n then some (n, v.2) else none
            | none => none) = some u → v.1 = p ++ [u.1] := by
        rintro ⟨r, node⟩ u hu
        rcases List.eq_nil_or_concat r with rfl | ⟨r, m, rfl⟩
        · simp at hu
        · simp only [List.concat_eq_append, List.getLast?_append, List.getLast?_singleton,
            Option.some_or, List.dropLast_concat, Option.ite_none_right_eq_some,
            Option.some.injEq] at hu
          obtain ⟨⟨rfl, -⟩, rfl⟩ := hu
          simp
      rw [hpath hy, ← hzy, ← hpath hwz]
      exact List.mem_map_of_mem hw

@[simp] theorem entryOf_name : (entryOf n node).name = n := by cases node <;> rfl

theorem name_folderNew {fuel : ℕ} {name : CString} : (dir.folderNew fuel p name).name = name := by
  cases fuel <;> rfl

theorem mem_files_folderNew {fuel : ℕ} {name : CString} :
    e ∈ (dir.folderNew (fuel + 1) p name).files ↔ ¬ IsHidden e.name ∧
      (dir.lookup (p ++ [e.name])).map (entryOf e.name) = some e := by
  show e ∈ (dir.readdir p).map _ ↔ _
  rw [List.mem_map, Option.map_eq_some_iff]
  constructor
  · rintro ⟨⟨n, node⟩, hx, rfl⟩
    obtain ⟨hhid, hlook⟩ := mem_readdir.mp hx
    rw [entryOf_name]
    exact ⟨hhid, node, hlook, rfl⟩
  · rintro ⟨hhid, node, hlook, he⟩
    exact ⟨(e.name, node), mem_readdir.mpr ⟨hhid, hlook⟩, he⟩

theorem child_folderNew {fuel : ℕ} {name : CString} :
    (dir.folderNew (fuel + 1) p name).child n =
      if ¬ IsHidden n ∧ dir.lookup (p ++ [n]) = some .dir then
        some (dir.folderNew fuel (p ++ [n]) n) else none := by
  have hnames : (((dir.readdir p).filter fun x => x.2 = .dir).map fun x =>
      dir.folderNew fuel (p ++ [x.1]) x.1).map Folder.name =
      ((dir.readdir p).filter fun x => x.2 = .dir).map Prod.fst := by
    rw [List.map_map]
    exact List.map_congr_left fun x _ => name_folderNew
  have hnodup : ((((dir.readdir p).filter fun x => x.2 = .dir).map fun x =>
      dir.folderNew fuel (p ++ [x.1]) x.1).map Folder.name).Nodup := by
    rw [hnames]
    exact nodup_readdir.sublist (List.filter_sublist.map _)
  refine Option.ext fun d => ?_
  show findKey Folder.name n (((dir.readdir p).filter fun x => x.2 = .dir).map fun x =>
    dir.folderNew fuel (p ++ [x.1]) x.1) = some d ↔ _
  rw [findKey_eq_some hnodup, List.mem_map]
  constructor
  · rintro ⟨⟨⟨m, node⟩, hx, rfl⟩, hname⟩
    rw [name_folderNew] at hname
    obtain rfl : m = n := hname
    obtain ⟨hx, hdir⟩ := List.mem_filter.mp hx
    obtain rfl : node = .dir := of_decide_eq_true hdir
    rw [if_pos (mem_readdir.mp hx)]
  · intro h
    split_ifs at h with hn
    cases h
    exact ⟨⟨(n, .dir), List.mem_filter.mpr ⟨mem_readdir.mpr hn, rfl⟩, rfl⟩, name_folderNew⟩

theorem lookup_eq_none_of_depth (h : dir.depth < p.length) : dir.lookup p = none := by
  cases hl : dir.lookup p with
  | none => rfl
  | some node => exact absurd (length_le_depth hl) (not_le.mpr h)

theorem mem_entries_folderNew {fuel : ℕ} {name : CString} (hfuel : dir.depth < fuel + p.length) :
    (q, e) ∈ (dir.folderNew fuel p name).view.entries ↔ (∀ n ∈ q ++ [e.name], ¬ IsHidden n) ∧
      (dir.lookup (p ++ q ++ [e.name])).map (entryOf e.name) = some e := by
  induction fuel generalizing p q name with
  | zero =>
    rw [lookup_eq_none_of_depth (by rw [List.length_append, List.length_append]; omega)]
    exact iff_of_false (Folder.not_mem_entries_of_isEmpty rfl _) (fun h => nomatch h.2)
  | succ fuel ih =>
    cases q with
    | nil =>
      rw [Folder.mem_entries_nil, mem_files_folderNew]
      simp
    | cons n q =>
      rw [Folder.mem_entries_cons, child_folderNew]
      have hassoc : p ++ n :: q ++ [e.name] = p ++ [n] ++ q ++ [e.name] := by simp
      rw [hassoc]
      constructor
      · rintro ⟨d, hd, he⟩
        split_ifs at hd with hn
        cases hd
        obtain ⟨hhid, hlook⟩ := (ih (by simp; omega)).mp he
        refine ⟨fun m hm => ?_, hlook⟩
        rcases List.mem_cons.mp hm with rfl | hm
        exacts [hn.1, hhid m hm]
      · rintro ⟨hhid, hlook⟩
        obtain ⟨node, hnode, -⟩ := Option.map_eq_some_iff.mp hlook
        have hdir : dir.lookup (p ++ [n]) = some .dir := by
          have hd : dir.IsDir (p ++ [n]) := by
            rcases q with - | ⟨m, q⟩
            · exact isDir_of_lookup (by simpa using hnode)
            · exact isDir_of_append (n := m) (q ++ [e.name]) (by simpa using hnode)
          exact hd.resolve_left (by simp)
        exact ⟨_, if_pos ⟨hhid n (by simp), hdir⟩, (ih (by simp; omega)).mpr
          ⟨fun m hm => hhid m (List.mem_cons_of_mem n hm), hlook⟩⟩

theorem mem_nodes_folderNew {fuel : ℕ} {name : CString} (hfuel : dir.depth < fuel + p.length) :
    q ∈ (dir.folderNew fuel p name).view.nodes ↔
      q = [] ∨ (∀ n ∈ q, ¬ IsHidden n) ∧ dir.lookup (p ++ q) = some .dir := by
  induction fuel generalizing p q name with
  | zero =>
    cases q with
    | nil => simp
    | cons n q =>
      rw [lookup_eq_none_of_depth (by rw [List.length_append, List.length_cons]; omega)]
      refine iff_of_false (fun h => ?_) (by simp)
      obtain ⟨d, hd, -⟩ := Folder.mem_nodes_cons.mp h
      exact absurd (Folder.child_mem hd) List.not_mem_nil
  | succ fuel ih =>
    cases q with
    | nil => simp
    | cons n q =>
      rw [Folder.mem_nodes_cons, child_folderNew]
      have hassoc : p ++ n :: q = p ++ [n] ++ q := by simp
      rw [hassoc, or_iff_right (List.cons_ne_nil n q)]
      constructor
      · rintro ⟨d, hd, hq⟩
        split_ifs at hd with hn
        cases hd
        rcases (ih (by simp; omega)).mp hq with rfl | ⟨hhid, hlook⟩
        · exact ⟨by simpa using hn.1, by simpa using hn.2⟩
        · refine ⟨fun m hm => ?_, hlook⟩
          rcases List.mem_cons.mp hm with rfl | hm
          exacts [hn.1, hhid m hm]
      · rintro ⟨hhid, hlook⟩
        have hdir : dir.lookup (p ++ [n]) = some .dir := by
          rcases q with - | ⟨m, q⟩
          · simpa using hlook
          · exact (isDir_of_append (n := m) q (by simpa using hlook)).resolve_left (by simp)
        exact ⟨_, if_pos ⟨hhid n List.mem_cons_self, hdir⟩, (ih (by simp; omega)).mpr
          (Or.inr ⟨fun m hm => hhid m (List.mem_cons_of_mem n hm), hlook⟩)⟩

/-- **Snapshots.** The entries of a snapshot are what lies on visible paths. -/
theorem mem_entries_filesystemNew : (q, e) ∈ dir.filesystemNew.view.entries ↔
    (∀ n ∈ q ++ [e.name], ¬ IsHidden n) ∧
      (dir.lookup (q ++ [e.name])).map (entryOf e.name) = some e := by
  unfold filesystemNew
  rw [mem_entries_folderNew (by simp), List.nil_append]

theorem mem_nodes_filesystemNew : q ∈ dir.filesystemNew.view.nodes ↔
    q = [] ∨ (∀ n ∈ q, ¬ IsHidden n) ∧ dir.lookup q = some .dir := by
  unfold filesystemNew
  rw [mem_nodes_folderNew (by simp), List.nil_append]

theorem distinct_folderNew {fuel : ℕ} {name : CString} : (dir.folderNew fuel p name).Distinct := by
  induction fuel generalizing p name with
  | zero => exact ⟨List.nodup_nil, List.nodup_nil, nofun⟩
  | succ fuel ih =>
    refine ⟨?_, ?_, fun d hd => ?_⟩
    · refine List.Nodup.of_map File.name ?_
      show (((dir.readdir p).map fun x => entryOf x.1 x.2).map File.name).Nodup
      rw [List.map_map]
      have : File.name ∘ (fun x : CString × Node => entryOf x.1 x.2) = Prod.fst := by
        funext x; simp
      rw [this]
      exact nodup_readdir
    · show ((((dir.readdir p).filter _).map _).map Folder.name).Nodup
      rw [List.map_map]
      have : (Folder.name ∘ fun x : CString × Node => dir.folderNew fuel (p ++ [x.1]) x.1) =
          Prod.fst := by
        funext x; exact name_folderNew
      rw [this]
      exact nodup_readdir.sublist (List.filter_sublist.map _)
    · obtain ⟨x, -, rfl⟩ := List.mem_map.mp hd
      exact ih

theorem entryOf_isFolder (h : (entryOf n node).isFolder ≠ 0) : node = .dir := by
  cases node with
  | dir => rfl
  | file content mtime => exact absurd rfl h

/-- Every snapshot is well formed. -/
theorem wellFormed_filesystemNew (dir : Directory) : dir.filesystemNew.WellFormed := by
  refine Folder.wellFormed_of_view distinct_folderNew ⟨Folder.rooted_view _, ?_, ?_, ?_⟩
  · intro q e e' he he' hname
    obtain ⟨-, hlook⟩ := mem_entries_filesystemNew.mp he
    obtain ⟨-, hlook'⟩ := mem_entries_filesystemNew.mp he'
    rw [fileMarking_name, fileMarking_name] at hname
    rw [hname, hlook'] at hlook
    exact (Option.some.inj hlook).symm
  · intro q e he hdir
    obtain ⟨-, hlook⟩ := mem_entries_filesystemNew.mp he
    obtain ⟨node, -, hnode⟩ := Option.map_eq_some_iff.mp hlook
    obtain rfl : node = .dir := entryOf_isFolder (n := e.name) (by rw [hnode]; exact hdir)
    exact hnode.symm
  · intro q n
    rw [mem_entries_filesystemNew, mem_nodes_filesystemNew, or_iff_right (by simp)]
    refine and_congr Iff.rfl ?_
    rw [fileMarking_mark, marker_name, Option.map_eq_some_iff]
    constructor
    · rintro ⟨node, hlook, hnode⟩
      have hdir : node = .dir := entryOf_isFolder (n := n) (by rw [hnode]; exact marker_isFolder n)
      rw [hlook, hdir]
    · intro hlook
      exact ⟨.dir, hlook, rfl⟩

end Directory

/-! ## Path strings -/

theorem resolveBytes_append {acc n rest : List UInt8} (hn : 47 ∉ n) :
    resolveBytes acc (n ++ rest) = resolveBytes (acc ++ n) rest := by
  induction n generalizing acc with
  | nil => simp
  | cons b n ih =>
    rw [List.mem_cons, not_or] at hn
    rw [List.cons_append, resolveBytes, if_neg (Ne.symm hn.1), ih hn.2, List.append_assoc]
    rfl

theorem resolveBytes_names (comps : List CString) (hc : ∀ n ∈ comps, IsName n) (m : CString)
    (hm : m.bytes ≠ []) :
    resolveBytes m.bytes (comps.flatMap fun n => 47 :: n.bytes) = m :: comps := by
  have hof : ∀ m : CString, .ofBytes m.bytes = m := fun m => by
    simpa using CString.ofBytes_append m [] (Or.inl rfl)
  induction comps generalizing m with
  | nil => rw [List.flatMap_nil, resolveBytes, if_neg hm, hof]
  | cons n comps ih =>
    have hn := hc n List.mem_cons_self
    rw [List.flatMap_cons, List.cons_append, resolveBytes, if_pos rfl, if_neg hm, hof,
      resolveBytes_append hn.noSlash, List.nil_append,
      ih (fun k hk => hc k (List.mem_cons_of_mem n hk)) n hn.ne_nil]

/-- The path string of a list of names leads to the list. -/
theorem resolve_joinPath {comps : List CString} (hc : ∀ n ∈ comps, IsName n) :
    resolve (joinPath .empty comps) = comps := by
  unfold resolve
  rw [bytes_joinPath, CString.bytes_empty, List.nil_append]
  cases comps with
  | nil => rfl
  | cons n comps =>
    have hn := hc n List.mem_cons_self
    rw [List.flatMap_cons, List.cons_append, resolveBytes, if_pos rfl, if_pos rfl,
      resolveBytes_append hn.noSlash, List.nil_append,
      resolveBytes_names comps (fun k hk => hc k (List.mem_cons_of_mem n hk)) n hn.ne_nil]

end DartSync
