import DartSync.FileSystem.Iterator

/-!
# The order of iteration

With the files first an iterator lists what lies in a folder before the folder, with the folders
first it lists the folder before. The client relies on it: it removes files before their folder and
makes a folder before what goes into it.
-/

namespace DartSync

variable {f : Folder} {ds : List Folder} {path : CString} {x y : List CString × File}
  {q : List CString} {e : File}

/-- The items of an iterator over a tree, in order. -/
theorem filesystemIterator_eq (rootPath : CString) (fileFirst : Bool) :
    filesystemIterator rootPath fileFirst f =
      (entryList fileFirst f).map fun x => itemOf (joinPath rootPath x.1) x.2 := by
  unfold filesystemIterator
  rw [filesystemGetPathList_eq, List.map_map]
  exact List.map_congr_left fun x _ => filesystemiteratorNext_listed

theorem filesystemIteratorRelative_eq (fileFirst : Bool) : filesystemIteratorRelative fileFirst f =
    (entryList fileFirst f).map fun x => itemOf (joinPath .empty x.1) x.2 :=
  filesystemIterator_eq .empty fileFirst

/-- `x` is a folder and `y` lies in it. -/
def Above (x y : List CString × File) : Prop := x.2.isFolder ≠ 0 ∧ x.1 ++ [x.2.name] <+: y.1

theorem not_above_nil : ¬ Above x ([], e) := fun h => by simpa using h.2.length_le

theorem above_cons {n m : CString} :
    Above (n :: x.1, x.2) (m :: y.1, y.2) ↔ n = m ∧ Above x y := by
  unfold Above
  rw [List.cons_append, List.cons_prefix_cons]
  tauto

/-- A relation that holds between what lies in different folders, and in each folder. -/
theorem pairwise_entryLists {R : List CString × File → List CString × File → Prop}
    (fileFirst : Bool) (hnames : (ds.map Folder.name).Nodup)
    (hsame : ∀ d ∈ ds, (entryList fileFirst d).Pairwise fun x y =>
      R (d.name :: x.1, x.2) (d.name :: y.1, y.2))
    (hother : ∀ (n m : CString) (x y : List CString × File), n ≠ m →
      R (n :: x.1, x.2) (m :: y.1, y.2)) :
    (entryLists fileFirst ds).Pairwise R := by
  induction ds with
  | nil => exact List.Pairwise.nil
  | cons d ds ih =>
    rw [List.map_cons, List.nodup_cons] at hnames
    rw [entryLists_cons, List.pairwise_append, List.pairwise_map]
    refine ⟨hsame d List.mem_cons_self,
      ih hnames.2 fun d' hd' => hsame d' (List.mem_cons_of_mem d hd'), fun x hx y hy => ?_⟩
    obtain ⟨x, -, rfl⟩ := List.mem_map.mp hx
    obtain ⟨d', hd', y, -, rfl⟩ := (mem_entryLists fileFirst).mp hy
    refine hother _ _ x y fun h => hnames.1 ?_
    rw [h]
    exact List.mem_map_of_mem hd'

/-- **Files first.** No folder is listed before what lies in it. -/
theorem pairwise_entryList_true (hf : f.Distinct) :
    (entryList true f).Pairwise fun x y => ¬ Above x y := by
  induction f using Folder.ind with
  | h f ih =>
    obtain ⟨name, files, folders⟩ := f
    have hlists := pairwise_entryLists (R := fun x y => ¬ Above x y) true hf.folders_nodup
      (fun d hd => (ih d hd (hf.of_mem hd)).imp fun h => fun h' => h (above_cons.mp h').2)
      fun n m x y hne h => hne (above_cons.mp h).1
    rw [entryList, if_pos rfl, List.pairwise_append, List.pairwise_append]
    have hplain : ∀ x ∈ (files.filter fun file => file.isFolder = 0).map fun e => ([], e),
        ∀ y, ¬ Above x y := by
      intro x hx y h
      obtain ⟨e, he, rfl⟩ := List.mem_map.mp hx
      exact h.1 (of_decide_eq_true (List.mem_filter.mp he).2)
    refine ⟨⟨?_, hlists, fun x hx y _ => hplain x hx y⟩, ?_, fun x _ y hy => ?_⟩
    · exact List.pairwise_of_forall_mem_list fun x hx y _ => hplain x hx y
    · refine List.pairwise_of_forall_mem_list fun x _ y hy => ?_
      obtain ⟨e, -, rfl⟩ := List.mem_map.mp hy
      exact not_above_nil
    · obtain ⟨e, -, rfl⟩ := List.mem_map.mp hy
      exact not_above_nil

/-- **Folders first.** No folder is listed after what lies in it. -/
theorem pairwise_entryList_false (hf : f.Distinct) :
    (entryList false f).Pairwise fun x y => ¬ Above y x := by
  induction f using Folder.ind with
  | h f ih =>
    obtain ⟨name, files, folders⟩ := f
    have hlists := pairwise_entryLists (R := fun x y => ¬ Above y x) false hf.folders_nodup
      (fun d hd => (ih d hd (hf.of_mem hd)).imp fun h => fun h' => h (above_cons.mp h').2)
      fun n m x y hne h => hne (above_cons.mp h).1.symm
    rw [entryList, if_neg Bool.false_ne_true, List.pairwise_append, List.pairwise_append]
    have hmarks : ∀ x ∈ (files.filter fun file => file.isFolder ≠ 0).map fun e => ([], e),
        ∀ y, ¬ Above y x := by
      intro x hx y h
      obtain ⟨e, -, rfl⟩ := List.mem_map.mp hx
      exact not_above_nil h
    have hplain : ∀ y ∈ (files.filter fun file => file.isFolder = 0).map fun e => ([], e),
        ∀ x, ¬ Above y x := by
      intro y hy x h
      obtain ⟨e, he, rfl⟩ := List.mem_map.mp hy
      exact h.1 (of_decide_eq_true (List.mem_filter.mp he).2)
    refine ⟨⟨?_, hlists, fun x hx y _ => hmarks x hx y⟩, ?_, fun x _ y hy => hplain y hy x⟩
    · exact List.pairwise_of_forall_mem_list fun x hx y _ => hmarks x hx y
    · exact List.pairwise_of_forall_mem_list fun x _ y hy => hplain y hy x

end DartSync
