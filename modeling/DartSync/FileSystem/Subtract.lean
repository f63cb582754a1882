import DartSync.FileSystem.Folder

/-!
# `folder_subtract` and `filesystem_diff`

`folder_subtract` removes the entries of one tree from another and drops the folders that this
empties. `isDiff_folderSubtract` describes the result by its view: the entries are the set
difference, and the folders are folders of the first tree, among them all that the second lacks.
The two outputs of `filesystem_diff` are such differences.
-/

namespace DartSync

open KeyedList

/-- No files and no folders: the test of `folder_subtract` and of `filesystem_is_empty`. -/
def Folder.isEmpty (f : Folder) : Bool := f.files.length == 0 && f.folders.length == 0

mutual

/-- `folder_subtract`: `folder = folder - toSubtract` -/
def folderSubtract (equalsFunc : File → File → Bool) (folder : Folder) : Folder → Folder
  | ⟨_, files, folders⟩ =>
    ⟨folder.name, files.foldl (fun q x => (queueRemove q (equalsFunc x)).2) folder.files,
      subtractFolders equalsFunc folder.folders folders⟩

/-- The second loop of `folder_subtract`, over the folders to subtract. -/
def subtractFolders (equalsFunc : File → File → Bool) (folders : List Folder) :
    List Folder → List Folder
  | [] => folders
  | toRemove :: rest =>
    match queueSearch folders (folderEquals toRemove) with
    | none => subtractFolders equalsFunc folders rest
    | some removed =>
      let tmp := folderSubtract equalsFunc removed toRemove
      if tmp.isEmpty then
        subtractFolders equalsFunc (queueRemove folders (folderEquals toRemove)).2 rest
      else subtractFolders equalsFunc (replaceKey Folder.name toRemove.name tmp folders) rest

end

/-- `filesystem_minus_equals_diff` -/
def filesystemMinusEqualsDiff (filesystem0 filesystem1 : Folder)
    (equalsFunc : File → File → Bool) : Folder :=
  folderSubtract equalsFunc filesystem0 filesystem1

/-- `filesystem_diff_helper`: the additions and the deletions. The two copies the source makes are
the arguments themselves here. -/
def filesystemDiffHelper (old new : Folder) (equalsFunc : File → File → Bool) : Folder × Folder :=
  let additions := old
  let deletions := new
  let deletions := filesystemMinusEqualsDiff deletions additions equalsFunc
  let additions := filesystemMinusEqualsDiff additions new equalsFunc
  (deletions, additions)

/-- `filesystem_diff`: the additions and the deletions that lead from `old` to `new`. -/
def filesystemDiff (old new : Folder) : Folder × Folder := filesystemDiffHelper old new fileEquals

/-- `filesystem_is_empty` -/
def filesystemIsEmpty (filesystem : Folder) : Bool := filesystem.isEmpty

/-- `filesystem_equals` -/
def filesystemEquals (filesystem0 filesystem1 : Folder) : Bool :=
  let (additions, deletions) := filesystemDiff filesystem0 filesystem1
  filesystemIsEmpty additions && filesystemIsEmpty deletions

variable {equalsFunc : File → File → Bool} {f s d : Folder} {n : CString} {p : List CString}
  {acc ds : List Folder}

/-! ## Queue searches by name -/

theorem queueSearch_folderEquals (q : List Folder) (d : Folder) :
    queueSearch q (folderEquals d) = findKey Folder.name d.name q := by
  unfold queueSearch findKey folderEquals
  congr 1; funext x; simp [eq_comm]

theorem queueRemove_folderEquals (q : List Folder) (d : Folder) :
    (queueRemove q (folderEquals d)).2 = eraseKey Folder.name d.name q := by
  unfold queueRemove eraseKey folderEquals
  show q.eraseP _ = _
  congr 1; funext x; simp [eq_comm]

theorem queueRemove_fileEquals (q : List File) (x : File) :
    (queueRemove q (fileEquals x)).2 = q.erase x := by
  rw [List.erase_eq_eraseP]
  show q.eraseP _ = _
  congr 1; funext y
  exact Bool.eq_iff_iff.mpr (by simp)

/-! ## Empty folders -/

theorem Folder.isEmpty_iff : f.isEmpty = true ↔ f.files = [] ∧ f.folders = [] := by
  simp [Folder.isEmpty]

theorem Folder.eq_nil_of_isEmpty (h : f.isEmpty = true) (hp : p ∈ f.view.nodes) : p = [] := by
  cases p with
  | nil => rfl
  | cons n p =>
    obtain ⟨d, hd, -⟩ := Folder.mem_nodes_cons.mp hp
    have := Folder.child_mem hd
    rw [(Folder.isEmpty_iff.mp h).2] at this
    exact absurd this List.not_mem_nil

theorem Folder.not_mem_entries_of_isEmpty (h : f.isEmpty = true) (x : List CString × File) :
    x ∉ f.view.entries := by
  obtain ⟨q, e⟩ := x
  intro hx
  obtain rfl := Folder.eq_nil_of_isEmpty h (f.rooted_view.holds q e hx)
  rw [Folder.mem_entries_nil, (Folder.isEmpty_iff.mp h).1] at hx
  exact List.not_mem_nil hx

/-! ## The loops -/

@[simp] theorem name_folderSubtract : (folderSubtract equalsFunc f s).name = f.name := by
  cases s; rfl

@[simp] theorem files_folderSubtract : (folderSubtract equalsFunc f s).files =
    s.files.foldl (fun q x => (queueRemove q (equalsFunc x)).2) f.files := by
  cases s; rfl

@[simp] theorem folders_folderSubtract : (folderSubtract equalsFunc f s).folders =
    subtractFolders equalsFunc f.folders s.folders := by
  cases s; rfl

/-- What `folder_subtract` leaves of a folder, given the folder to subtract from it. -/
def subtractChild (equalsFunc : File → File → Bool) : Option Folder → Option Folder → Option Folder
  | some a, some b =>
    if (folderSubtract equalsFunc a b).isEmpty then none else some (folderSubtract equalsFunc a b)
  | o, _ => o

@[simp] theorem subtractFolders_nil : subtractFolders equalsFunc acc [] = acc := rfl

theorem subtractFolders_cons {ds : List Folder} : subtractFolders equalsFunc acc (d :: ds) =
    match findKey Folder.name d.name acc with
    | none => subtractFolders equalsFunc acc ds
    | some a => if (folderSubtract equalsFunc a d).isEmpty
      then subtractFolders equalsFunc (eraseKey Folder.name d.name acc) ds
      else subtractFolders equalsFunc
        (replaceKey Folder.name d.name (folderSubtract equalsFunc a d) acc) ds := by
  rw [← queueSearch_folderEquals, ← queueRemove_folderEquals]
  rfl

/-- A property of folders that subtracting keeps is kept by the loop. -/
theorem forall_subtractFolders {P : Folder → Prop}
    (h : ∀ a, P a → ∀ b ∈ ds, P (folderSubtract equalsFunc a b)) (hacc : ∀ a ∈ acc, P a) :
    ∀ a ∈ subtractFolders equalsFunc acc ds, P a := by
  induction ds generalizing acc with
  | nil => exact hacc
  | cons d ds ih =>
    have h' := fun a ha b hb => h a ha b (List.mem_cons_of_mem d hb)
    rw [subtractFolders_cons]
    cases ha : findKey Folder.name d.name acc with
    | none => exact ih h' hacc
    | some a =>
      dsimp only
      split_ifs
      · exact ih h' fun x hx => hacc x (mem_of_mem_eraseKey hx)
      · refine ih h' fun x hx => ?_
        rcases mem_of_mem_replaceKey hx with rfl | hx
        exacts [h a (hacc a (mem_of_findKey ha)) d List.mem_cons_self, hacc x hx]

theorem nodup_subtractFolders (hacc : (acc.map Folder.name).Nodup) :
    ((subtractFolders equalsFunc acc ds).map Folder.name).Nodup := by
  induction ds generalizing acc with
  | nil => exact hacc
  | cons d ds ih =>
    rw [subtractFolders_cons]
    cases ha : findKey Folder.name d.name acc with
    | none => exact ih hacc
    | some a =>
      have hname : (folderSubtract equalsFunc a d).name = d.name := by
        rw [name_folderSubtract, key_of_findKey ha]
      dsimp only
      split_ifs
      · exact ih (nodup_map_eraseKey hacc)
      · exact ih (by rwa [map_key_replaceKey hname])

/-- The loop treats each name on its own. -/
theorem findKey_subtractFolders (hacc : (acc.map Folder.name).Nodup)
    (hds : (ds.map Folder.name).Nodup) : findKey Folder.name n (subtractFolders equalsFunc acc ds) =
      subtractChild equalsFunc (findKey Folder.name n acc) (findKey Folder.name n ds) := by
  induction ds generalizing acc with
  | nil => rw [subtractFolders_nil]; cases findKey Folder.name n acc <;> rfl
  | cons d ds ih =>
    rw [List.map_cons, List.nodup_cons] at hds
    rw [subtractFolders_cons, findKey_cons]
    cases ha : findKey Folder.name d.name acc with
    | none =>
      dsimp only
      rw [ih hacc hds.2]
      split_ifs with hn
      · rw [← hn, ha]; rfl
      · rfl
    | some a =>
      have hname : (folderSubtract equalsFunc a d).name = d.name := by
        rw [name_folderSubtract, key_of_findKey ha]
      have hnone : findKey Folder.name d.name ds = none := findKey_eq_none.mpr hds.1
      dsimp only
      split_ifs with hempty hn hn
      · rw [ih (nodup_map_eraseKey hacc) hds.2, ← hn, findKey_eraseKey_self hacc, ha]
        simp [subtractChild, hempty]
      · rw [ih (nodup_map_eraseKey hacc) hds.2, findKey_eraseKey_of_ne (Ne.symm hn)]
      · have hmem := mem_map_key_of_findKey ha
        rw [ih (by rwa [map_key_replaceKey hname]) hds.2, ← hn, hnone,
          findKey_replaceKey_self hname hmem, ha]
        simp [subtractChild, hempty]
      · rw [ih (by rwa [map_key_replaceKey hname]) hds.2,
          findKey_replaceKey_of_ne hname (Ne.symm hn)]

theorem child_folderSubtract (hf : f.Distinct) (hs : s.Distinct) :
    (folderSubtract equalsFunc f s).child n = subtractChild equalsFunc (f.child n) (s.child n) := by
  unfold Folder.child
  rw [folders_folderSubtract, findKey_subtractFolders hf.folders_nodup hs.folders_nodup]

theorem files_sublist_folderSubtract :
    (folderSubtract equalsFunc f s).files.Sublist f.files := by
  rw [files_folderSubtract]
  generalize f.files = q
  induction s.files generalizing q with
  | nil => exact List.Sublist.refl _
  | cons x xs ih => exact (ih _).trans List.eraseP_sublist

theorem mem_files_folderSubtract (hf : f.Distinct) (e : File) :
    e ∈ (folderSubtract fileEquals f s).files ↔ e ∈ f.files ∧ e ∉ s.files := by
  rw [files_folderSubtract]
  simp only [queueRemove_fileEquals]
  rw [← List.diff_eq_foldl, List.Nodup.mem_sdiff_iff hf.files_nodup]

theorem Folder.Distinct.subtract (hf : f.Distinct) :
    (folderSubtract equalsFunc f s).Distinct := by
  induction s using Folder.ind generalizing f with
  | h s ih =>
    refine ⟨hf.files_nodup.sublist files_sublist_folderSubtract, ?_, ?_⟩
    · rw [folders_folderSubtract]; exact nodup_subtractFolders hf.folders_nodup
    · rw [folders_folderSubtract]
      exact forall_subtractFolders (fun a ha b hb => ih b hb ha) fun a ha => hf.of_mem ha

/-! ## The view of a difference -/

theorem entries_folderSubtract (hf : f.Distinct) (hs : s.Distinct) :
    (folderSubtract fileEquals f s).view.entries = f.view.entries \ s.view.entries := by
  ext ⟨q, e⟩
  induction q generalizing f s with
  | nil => simpa using mem_files_folderSubtract hf e
  | cons n q ih =>
    rw [Set.mem_sdiff, Folder.mem_entries_cons, Folder.mem_entries_cons, Folder.mem_entries_cons,
      child_folderSubtract hf hs]
    cases ha : f.child n with
    | none => simp [subtractChild]
    | some a =>
      cases hb : s.child n with
      | none => simp [subtractChild]
      | some b =>
        have hih := ih (hf.child ha) (hs.child hb)
        by_cases hempty : (folderSubtract fileEquals a b).isEmpty = true
        · have := Folder.not_mem_entries_of_isEmpty hempty (q, e)
          rw [hih] at this
          simpa [subtractChild, hempty] using this
        · simpa [subtractChild, hempty] using hih

theorem nodes_folderSubtract_le (hf : f.Distinct) (hs : s.Distinct) :
    (folderSubtract fileEquals f s).view.nodes ⊆ f.view.nodes := by
  intro p
  induction p generalizing f s with
  | nil => exact fun _ => Folder.mem_nodes_nil
  | cons n p ih =>
    rw [Folder.mem_nodes_cons, Folder.mem_nodes_cons, child_folderSubtract hf hs]
    cases ha : f.child n with
    | none => simp [subtractChild]
    | some a =>
      cases hb : s.child n with
      | none => simp [subtractChild]
      | some b =>
        have hih := ih (hf.child ha) (hs.child hb)
        by_cases hempty : (folderSubtract fileEquals a b).isEmpty = true
        · simp [subtractChild, hempty]
        · simpa [subtractChild, hempty] using hih

theorem nodes_folderSubtract_ge (hf : f.Distinct) (hs : s.Distinct) :
    f.view.nodes \ s.view.nodes ⊆ (folderSubtract fileEquals f s).view.nodes := by
  intro p
  induction p generalizing f s with
  | nil => exact fun h => absurd Folder.mem_nodes_nil h.2
  | cons n p ih =>
    rw [Set.mem_sdiff, Folder.mem_nodes_cons, Folder.mem_nodes_cons, Folder.mem_nodes_cons,
      child_folderSubtract hf hs]
    cases ha : f.child n with
    | none => simp
    | some a =>
      cases hb : s.child n with
      | none => simp [subtractChild]
      | some b =>
        have hih := ih (hf.child ha) (hs.child hb)
        rintro ⟨hp, hnp⟩
        replace hih := hih ⟨by simpa using hp, by simpa using hnp⟩
        -- an emptied folder has no folder but itself, which the other tree has
        have hempty : ¬ (folderSubtract fileEquals a b).isEmpty = true := fun h =>
          hnp ⟨b, rfl, Folder.eq_nil_of_isEmpty h hih ▸ Folder.mem_nodes_nil⟩
        simpa [subtractChild, hempty] using hih

/-- **Difference.** `folder_subtract` computes a difference of the trees. -/
theorem isDiff_folderSubtract (hf : f.Distinct) (hs : s.Distinct) :
    (folderSubtract fileEquals f s).view.IsDiff f.view s.view where
  toRooted := Folder.rooted_view _
  entries_eq := entries_folderSubtract hf hs
  nodes_le := nodes_folderSubtract_le hf hs
  nodes_ge := nodes_folderSubtract_ge hf hs

/-! ## `filesystem_diff` -/

section Diff

variable {old new : Folder} (hold : old.Distinct) (hnew : new.Distinct)

include hold hnew

theorem isDiff_additions : (filesystemDiff old new).1.view.IsDiff new.view old.view :=
  isDiff_folderSubtract hnew hold

theorem isDiff_deletions : (filesystemDiff old new).2.view.IsDiff old.view new.view :=
  isDiff_folderSubtract hold hnew

omit hold in
theorem distinct_additions : (filesystemDiff old new).1.Distinct := hnew.subtract

omit hnew in
theorem distinct_deletions : (filesystemDiff old new).2.Distinct := hold.subtract

end Diff

end DartSync
