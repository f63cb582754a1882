import DartSync.FileSystem.Subtract

/-!
# `folder_remove`

`filesystem_minus_equals` applies the deletions of a diff: it removes the entries equal to a listed
one, and with a removed marker the whole folder. Unlike `folder_subtract` it keeps the folders it
empties. On the views it is `TreeSet.remove` (`view_folderRemove`).
-/

namespace DartSync

open KeyedList

/-- One entry of the first loop of `folder_remove`, on the files and the folders. -/
def removeFile (st : List File × List Folder) (x : File) : List File × List Folder :=
  match queueRemove st.1 (fileEquals x) with
  | (none, _) => st
  | (some removedFile, files) =>
    if removedFile.isFolder ≠ 0 then
      (files, (queueRemove st.2 fun d => removedFile.name = d.name).2)
    else (files, st.2)

mutual

/-- `folder_remove`: `folder = folder - toSubtract` -/
def folderRemove (folder : Folder) : Folder → Folder
  | ⟨_, files, folders⟩ =>
    let st := files.foldl removeFile (folder.files, folder.folders)
    ⟨folder.name, st.1, removeFolders st.2 folders⟩

/-- The second loop of `folder_remove`, over the folders to subtract. -/
def removeFolders (folders : List Folder) : List Folder → List Folder
  | [] => folders
  | toRemove :: rest =>
    match queueSearch folders (folderEquals toRemove) with
    | none => removeFolders folders rest
    | some removed =>
      removeFolders (replaceKey Folder.name toRemove.name (folderRemove removed toRemove) folders)
        rest

end

/-- `filesystem_minus_equals` -/
def filesystemMinusEquals (filesystem0 filesystem1 : Folder) : Folder :=
  folderRemove filesystem0 filesystem1

variable {f s d : Folder} {n : CString} {p : List CString} {acc ds : List Folder}
  {st : List File × List Folder} {xs : List File}

/-! ## The first loop -/

theorem removeFile_of_mem {x : File} (hx : x ∈ st.1) : removeFile st x =
    (st.1.erase x, if x.isFolder ≠ 0 then eraseKey Folder.name x.name st.2 else st.2) := by
  have hfind : st.1.find? (fileEquals x) = some x := by
    obtain ⟨y, hy⟩ := Option.isSome_iff_exists.mp (List.find?_isSome.mpr
      ⟨x, hx, fileEquals_iff.mpr rfl⟩)
    rw [hy, fileEquals_iff.mp (List.find?_some hy)]
  have herase := queueRemove_fileEquals st.1 x
  have hfolder : (queueRemove st.2 fun d => x.name = d.name).2 =
      eraseKey Folder.name x.name st.2 := by
    unfold queueRemove eraseKey
    show st.2.eraseP _ = _
    congr 1; funext d; simp [eq_comm]
  unfold removeFile
  rw [show queueRemove st.1 (fileEquals x) = (some x, st.1.erase x) from Prod.ext hfind herase]
  dsimp only
  rw [hfolder]
  split_ifs <;> rfl

theorem removeFile_of_not_mem {x : File} (hx : x ∉ st.1) : removeFile st x = st := by
  have hfind : st.1.find? (fileEquals x) = none := by
    rw [List.find?_eq_none]
    exact fun y hy h => hx (fileEquals_iff.mp h ▸ hy)
  unfold removeFile queueRemove
  rw [hfind]

/-- The loop removes the listed entries, and the folders of the markers among them. -/
theorem foldl_removeFile (xs : List File) (st : List File × List Folder) (hst : st.1.Nodup)
    (hds : (st.2.map Folder.name).Nodup) :
    (∀ e, e ∈ (xs.foldl removeFile st).1 ↔ e ∈ st.1 ∧ e ∉ xs) ∧
    (xs.foldl removeFile st).1.Sublist st.1 ∧ (xs.foldl removeFile st).2.Sublist st.2 ∧
    ∀ n, findKey Folder.name n (xs.foldl removeFile st).2 =
      if ∃ m ∈ st.1, m ∈ xs ∧ m.isFolder ≠ 0 ∧ m.name = n then none
      else findKey Folder.name n st.2 := by
  induction xs generalizing st with
  | nil => simp
  | cons x xs ih =>
    rw [List.foldl_cons]
    by_cases hx : x ∈ st.1
    · rw [removeFile_of_mem hx]
      have hmem : ∀ e, e ∈ st.1.erase x ↔ e ≠ x ∧ e ∈ st.1 := fun e => hst.mem_erase_iff
      set ds' := if x.isFolder ≠ 0 then eraseKey Folder.name x.name st.2 else st.2 with hdef
      have hsub : ds'.Sublist st.2 := by
        rw [hdef]
        split_ifs
        exacts [eraseKey_sublist, List.Sublist.refl _]
      obtain ⟨h1, h2, h3, h4⟩ := ih (st.1.erase x, ds') (hst.erase x)
        (hds.sublist (hsub.map _))
      refine ⟨fun e => ?_, h2.trans List.erase_sublist, h3.trans hsub, fun n => ?_⟩
      · rw [h1, hmem, List.mem_cons]; tauto
      · rw [h4]
        by_cases hcut : ∃ m ∈ st.1.erase x, m ∈ xs ∧ m.isFolder ≠ 0 ∧ m.name = n
        · rw [if_pos hcut]
          obtain ⟨m, hm, hmx, hdir⟩ := hcut
          rw [if_pos ⟨m, ((hmem m).mp hm).2, List.mem_cons_of_mem _ hmx, hdir⟩]
        · rw [if_neg hcut]
          by_cases hxn : x.isFolder ≠ 0 ∧ x.name = n
          · rw [if_pos ⟨x, hx, List.mem_cons_self, hxn⟩]
            show findKey Folder.name n ds' = none
            rw [hdef, if_pos hxn.1, ← hxn.2, findKey_eraseKey_self hds]
          · rw [if_neg]
            · show findKey Folder.name n ds' = _
              rw [hdef]
              split_ifs with hdir
              · exact findKey_eraseKey_of_ne fun h => hxn ⟨hdir, h.symm⟩
              · rfl
            · rintro ⟨m, hm, hmx, hdir⟩
              rcases List.mem_cons.mp hmx with rfl | hmx
              · exact hxn hdir
              · refine hcut ⟨m, (hmem m).mpr ⟨fun h => hxn (h ▸ hdir), hm⟩, hmx, hdir⟩
    · rw [removeFile_of_not_mem hx]
      obtain ⟨h1, h2, h3, h4⟩ := ih st hst hds
      refine ⟨fun e => ?_, h2, h3, fun n => ?_⟩
      · rw [h1, List.mem_cons]
        exact ⟨fun h => ⟨h.1, fun h' => h'.elim (fun h' => hx (h' ▸ h.1)) h.2⟩,
          fun h => ⟨h.1, fun h' => h.2 (Or.inr h')⟩⟩
      · rw [h4]
        refine if_congr (exists_congr fun m => and_congr_right fun hm => ?_) rfl rfl
        rw [List.mem_cons]
        exact and_congr_left fun _ => ⟨Or.inr, fun h => h.resolve_left fun h => hx (h ▸ hm)⟩

/-! ## The second loop -/

@[simp] theorem name_folderRemove : (folderRemove f s).name = f.name := by
  cases s; rfl

@[simp] theorem files_folderRemove :
    (folderRemove f s).files = (s.files.foldl removeFile (f.files, f.folders)).1 := by
  cases s; rfl

@[simp] theorem folders_folderRemove : (folderRemove f s).folders =
    removeFolders (s.files.foldl removeFile (f.files, f.folders)).2 s.folders := by
  cases s; rfl

/-- What `folder_remove` leaves of a folder, given the folder to subtract from it. -/
def removeChild : Option Folder → Option Folder → Option Folder
  | some a, some b => some (folderRemove a b)
  | o, _ => o

@[simp] theorem removeFolders_nil : removeFolders acc [] = acc := rfl

theorem removeFolders_cons {ds : List Folder} : removeFolders acc (d :: ds) =
    match findKey Folder.name d.name acc with
    | none => removeFolders acc ds
    | some a => removeFolders (replaceKey Folder.name d.name (folderRemove a d) acc) ds := by
  rw [← queueSearch_folderEquals]
  rfl

theorem forall_removeFolders {P : Folder → Prop} (h : ∀ a, P a → ∀ b ∈ ds, P (folderRemove a b))
    (hacc : ∀ a ∈ acc, P a) : ∀ a ∈ removeFolders acc ds, P a := by
  induction ds generalizing acc with
  | nil => exact hacc
  | cons d ds ih =>
    have h' := fun a ha b hb => h a ha b (List.mem_cons_of_mem d hb)
    rw [removeFolders_cons]
    cases ha : findKey Folder.name d.name acc with
    | none => exact ih h' hacc
    | some a =>
      refine ih h' fun x hx => ?_
      rcases mem_of_mem_replaceKey hx with rfl | hx
      exacts [h a (hacc a (mem_of_findKey ha)) d List.mem_cons_self, hacc x hx]

@[simp] theorem map_name_removeFolders :
    (removeFolders acc ds).map Folder.name = acc.map Folder.name := by
  induction ds generalizing acc with
  | nil => rfl
  | cons d ds ih =>
    rw [removeFolders_cons]
    cases ha : findKey Folder.name d.name acc with
    | none => exact ih
    | some a =>
      dsimp only
      rw [ih, map_key_replaceKey (by rw [name_folderRemove, key_of_findKey ha])]

theorem findKey_removeFolders (hacc : (acc.map Folder.name).Nodup)
    (hds : (ds.map Folder.name).Nodup) : findKey Folder.name n (removeFolders acc ds) =
      removeChild (findKey Folder.name n acc) (findKey Folder.name n ds) := by
  induction ds generalizing acc with
  | nil => rw [removeFolders_nil]; cases findKey Folder.name n acc <;> rfl
  | cons d ds ih =>
    rw [List.map_cons, List.nodup_cons] at hds
    rw [removeFolders_cons, findKey_cons]
    cases ha : findKey Folder.name d.name acc with
    | none =>
      dsimp only
      rw [ih hacc hds.2]
      split_ifs with hn
      · rw [← hn, ha]; rfl
      · rfl
    | some a =>
      have hname : (folderRemove a d).name = d.name := by
        rw [name_folderRemove, key_of_findKey ha]
      have hnone : findKey Folder.name d.name ds = none := findKey_eq_none.mpr hds.1
      dsimp only
      rw [ih (by rwa [map_key_replaceKey hname]) hds.2]
      split_ifs with hn
      · rw [← hn, hnone, findKey_replaceKey_self hname (mem_map_key_of_findKey ha), ha]; rfl
      · rw [findKey_replaceKey_of_ne hname (Ne.symm hn)]

/-! ## The view -/

theorem child_folderRemove (hf : f.Distinct) (hs : s.Distinct) : (folderRemove f s).child n =
    if ∃ m ∈ f.files, m ∈ s.files ∧ m.isFolder ≠ 0 ∧ m.name = n then none
    else removeChild (f.child n) (s.child n) := by
  obtain ⟨-, -, hsub, hfind⟩ := foldl_removeFile s.files (f.files, f.folders)
    hf.files_nodup hf.folders_nodup
  unfold Folder.child
  rw [folders_folderRemove, findKey_removeFolders (hf.folders_nodup.sublist (hsub.map _))
    hs.folders_nodup, hfind]
  split_ifs <;> rfl

theorem mem_files_folderRemove (hf : f.Distinct) (e : File) :
    e ∈ (folderRemove f s).files ↔ e ∈ f.files ∧ e ∉ s.files := by
  rw [files_folderRemove]
  exact (foldl_removeFile s.files (f.files, f.folders) hf.files_nodup hf.folders_nodup).1 e

theorem Folder.Distinct.remove (hf : f.Distinct) : (folderRemove f s).Distinct := by
  induction s using Folder.ind generalizing f with
  | h s ih =>
    obtain ⟨-, hfiles, hsub, -⟩ := foldl_removeFile s.files (f.files, f.folders)
      hf.files_nodup hf.folders_nodup
    refine ⟨?_, ?_, ?_⟩
    · rw [files_folderRemove]; exact hf.files_nodup.sublist hfiles
    · rw [folders_folderRemove, map_name_removeFolders]
      exact hf.folders_nodup.sublist (hsub.map _)
    · rw [folders_folderRemove]
      exact forall_removeFolders (fun a ha b hb => ih b hb ha) fun a ha => hf.of_mem (hsub.subset ha)

/-- A path is cut at its first component or below it. -/
theorem cut_cons : TreeSet.Cut fileMarking f.view s.view (n :: p) ↔
    (∃ m ∈ f.files, m ∈ s.files ∧ m.isFolder ≠ 0 ∧ m.name = n) ∨
    ∃ a b, f.child n = some a ∧ s.child n = some b ∧ TreeSet.Cut fileMarking a.view b.view p := by
  constructor
  · rintro ⟨q, m, r, h, hf, hs, hdir⟩
    cases q with
    | nil =>
      rw [List.nil_append, List.cons.injEq] at h
      rw [Folder.mem_entries_nil] at hf hs
      exact Or.inl ⟨m, hf, hs, hdir, h.1.symm⟩
    | cons k q =>
      rw [List.cons_append, List.cons.injEq] at h
      obtain ⟨rfl, rfl⟩ := h
      obtain ⟨a, ha, hf⟩ := Folder.mem_entries_cons.mp hf
      obtain ⟨b, hb, hs⟩ := Folder.mem_entries_cons.mp hs
      exact Or.inr ⟨a, b, ha, hb, q, m, r, rfl, hf, hs, hdir⟩
  · rintro (⟨m, hf, hs, hdir, rfl⟩ | ⟨a, b, ha, hb, q, m, r, rfl, hf, hs, hdir⟩)
    · exact ⟨[], m, p, rfl, Folder.mem_entries_nil.mpr hf, Folder.mem_entries_nil.mpr hs, hdir⟩
    · exact ⟨n :: q, m, r, rfl, Folder.mem_entries_cons.mpr ⟨a, ha, hf⟩,
        Folder.mem_entries_cons.mpr ⟨b, hb, hs⟩, hdir⟩

/-- **Removal.** `folder_remove` removes the listed entries and what lies below a listed marker. -/
theorem view_folderRemove (hf : f.Distinct) (hs : s.Distinct) :
    (folderRemove f s).view = f.view.remove fileMarking s.view := by
  ext x
  · obtain ⟨q, e⟩ := x
    show _ ↔ (q, e) ∈ f.view.entries ∧ (q, e) ∉ s.view.entries ∧ ¬ TreeSet.Cut _ _ _ q
    induction q generalizing f s with
    | nil =>
      simpa [TreeSet.not_cut_nil] using mem_files_folderRemove hf e
    | cons n q ih =>
      rw [Folder.mem_entries_cons, Folder.mem_entries_cons, Folder.mem_entries_cons, cut_cons,
        child_folderRemove hf hs]
      by_cases hcut : ∃ m ∈ f.files, m ∈ s.files ∧ m.isFolder ≠ 0 ∧ m.name = n
      · simp [hcut]
      · rw [if_neg hcut]
        cases ha : f.child n with
        | none => simp [removeChild]
        | some a =>
          cases hb : s.child n with
          | none => simpa [removeChild] using fun _ => hcut
          | some b =>
            have hih := ih (hf.child ha) (hs.child hb)
            simpa [removeChild, hcut] using hih
  · show _ ↔ x ∈ f.view.nodes ∧ ¬ TreeSet.Cut _ _ _ x
    induction x generalizing f s with
    | nil => simp [TreeSet.not_cut_nil]
    | cons n q ih =>
      rw [Folder.mem_nodes_cons, Folder.mem_nodes_cons, cut_cons, child_folderRemove hf hs]
      by_cases hcut : ∃ m ∈ f.files, m ∈ s.files ∧ m.isFolder ≠ 0 ∧ m.name = n
      · simp [hcut]
      · rw [if_neg hcut]
        cases ha : f.child n with
        | none => simp [removeChild]
        | some a =>
          cases hb : s.child n with
          | none => simpa [removeChild] using fun _ => hcut
          | some b =>
            have hih := ih (hf.child ha) (hs.child hb)
            simpa [removeChild, hcut] using hih

end DartSync
