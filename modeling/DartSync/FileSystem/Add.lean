import DartSync.FileSystem.Subtract

/-!
# `folder_add`

`filesystem_plus_equals` applies the additions of a diff. Its assertions tie folders to their
markers at every level: `folderAdd_ok_iff` says on the views when they all hold, and
`view_folderAdd` that the result is then the union of the two trees.
-/

namespace DartSync

open KeyedList TreeSet

/-- One entry of the first loop of `folder_add`, on the files and the folders; `folders` are those
of the tree to add. -/
def addFile (folders : List Folder) (st : List File × List Folder) (fileToAdd : File) :
    Except Abort (List File × List Folder) :=
  if fileToAdd.isFolder ≠ 0 then
    match queueSearch folders fun d => fileToAdd.name = d.name with
    | none => .error .folderToAdd
    | some _ =>
      let fAlreadyContainsFolder := queueSearch st.2 fun d => fileToAdd.name = d.name
      match queueSearch st.1 (fileEquals fileToAdd) with
      | some _ => if fAlreadyContainsFolder.isSome then .ok st else .error .fAlreadyContainsFolder
      | none =>
        if fAlreadyContainsFolder.isSome then .error .notFAlreadyContainsFolder
        else .ok (st.1 ++ [fileToAdd], st.2 ++ [⟨fileToAdd.name, [], []⟩])
  else
    match queueSearch st.1 (fileEquals fileToAdd) with
    | some _ => .ok st
    | none => .ok (st.1 ++ [fileToAdd], st.2)

mutual

/-- `folder_add`: `folder = folder + toPlus` -/
def folderAdd (folder : Folder) : Folder → Except Abort Folder
  | ⟨_, files, folders⟩ => do
    let st ← files.foldlM (addFile folders) (folder.files, folder.folders)
    let added ← addFolders st.2 folders
    return ⟨folder.name, st.1, added⟩

/-- The second loop of `folder_add`, over the folders to add. -/
def addFolders (folders : List Folder) : List Folder → Except Abort (List Folder)
  | [] => .ok folders
  | folderToAdd :: rest =>
    match queueSearch folders (folderEquals folderToAdd) with
    | none => .error .found
    | some found => do
      let sum ← folderAdd found folderToAdd
      addFolders (replaceKey Folder.name folderToAdd.name sum folders) rest

end

/-- `filesystem_plus_equals` -/
def filesystemPlusEquals (filesystem0 filesystem1 : Folder) : Except Abort Folder :=
  folderAdd filesystem0 filesystem1

variable {f a r d : Folder} {n : CString} {p q : List CString} {acc acc' ds : List Folder}
  {st st' : List File × List Folder} {xs : List File} {x e : File}

/-! ## The first loop -/

theorem queueSearch_name (l : List Folder) (n : CString) :
    queueSearch l (fun d => n = d.name) = findKey Folder.name n l := by
  unfold queueSearch findKey
  congr 1; funext d; simp [eq_comm]

theorem queueSearch_fileEquals_isSome (l : List File) (x : File) :
    (queueSearch l (fileEquals x)).isSome ↔ x ∈ l := by
  unfold queueSearch
  rw [List.find?_isSome]
  exact ⟨fun ⟨y, hy, h⟩ => fileEquals_iff.mp h ▸ hy, fun h => ⟨x, h, fileEquals_iff.mpr rfl⟩⟩

/-- One step of the loop: what it asserts, and what it appends. -/
theorem addFile_eq_ok : addFile ds st x = .ok st' ↔
    (x.isFolder ≠ 0 → x.name ∈ ds.map Folder.name ∧
      (x ∈ st.1 ↔ x.name ∈ st.2.map Folder.name)) ∧
    st' = (if x ∈ st.1 then st.1 else st.1 ++ [x],
      if x.isFolder ≠ 0 ∧ x ∉ st.1 then st.2 ++ [⟨x.name, [], []⟩] else st.2) := by
  have hfile := queueSearch_fileEquals_isSome st.1 x
  have hname : (findKey Folder.name x.name st.2).isSome ↔ _ := findKey_isSome
  have hadd : (findKey Folder.name x.name ds).isSome ↔ _ := findKey_isSome
  unfold addFile
  rw [queueSearch_name, queueSearch_name]
  by_cases hdir : x.isFolder ≠ 0
  · rw [if_pos hdir]
    cases hds : findKey Folder.name x.name ds with
    | none =>
      rw [hds] at hadd
      exact ⟨nofun, fun h => absurd (hadd.mpr (h.1 hdir).1) nofun⟩
    | some d =>
      replace hadd := hadd.mp (by rw [hds]; rfl)
      cases hf : queueSearch st.1 (fileEquals x) with
      | some y =>
        replace hfile : x ∈ st.1 := hfile.mp (by rw [hf]; rfl)
        have hkeep : ¬ (x.isFolder ≠ 0 ∧ x ∉ st.1) := fun h => h.2 hfile
        dsimp only
        rw [if_pos hfile, if_neg hkeep]
        by_cases h : (findKey Folder.name x.name st.2).isSome = true
        · rw [if_pos h]
          exact ⟨fun hok => ⟨fun _ => ⟨hadd, iff_of_true hfile (hname.mp h)⟩,
            (Except.ok.inj hok).symm⟩, fun hok => by rw [hok.2]⟩
        · rw [if_neg h]
          exact ⟨nofun, fun hok => absurd (hname.mpr ((hok.1 hdir).2.mp hfile)) h⟩
      | none =>
        replace hfile : x ∉ st.1 := fun h => by rw [← hfile, hf] at h; cases h
        have hnew : x.isFolder ≠ 0 ∧ x ∉ st.1 := ⟨hdir, hfile⟩
        dsimp only
        rw [if_neg hfile, if_pos hnew]
        by_cases h : (findKey Folder.name x.name st.2).isSome = true
        · rw [if_pos h]
          exact ⟨nofun, fun hok => absurd ((hok.1 hdir).2.mpr (hname.mp h)) hfile⟩
        · rw [if_neg h]
          exact ⟨fun hok => ⟨fun _ => ⟨hadd, iff_of_false hfile (hname.not.mp h)⟩,
            (Except.ok.inj hok).symm⟩, fun hok => by rw [hok.2]⟩
  · have hkeep : ¬ (x.isFolder ≠ 0 ∧ x ∉ st.1) := fun h => hdir h.1
    rw [if_neg hdir, if_neg hkeep]
    cases hf : queueSearch st.1 (fileEquals x) with
    | some y =>
      replace hfile : x ∈ st.1 := hfile.mp (by rw [hf]; rfl)
      rw [if_pos hfile]
      exact ⟨fun hok => ⟨fun h => absurd h hdir, (Except.ok.inj hok).symm⟩,
        fun hok => by rw [hok.2]⟩
    | none =>
      replace hfile : x ∉ st.1 := fun h => by rw [← hfile, hf] at h; cases h
      rw [if_neg hfile]
      exact ⟨fun hok => ⟨fun h => absurd h hdir, (Except.ok.inj hok).symm⟩,
        fun hok => by rw [hok.2]⟩

/-- What the loop leaves in `st'` of the state `st` and the entries `xs`. -/
structure FilesAdded (ds : List Folder) (xs : List File) (st st' : List File × List Folder) :
    Prop where
  mem_files : ∀ e, e ∈ st'.1 ↔ e ∈ st.1 ∨ e ∈ xs
  files_nodup : st'.1.Nodup
  folders_nodup : (st'.2.map Folder.name).Nodup
  distinct : ∀ d ∈ st'.2, d ∈ st.2 ∨ d.files = [] ∧ d.folders = []
  folder : ∀ n, findKey Folder.name n st'.2 = (findKey Folder.name n st.2).or
    (if ∃ m ∈ xs, m.isFolder ≠ 0 ∧ m.name = n then some ⟨n, [], []⟩ else none)
  named : ∀ m ∈ xs, m.isFolder ≠ 0 → m.name ∈ ds.map Folder.name

/-- A step adds its entry. -/
theorem filesAdded_of_addFile (hst : st.1.Nodup) (hds : (st.2.map Folder.name).Nodup)
    (h : addFile ds st x = .ok st') : FilesAdded ds [x] st st' := by
  obtain ⟨hx, rfl⟩ := addFile_eq_ok.mp h
  by_cases hmem : x ∈ st.1
  · have hnew : ¬ (x.isFolder ≠ 0 ∧ x ∉ st.1) := fun hc => hc.2 hmem
    rw [if_pos hmem, if_neg hnew]
    refine ⟨fun e => ?_, hst, hds, fun d hd => Or.inl hd, fun n => ?_, ?_⟩
    · rw [List.mem_singleton]
      exact ⟨Or.inl, fun h => h.elim id fun h => h ▸ hmem⟩
    · by_cases hn : x.isFolder ≠ 0 ∧ x.name = n
      · obtain ⟨d, hd⟩ := exists_findKey ((hx hn.1).2.mp hmem)
        rw [hn.2] at hd
        rw [hd]; rfl
      · simp [hn]
    · intro m hm hdir
      rw [List.mem_singleton.mp hm] at hdir ⊢
      exact (hx hdir).1
  · rw [if_neg hmem]
    have hfiles : (st.1 ++ [x]).Nodup :=
      List.nodup_append'.mpr ⟨hst, List.nodup_singleton x, by simpa using hmem⟩
    by_cases hdir : x.isFolder ≠ 0
    · -- a new folder comes with the marker
      rw [if_pos ⟨hdir, hmem⟩]
      have hfresh : x.name ∉ st.2.map Folder.name := fun hc => hmem ((hx hdir).2.mpr hc)
      refine ⟨by simp, hfiles, ?_, fun d hd => ?_, fun n => ?_, ?_⟩
      · rw [List.map_append]
        exact List.nodup_append'.mpr ⟨hds, List.nodup_singleton _, by simpa using hfresh⟩
      · rcases List.mem_append.mp hd with hd | hd
        · exact Or.inl hd
        · rw [List.mem_singleton.mp hd]
          exact Or.inr ⟨rfl, rfl⟩
      · rw [findKey_append, findKey_cons, findKey_nil]
        by_cases hn : x.name = n
        · subst hn; simp [hdir]
        · simp [hn]
      · intro m hm hdir
        rw [List.mem_singleton.mp hm] at hdir ⊢
        exact (hx hdir).1
    · rw [if_neg fun hc => hdir hc.1]
      refine ⟨by simp, hfiles, hds, fun d hd => Or.inl hd, fun n => ?_, ?_⟩
      · rw [if_neg, Option.or_none]
        rintro ⟨m, hm, h⟩
        exact hdir (List.mem_singleton.mp hm ▸ h.1)
      · intro m hm h
        exact absurd (List.mem_singleton.mp hm ▸ h) hdir

theorem FilesAdded.cons {st1 : List File × List Folder} (h : FilesAdded ds [x] st st1)
    (h' : FilesAdded ds xs st1 st') : FilesAdded ds (x :: xs) st st' where
  mem_files e := by
    rw [h'.mem_files, h.mem_files, List.mem_singleton, List.mem_cons, or_assoc]
  files_nodup := h'.files_nodup
  folders_nodup := h'.folders_nodup
  distinct d hd := (h'.distinct d hd).elim (h.distinct d) Or.inr
  folder n := by
    rw [h'.folder, h.folder, Option.or_assoc]
    congr 1
    by_cases hx : x.isFolder ≠ 0 ∧ x.name = n <;> simp [hx]
  named m hm hdir := by
    rcases List.mem_cons.mp hm with rfl | hm
    exacts [h.named m List.mem_cons_self hdir, h'.named m hm hdir]

/-- The loop adds its entries. -/
theorem filesAdded_of_ok (hst : st.1.Nodup) (hds : (st.2.map Folder.name).Nodup)
    (h : xs.foldlM (addFile ds) st = .ok st') : FilesAdded ds xs st st' := by
  induction xs generalizing st with
  | nil =>
    cases h
    exact ⟨by simp, hst, hds, fun d hd => Or.inl hd, by simp, by simp⟩
  | cons x xs ih =>
    rw [List.foldlM_cons, bind_eq_ok] at h
    obtain ⟨st1, h1, h⟩ := h
    have hstep := filesAdded_of_addFile hst hds h1
    exact hstep.cons (ih hstep.files_nodup hstep.folders_nodup h)

/-- The entries carry distinct markers. -/
def DistinctMarks (xs : List File) : Prop :=
  ∀ e ∈ xs, ∀ e' ∈ xs, e.isFolder ≠ 0 → e'.isFolder ≠ 0 → e.name = e'.name → e = e'

/-- What the loop asserts. -/
def MarksAgree (ds : List Folder) (xs : List File) (st : List File × List Folder) : Prop :=
  ∀ m ∈ xs, m.isFolder ≠ 0 → m.name ∈ ds.map Folder.name ∧
    (m ∈ st.1 ↔ m.name ∈ st.2.map Folder.name)

/-- The loop fails no assertion exactly when the markers it adds agree with the state it starts
from. -/
theorem foldlM_addFile_ok (hst : st.1.Nodup) (hds : (st.2.map Folder.name).Nodup)
    (hxs : DistinctMarks xs) :
    (∃ st', xs.foldlM (addFile ds) st = .ok st') ↔ MarksAgree ds xs st := by
  induction xs generalizing st with
  | nil => exact ⟨fun _ _ hm => absurd hm List.not_mem_nil, fun _ => ⟨st, rfl⟩⟩
  | cons x xs ih =>
    have hxs' : DistinctMarks xs := fun e he e' he' =>
      hxs e (List.mem_cons_of_mem _ he) e' (List.mem_cons_of_mem _ he')
    -- adding another entry does not change what the state says about a marker
    have hagree : ∀ {st1}, addFile ds st x = .ok st1 → ∀ m ∈ xs, m.isFolder ≠ 0 →
        m ≠ x → ((m ∈ st1.1 ↔ m.name ∈ st1.2.map Folder.name) ↔
          (m ∈ st.1 ↔ m.name ∈ st.2.map Folder.name)) := by
      intro st1 h1 m hm hdir hne
      have hstep := filesAdded_of_addFile hst hds h1
      have hname : ¬ (x.isFolder ≠ 0 ∧ x.name = m.name) := fun h =>
        hne (hxs m (List.mem_cons_of_mem _ hm) x List.mem_cons_self hdir h.1 h.2.symm)
      rw [hstep.mem_files, ← findKey_isSome, hstep.folder, ← findKey_isSome]
      simp [hne, hname]
    constructor
    · rintro ⟨st', h⟩ m hm hdir
      rw [List.foldlM_cons, bind_eq_ok] at h
      obtain ⟨st1, h1, h⟩ := h
      have hstep := filesAdded_of_addFile hst hds h1
      by_cases hmx : m = x
      · subst hmx
        exact (addFile_eq_ok.mp h1).1 hdir
      · replace hm := (List.mem_cons.mp hm).resolve_left hmx
        have := (ih hstep.files_nodup hstep.folders_nodup hxs').mp ⟨st', h⟩ m hm hdir
        rwa [hagree h1 m hm hdir hmx] at this
    · intro h
      have h1 := addFile_eq_ok.mpr ⟨h x List.mem_cons_self, rfl⟩
      have hstep := filesAdded_of_addFile hst hds h1
      obtain ⟨st', h'⟩ := (ih hstep.files_nodup hstep.folders_nodup hxs').mpr (by
        intro m hm hdir
        refine ⟨(h m (List.mem_cons_of_mem _ hm) hdir).1, ?_⟩
        by_cases hmx : m = x
        · subst hmx
          refine iff_of_true ((hstep.mem_files m).mpr (Or.inr List.mem_cons_self)) ?_
          rw [← findKey_isSome, hstep.folder]
          simp [hdir]
        · rw [hagree h1 m hm hdir hmx]
          exact (h m (List.mem_cons_of_mem _ hm) hdir).2)
      exact ⟨st', by rw [List.foldlM_cons, bind_eq_ok]; exact ⟨_, h1, h'⟩⟩

/-! ## The second loop -/

theorem folderAdd_eq_ok : folderAdd f a = .ok r ↔
    ∃ st acc, a.files.foldlM (addFile a.folders) (f.files, f.folders) = .ok st ∧
      addFolders st.2 a.folders = .ok acc ∧ r = ⟨f.name, st.1, acc⟩ := by
  obtain ⟨_, files, folders⟩ := a
  show (files.foldlM (addFile folders) (f.files, f.folders) >>= _) = _ ↔ _
  rw [bind_eq_ok]
  refine exists_congr fun st => ?_
  constructor
  · rintro ⟨hst, h⟩
    obtain ⟨acc, hacc, hr⟩ := bind_eq_ok.mp h
    exact ⟨acc, hst, hacc, (Except.ok.inj hr).symm⟩
  · rintro ⟨acc, hst, hacc, rfl⟩
    exact ⟨hst, bind_eq_ok.mpr ⟨acc, hacc, rfl⟩⟩

theorem name_folderAdd (h : folderAdd f a = .ok r) : r.name = f.name := by
  obtain ⟨st, acc, -, -, rfl⟩ := folderAdd_eq_ok.mp h
  rfl

/-- What `folder_add` leaves of a folder, given the folder to add to it. -/
def addChild : Option Folder → Option Folder → Option Folder
  | some a, some b => (folderAdd a b).toOption
  | o, _ => o

@[simp] theorem addFolders_nil : addFolders acc [] = .ok acc := rfl

theorem addFolders_cons : addFolders acc (d :: ds) =
    match findKey Folder.name d.name acc with
    | none => .error .found
    | some a => folderAdd a d >>= fun r =>
      addFolders (replaceKey Folder.name d.name r acc) ds := by
  rw [← queueSearch_folderEquals]
  rfl

theorem addFolders_cons_eq_ok : addFolders acc (d :: ds) = .ok acc' ↔
    ∃ a r, findKey Folder.name d.name acc = some a ∧ folderAdd a d = .ok r ∧
      addFolders (replaceKey Folder.name d.name r acc) ds = .ok acc' := by
  rw [addFolders_cons]
  cases findKey Folder.name d.name acc with
  | none => exact ⟨nofun, fun ⟨_, _, h, _⟩ => nomatch h⟩
  | some a =>
    dsimp only
    rw [bind_eq_ok]
    exact ⟨fun ⟨r, h⟩ => ⟨a, r, rfl, h⟩, fun ⟨_, r, h, hr⟩ => by cases h; exact ⟨r, hr⟩⟩

theorem forall_addFolders {P : Folder → Prop}
    (h : ∀ a, P a → ∀ b ∈ ds, ∀ r, folderAdd a b = .ok r → P r) (hacc : ∀ a ∈ acc, P a)
    (hok : addFolders acc ds = .ok acc') : ∀ a ∈ acc', P a := by
  induction ds generalizing acc with
  | nil => rw [addFolders_nil] at hok; cases hok; exact hacc
  | cons d ds ih =>
    obtain ⟨a, r, ha, hr, hok⟩ := addFolders_cons_eq_ok.mp hok
    refine ih (fun a ha b hb => h a ha b (List.mem_cons_of_mem d hb)) (fun x hx => ?_) hok
    rcases mem_of_mem_replaceKey hx with rfl | hx
    exacts [h a (hacc a (mem_of_findKey ha)) d List.mem_cons_self _ hr, hacc x hx]

theorem map_name_addFolders (hok : addFolders acc ds = .ok acc') :
    acc'.map Folder.name = acc.map Folder.name := by
  induction ds generalizing acc with
  | nil => rw [addFolders_nil] at hok; cases hok; rfl
  | cons d ds ih =>
    obtain ⟨a, r, ha, hr, hok⟩ := addFolders_cons_eq_ok.mp hok
    rw [ih hok, map_key_replaceKey ((name_folderAdd hr).trans (key_of_findKey ha))]

/-- The loop treats each name on its own. -/
theorem findKey_addFolders (hds : (ds.map Folder.name).Nodup)
    (hok : addFolders acc ds = .ok acc') : findKey Folder.name n acc' =
      addChild (findKey Folder.name n acc) (findKey Folder.name n ds) := by
  induction ds generalizing acc with
  | nil =>
    rw [addFolders_nil] at hok
    obtain rfl := Except.ok.inj hok
    rw [findKey_nil]
    cases findKey Folder.name n acc <;> rfl
  | cons d ds ih =>
    rw [List.map_cons, List.nodup_cons] at hds
    obtain ⟨a, r, ha, hr, hok⟩ := addFolders_cons_eq_ok.mp hok
    have hname : r.name = d.name := (name_folderAdd hr).trans (key_of_findKey ha)
    rw [ih hds.2 hok, findKey_cons]
    split_ifs with hn
    · rw [← hn, findKey_eq_none.mpr hds.1,
        findKey_replaceKey_self hname (mem_map_key_of_findKey ha), ha]
      show some r = (folderAdd a d).toOption
      rw [hr]; rfl
    · rw [findKey_replaceKey_of_ne hname (Ne.symm hn)]

/-- The loop fails no assertion exactly when every folder to add is found and can be added to. -/
theorem addFolders_ok (hds : (ds.map Folder.name).Nodup) :
    (∃ acc', addFolders acc ds = .ok acc') ↔
      ∀ d ∈ ds, ∃ a r, findKey Folder.name d.name acc = some a ∧ folderAdd a d = .ok r := by
  induction ds generalizing acc with
  | nil => exact ⟨fun _ _ hd => absurd hd List.not_mem_nil, fun _ => ⟨acc, addFolders_nil⟩⟩
  | cons d ds ih =>
    rw [List.map_cons, List.nodup_cons] at hds
    have hne : ∀ d' ∈ ds, d'.name ≠ d.name := fun d' hd' h => hds.1 (h ▸ List.mem_map_of_mem hd')
    constructor
    · rintro ⟨acc', hok⟩ d' hd'
      obtain ⟨a, r, ha, hr, hok⟩ := addFolders_cons_eq_ok.mp hok
      rcases List.mem_cons.mp hd' with rfl | hd'
      · exact ⟨a, r, ha, hr⟩
      · obtain ⟨b, r', hb, hr'⟩ := (ih hds.2).mp ⟨acc', hok⟩ d' hd'
        rw [findKey_replaceKey_of_ne ((name_folderAdd hr).trans (key_of_findKey ha))
          (hne d' hd')] at hb
        exact ⟨b, r', hb, hr'⟩
    · intro h
      obtain ⟨a, r, ha, hr⟩ := h d List.mem_cons_self
      obtain ⟨acc', hok⟩ := (@ih (replaceKey Folder.name d.name r acc) hds.2).mpr fun d' hd' => by
        rw [findKey_replaceKey_of_ne ((name_folderAdd hr).trans (key_of_findKey ha)) (hne d' hd')]
        exact h d' (List.mem_cons_of_mem d hd')
      exact ⟨acc', addFolders_cons_eq_ok.mpr ⟨a, r, ha, hr, hok⟩⟩

/-! ## The view -/

/-- The folder of name `n` in `f`, or the one that `folder_add` makes. -/
def Folder.childOrNew (f : Folder) (n : CString) : Folder := (f.child n).getD ⟨n, [], []⟩

theorem Folder.not_mem_entries_new : (q, e) ∉ (⟨n, [], []⟩ : Folder).view.entries := by
  cases q with
  | nil => simp
  | cons k q => simp [Folder.mem_entries_cons, Folder.child]

theorem Folder.eq_nil_of_mem_nodes_new (h : q ∈ (⟨n, [], []⟩ : Folder).view.nodes) : q = [] :=
  Folder.eq_nil_of_isEmpty rfl h

theorem Folder.mem_entries_childOrNew :
    (q, e) ∈ (f.childOrNew n).view.entries ↔ (n :: q, e) ∈ f.view.entries := by
  rw [Folder.mem_entries_cons]
  unfold Folder.childOrNew
  cases f.child n with
  | none => simp [Folder.not_mem_entries_new]
  | some d => simp

theorem Folder.mem_nodes_childOrNew {k : CString} :
    q ++ [k] ∈ (f.childOrNew n).view.nodes ↔ n :: (q ++ [k]) ∈ f.view.nodes := by
  rw [Folder.mem_nodes_cons]
  unfold Folder.childOrNew
  cases f.child n with
  | none =>
    refine ⟨fun h => ?_, fun ⟨_, h, _⟩ => nomatch h⟩
    have := Folder.eq_nil_of_mem_nodes_new h
    simp at this
  | some d => simp

theorem Folder.Distinct.new : Folder.Distinct ⟨n, [], []⟩ :=
  ⟨List.nodup_nil, List.nodup_nil, nofun⟩

theorem Folder.Distinct.childOrNew (hf : f.Distinct) : (f.childOrNew n).Distinct := by
  unfold Folder.childOrNew
  cases h : f.child n with
  | none => exact .new
  | some d => exact hf.child h

/-- `CanAdd` of two trees, level by level. -/
theorem canAdd_view_iff (ha : a.Distinct) : CanAdd fileMarking f.view a.view ↔
    MarksAgree a.folders a.files (f.files, f.folders) ∧
    ∀ d ∈ a.folders, (d.name ∈ f.folders.map Folder.name ∨
        ∃ m ∈ a.files, m.isFolder ≠ 0 ∧ m.name = d.name) ∧
      CanAdd fileMarking (f.childOrNew d.name).view d.view := by
  constructor
  · rintro ⟨hmarked, hagree, hfound⟩
    refine ⟨fun m hm hdir => ⟨?_, ?_⟩, fun d hd => ⟨?_, ?_, ?_, ?_⟩⟩
    · simpa using hmarked [] m (Folder.mem_entries_nil.mpr hm) hdir
    · have := hagree [] m (Folder.mem_entries_nil.mpr hm) hdir
      rwa [Folder.mem_entries_nil, List.nil_append, Folder.mem_nodes_singleton] at this
    · have := hfound [] d.name (Folder.mem_nodes_singleton.mpr (List.mem_map_of_mem hd))
      simpa using this
    · intro q m hm hdir
      have hc := Folder.child_of_mem ha hd
      have := hmarked (d.name :: q) m (Folder.mem_entries_cons.mpr ⟨d, hc, hm⟩) hdir
      obtain ⟨d', hd', h⟩ := Folder.mem_nodes_cons.mp this
      rw [hc] at hd'; cases hd'
      exact h
    · intro q m hm hdir
      have hc := Folder.child_of_mem ha hd
      rw [Folder.mem_entries_childOrNew, Folder.mem_nodes_childOrNew]
      exact hagree (d.name :: q) m (Folder.mem_entries_cons.mpr ⟨d, hc, hm⟩) hdir
    · intro q n hn
      have hc := Folder.child_of_mem ha hd
      rw [Folder.mem_nodes_childOrNew]
      refine (hfound (d.name :: q) n (Folder.mem_nodes_cons.mpr ⟨d, hc, hn⟩)).imp_right ?_
      rintro ⟨m, hm, h⟩
      obtain ⟨d', hd', hm⟩ := Folder.mem_entries_cons.mp hm
      rw [hc] at hd'; cases hd'
      exact ⟨m, hm, h⟩
  · rintro ⟨hmarks, hsub⟩
    refine ⟨fun q m hm hdir => ?_, fun q m hm hdir => ?_, fun q n hn => ?_⟩
    · cases q with
      | nil =>
        rw [List.nil_append, Folder.mem_nodes_singleton]
        exact (hmarks m (Folder.mem_entries_nil.mp hm) hdir).1
      | cons k q =>
        obtain ⟨d, hd, hm⟩ := Folder.mem_entries_cons.mp hm
        exact Folder.mem_nodes_cons.mpr
          ⟨d, hd, (hsub d (Folder.child_mem hd)).2.marked q m hm hdir⟩
    · cases q with
      | nil =>
        rw [Folder.mem_entries_nil, List.nil_append, Folder.mem_nodes_singleton]
        exact (hmarks m (Folder.mem_entries_nil.mp hm) hdir).2
      | cons k q =>
        obtain ⟨d, hd, hm⟩ := Folder.mem_entries_cons.mp hm
        have := (hsub d (Folder.child_mem hd)).2.agree q m hm hdir
        rwa [Folder.mem_entries_childOrNew, Folder.mem_nodes_childOrNew, Folder.child_name hd] at this
    · cases q with
      | nil =>
        obtain ⟨d, hd, rfl⟩ := List.mem_map.mp (Folder.mem_nodes_singleton.mp hn)
        have := (hsub d hd).1
        simpa using this
      | cons k q =>
        obtain ⟨d, hd, hn⟩ := Folder.mem_nodes_cons.mp hn
        have := (hsub d (Folder.child_mem hd)).2.found q n hn
        rw [Folder.mem_nodes_childOrNew, Folder.child_name hd] at this
        refine this.imp_right ?_
        rintro ⟨m, hm, h⟩
        exact ⟨m, Folder.mem_entries_cons.mpr ⟨d, hd, hm⟩, h⟩

theorem Folder.Distinct.add (hf : f.Distinct) (hok : folderAdd f a = .ok r) : r.Distinct := by
  induction a using Folder.ind generalizing f r with
  | h a ih =>
    obtain ⟨st, acc, hst, hacc, rfl⟩ := folderAdd_eq_ok.mp hok
    have hfiles := filesAdded_of_ok hf.files_nodup hf.folders_nodup hst
    refine ⟨hfiles.files_nodup, ?_, forall_addFolders (fun c hc b hb r' => ih b hb hc) ?_ hacc⟩
    · show (acc.map Folder.name).Nodup
      rw [map_name_addFolders hacc]
      exact hfiles.folders_nodup
    · intro d hd
      rcases hfiles.distinct d hd with hd | ⟨hd, hd'⟩
      · exact hf.of_mem hd
      · exact ⟨hd ▸ List.nodup_nil, hd' ▸ List.nodup_nil, by simp [hd']⟩

/-- What the state after the first loop holds of the folders to add to. -/
theorem findKey_filesAdded (hfiles : FilesAdded a.folders a.files (f.files, f.folders) st) :
    (findKey Folder.name n st.2).isSome ↔ n ∈ f.folders.map Folder.name ∨
      ∃ m ∈ a.files, m.isFolder ≠ 0 ∧ m.name = n := by
  rw [hfiles.folder, Option.isSome_or, Bool.or_eq_true, findKey_isSome]
  refine or_congr Iff.rfl ?_
  split_ifs with h <;> simp [h]

theorem childOrNew_of_filesAdded (hfiles : FilesAdded a.folders a.files (f.files, f.folders) st)
    (h : findKey Folder.name n st.2 = some d) : d = f.childOrNew n := by
  rw [hfiles.folder] at h
  unfold Folder.childOrNew Folder.child
  cases hc : findKey Folder.name n f.folders with
  | none =>
    rw [hc, Option.none_or] at h
    split_ifs at h
    exact (Option.some.inj h).symm
  | some c =>
    rw [hc] at h
    exact (Option.some.inj h).symm

/-- **Assertions.** `folder_add` fails none exactly when the trees meet `CanAdd`. -/
theorem folderAdd_ok_iff (hf : f.Distinct) (ha : a.Distinct) (hm : a.view.UniqueMarks fileMarking) :
    (∃ r, folderAdd f a = .ok r) ↔ CanAdd fileMarking f.view a.view := by
  induction a using Folder.ind generalizing f with
  | h a ih =>
    have hmarks : DistinctMarks a.files := fun e he e' he' => hm [] e e'
      (Folder.mem_entries_nil.mpr he) (Folder.mem_entries_nil.mpr he')
    have hsub : ∀ d ∈ a.folders, d.view.UniqueMarks fileMarking := fun d hd q e e' he he' =>
      hm (d.name :: q) e e' (Folder.mem_entries_cons.mpr ⟨d, Folder.child_of_mem ha hd, he⟩)
        (Folder.mem_entries_cons.mpr ⟨d, Folder.child_of_mem ha hd, he'⟩)
    have hloop : (∃ st, a.files.foldlM (addFile a.folders) (f.files, f.folders) = .ok st) ↔ _ :=
      foldlM_addFile_ok hf.files_nodup hf.folders_nodup hmarks
    rw [canAdd_view_iff ha]
    constructor
    · rintro ⟨r, hok⟩
      obtain ⟨st, acc, hst, hacc, rfl⟩ := folderAdd_eq_ok.mp hok
      have hfiles := filesAdded_of_ok hf.files_nodup hf.folders_nodup hst
      refine ⟨hloop.mp ⟨st, hst⟩, fun d hd => ?_⟩
      obtain ⟨c, r, hc, hr⟩ := (addFolders_ok ha.folders_nodup).mp ⟨acc, hacc⟩ d hd
      refine ⟨(findKey_filesAdded hfiles).mp (by rw [hc]; rfl), ?_⟩
      rw [childOrNew_of_filesAdded hfiles hc] at hr
      exact (ih d hd hf.childOrNew (ha.of_mem hd) (hsub d hd)).mp ⟨r, hr⟩
    · rintro ⟨hagree, hchild⟩
      obtain ⟨st, hst⟩ := hloop.mpr hagree
      have hfiles := filesAdded_of_ok hf.files_nodup hf.folders_nodup hst
      obtain ⟨acc, hacc⟩ : ∃ acc, addFolders st.2 a.folders = .ok acc := by
        refine (addFolders_ok ha.folders_nodup).mpr fun d hd => ?_
        obtain ⟨c, hc⟩ := Option.isSome_iff_exists.mp
          ((findKey_filesAdded hfiles).mpr (hchild d hd).1)
        obtain ⟨r, hr⟩ := (ih d hd hf.childOrNew (ha.of_mem hd) (hsub d hd)).mpr (hchild d hd).2
        rw [← childOrNew_of_filesAdded hfiles hc] at hr
        exact ⟨c, r, hc, hr⟩
      exact ⟨_, folderAdd_eq_ok.mpr ⟨st, acc, hst, hacc, rfl⟩⟩

theorem child_folderAdd (hf : f.Distinct) (ha : a.Distinct) (hok : folderAdd f a = .ok r) :
    r.child n = match a.child n with
      | none => f.child n
      | some b => (folderAdd (f.childOrNew n) b).toOption := by
  obtain ⟨st, acc, hst, hacc, rfl⟩ := folderAdd_eq_ok.mp hok
  have hfiles := filesAdded_of_ok hf.files_nodup hf.folders_nodup hst
  show findKey Folder.name n acc = _
  rw [findKey_addFolders ha.folders_nodup hacc]
  cases hb : a.child n with
  | none =>
    -- no marker of that name is added either
    have hno : ¬ ∃ m ∈ a.files, m.isFolder ≠ 0 ∧ m.name = n := by
      rintro ⟨m, hm, hdir, rfl⟩
      exact Folder.child_eq_none.mp hb (hfiles.named m hm hdir)
    have hnone : findKey Folder.name n a.folders = none := hb
    rw [hnone, hfiles.folder, if_neg hno, Option.or_none]
    show addChild (f.child n) none = f.child n
    cases f.child n <;> rfl
  | some b =>
    obtain rfl := Folder.child_name hb
    obtain ⟨c, r, hc, hr⟩ := (addFolders_ok ha.folders_nodup).mp ⟨acc, hacc⟩ b (Folder.child_mem hb)
    have hsome : findKey Folder.name b.name a.folders = some b := hb
    rw [hsome, hc, childOrNew_of_filesAdded hfiles hc]
    rfl

theorem exists_child_folderAdd (ha : a.Distinct) (hf : f.Distinct) (hok : folderAdd f a = .ok r)
    (hb : a.child n = some d) : ∃ r', folderAdd (f.childOrNew n) d = .ok r' := by
  obtain rfl := Folder.child_name hb
  obtain ⟨st, acc, hst, hacc, rfl⟩ := folderAdd_eq_ok.mp hok
  have hfiles := filesAdded_of_ok hf.files_nodup hf.folders_nodup hst
  obtain ⟨c, r, hc, hr⟩ := (addFolders_ok ha.folders_nodup).mp ⟨acc, hacc⟩ d (Folder.child_mem hb)
  exact ⟨r, childOrNew_of_filesAdded hfiles hc ▸ hr⟩

theorem mem_files_folderAdd (hf : f.Distinct) (hok : folderAdd f a = .ok r) :
    e ∈ r.files ↔ e ∈ f.files ∨ e ∈ a.files := by
  obtain ⟨st, acc, hst, hacc, rfl⟩ := folderAdd_eq_ok.mp hok
  exact (filesAdded_of_ok hf.files_nodup hf.folders_nodup hst).mem_files e

/-- **Addition.** `folder_add` adds what the tree lists. -/
theorem view_folderAdd (hf : f.Distinct) (ha : a.Distinct) (hok : folderAdd f a = .ok r) :
    r.view = f.view.union a.view := by
  ext x
  · obtain ⟨q, e⟩ := x
    show _ ↔ _ ∨ _
    induction q generalizing f a r with
    | nil => simpa using mem_files_folderAdd hf hok
    | cons n q ih =>
      rw [Folder.mem_entries_cons, child_folderAdd hf ha hok, Folder.mem_entries_cons (f := a)]
      cases hb : a.child n with
      | none => simp [Folder.mem_entries_cons]
      | some b =>
        obtain ⟨r', hr'⟩ := exists_child_folderAdd ha hf hok hb
        have hih := ih hf.childOrNew (ha.child hb) hr'
        rw [Folder.mem_entries_childOrNew] at hih
        simpa [hr', Except.toOption] using hih
  · show _ ↔ _ ∨ _
    induction x generalizing f a r with
    | nil => simp
    | cons n q ih =>
      rw [Folder.mem_nodes_cons, child_folderAdd hf ha hok, Folder.mem_nodes_cons (f := a)]
      cases hb : a.child n with
      | none => simp [Folder.mem_nodes_cons]
      | some b =>
        obtain ⟨r', hr'⟩ := exists_child_folderAdd ha hf hok hb
        have hih := ih hf.childOrNew (ha.child hb) hr'
        rcases List.eq_nil_or_concat q with rfl | ⟨q, k, rfl⟩
        · simp [hr', Except.toOption]
        · rw [List.concat_eq_append, Folder.mem_nodes_childOrNew] at hih
          simpa [hr', Except.toOption] using hih

end DartSync
