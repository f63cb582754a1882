import DartSync.FileSystem.Iterator

/-!
# Removing one path

`filesystem_remove_file_at_path` splits a path into names, descends along them and removes the
first entry of the last name, with its folder when the entry marks one. It ends in `assert(0)` when
a name is missing. `filesystemRemoveFileAtPath_ok`: where the path leads to a file, exactly that
file is removed. In a well-formed tree every path that an iterator yields can be removed, that of a
folder with the folder (`filesystemRemoveFileAtPath_of_listed`).
-/

namespace DartSync

open KeyedList

/-- `folder_remove_file_at_path` -/
def folderRemoveFileAtPath (folder : Folder) : List CString → Except Abort Folder
  | [] => .error (if folder.files.isEmpty then .removeFileAtPath else .nullPointer)
  | [component] =>
    match queueRemove folder.files fun file => component = file.name with
    | (none, _) => .error .removeFileAtPath
    | (some found, files) =>
      if found.isFolder ≠ 0 then
        match queueRemove folder.folders fun d => component = d.name with
        | (none, _) => .error .removeFileAtPath
        | (some _, folders) => .ok { folder with files := files, folders := folders }
      else .ok { folder with files := files }
  | component :: components =>
    match queueSearch folder.folders fun d => component = d.name with
    | none => .error .removeFileAtPath
    | some found => do
      let left ← folderRemoveFileAtPath found components
      return { folder with folders := replaceKey Folder.name component left folder.folders }

/-- `filesystem_remove_file_at_path` -/
def filesystemRemoveFileAtPath (filesystem : Folder) (path : CString) : Except Abort Folder :=
  match getPathComponents path with
  | none => .error .diverges
  | some components => folderRemoveFileAtPath filesystem components

variable {f r c d : Folder} {n k : CString} {q : List CString} {e x : File}

/-- At the end of a path, the entry is looked for in `files`, and the folder that it marks in
`folders`. -/
theorem folderRemoveFileAtPath_last : folderRemoveFileAtPath f [n] =
    match f.files.find? fun file => n = file.name with
    | none => .error .removeFileAtPath
    | some found =>
      let files := f.files.eraseP fun file => n = file.name
      if found.isFolder ≠ 0 then
        match f.folders.find? fun d => n = d.name with
        | none => .error .removeFileAtPath
        | some _ => .ok { f with files := files, folders := f.folders.eraseP fun d => n = d.name }
      else .ok { f with files := files } := by
  show (match queueRemove f.files _ with | (none, _) => _ | (some found, files) => _) = _
  unfold queueRemove
  cases f.files.find? fun file => n = file.name with
  | none => rfl
  | some found =>
    cases f.folders.find? fun d => n = d.name <;> simp

theorem folderRemoveFileAtPath_cons {components : List CString} (h : components ≠ []) :
    folderRemoveFileAtPath f (k :: components) = match f.child k with
      | none => .error .removeFileAtPath
      | some found => do
        let left ← folderRemoveFileAtPath found components
        return { f with folders := replaceKey Folder.name k left f.folders } := by
  obtain ⟨m, rest, rfl⟩ := List.exists_cons_of_ne_nil h
  have hsearch : queueSearch f.folders (fun d => k = d.name) = f.child k := by
    unfold queueSearch Folder.child findKey
    congr 1; funext d; simp [eq_comm]
  rw [folderRemoveFileAtPath, hsearch]
  simp

/-- Below a child, the child is replaced by what is left of it. -/
theorem folderRemoveFileAtPath_child (hc : f.child k = some c)
    (h : folderRemoveFileAtPath c (q ++ [n]) = .ok r) : folderRemoveFileAtPath f (k :: q ++ [n]) =
      .ok { f with folders := replaceKey Folder.name k r f.folders } := by
  have hne : q ++ [n] ≠ [] := List.append_ne_nil_of_right_ne_nil q (List.cons_ne_nil n [])
  rw [List.cons_append, folderRemoveFileAtPath_cons hne, hc]
  show (folderRemoveFileAtPath c (q ++ [n]) >>= _) = _
  rw [h]
  rfl

theorem mem_eraseP_of_find? {α : Type*} {p : α → Bool} {l : List α} {a x : α} (hl : l.Nodup)
    (h : l.find? p = some a) : x ∈ l.eraseP p ↔ x ∈ l ∧ x ≠ a := by
  induction l with
  | nil => simp at h
  | cons b l ih =>
    rw [List.nodup_cons] at hl
    rw [List.find?_cons] at h
    rw [List.eraseP_cons]
    cases hb : p b with
    | true =>
      rw [hb] at h
      cases h
      refine ⟨fun hx => ⟨List.mem_cons_of_mem _ hx, fun heq => hl.1 (heq ▸ hx)⟩, fun hx => ?_⟩
      exact (List.mem_cons.mp hx.1).resolve_left hx.2
    | false =>
      rw [hb] at h
      have hne : b ≠ a := fun heq => by
        have := List.find?_some h
        rw [← heq, hb] at this
        cases this
      show x ∈ b :: l.eraseP p ↔ _
      rw [List.mem_cons, List.mem_cons, ih hl.2 h]
      constructor
      · rintro (rfl | hx)
        exacts [⟨Or.inl rfl, hne⟩, ⟨Or.inr hx.1, hx.2⟩]
      · rintro ⟨rfl | hx, hne'⟩
        exacts [Or.inl rfl, Or.inr ⟨hx, hne'⟩]

/-- Where a path leads to a file, that file is removed and nothing else. -/
theorem folderRemoveFileAtPath_ok (hf : f.Distinct) (hd : f.node q = some d)
    (he : d.files.find? (fun file => n = file.name) = some e) (hfile : e.isFolder = 0) :
    ∃ r, folderRemoveFileAtPath f (q ++ [n]) = .ok r ∧ r.name = f.name ∧ r.Distinct ∧
      (∀ p x, (p, x) ∈ r.view.entries ↔ (p, x) ∈ f.view.entries ∧ (p, x) ≠ (q, e)) ∧
      r.view.nodes = f.view.nodes := by
  induction q generalizing f with
  | nil =>
    have hfd : f = d := Option.some.inj hd
    subst hfd
    refine ⟨{ f with files := f.files.eraseP fun file => n = file.name }, ?_, rfl, ?_, ?_, ?_⟩
    · rw [List.nil_append, folderRemoveFileAtPath_last, he]
      exact if_neg (not_not.mpr hfile)
    · exact ⟨hf.files_nodup.sublist List.eraseP_sublist, hf.folders_nodup, fun c hc => hf.of_mem hc⟩
    · intro p x
      cases p with
      | nil =>
        rw [Folder.mem_entries_nil, Folder.mem_entries_nil]
        show x ∈ f.files.eraseP _ ↔ _
        rw [mem_eraseP_of_find? hf.files_nodup he]
        simp
      | cons m p =>
        rw [Folder.mem_entries_cons, Folder.mem_entries_cons]
        simp [Folder.child]
    · ext p
      cases p with
      | nil => simp
      | cons m p => rw [Folder.mem_nodes_cons, Folder.mem_nodes_cons]; rfl
  | cons k q ih =>
    obtain ⟨c, hc, hd⟩ := Option.bind_eq_some_iff.mp hd
    obtain ⟨r, hr, hname, hdist, hent, hnodes⟩ := ih (hf.child hc) hd
    have hrk : r.name = k := hname.trans (Folder.child_name hc)
    have hk : k ∈ f.folders.map Folder.name := mem_map_key_of_findKey hc
    have hchild : ∀ m, Folder.child { f with folders := replaceKey Folder.name k r f.folders } m =
        if m = k then some r else f.child m := fun m => findKey_replaceKey hrk hk
    refine ⟨{ f with folders := replaceKey Folder.name k r f.folders }, ?_, rfl, ?_, ?_, ?_⟩
    · exact folderRemoveFileAtPath_child hc hr
    · refine ⟨hf.files_nodup, ?_, fun b hb => ?_⟩
      · show ((replaceKey Folder.name k r f.folders).map Folder.name).Nodup
        rw [map_key_replaceKey hrk]
        exact hf.folders_nodup
      · rcases mem_of_mem_replaceKey hb with rfl | hb
        exacts [hdist, hf.of_mem hb]
    · intro p x
      cases p with
      | nil => rw [Folder.mem_entries_nil, Folder.mem_entries_nil]; simp
      | cons m p =>
        rw [Folder.mem_entries_cons, Folder.mem_entries_cons, hchild]
        by_cases hm : m = k
        · subst hm
          simpa [hc] using hent p x
        · simp [hm]
    · ext p
      cases p with
      | nil => simp
      | cons m p =>
        rw [Folder.mem_nodes_cons, Folder.mem_nodes_cons, hchild]
        by_cases hm : m = k
        · subst hm
          simp [hc, hnodes]
        · simp [hm]

/-- A tree with fewer entries in each folder. -/
theorem Folder.entries_le (hfiles : r.files ⊆ f.files) (hchild : ∀ n d, r.child n = some d →
      ∃ d', f.child n = some d' ∧ d.view.entries ⊆ d'.view.entries) :
    r.view.entries ⊆ f.view.entries := by
  rintro ⟨p, e⟩ he
  cases p with
  | nil => exact Folder.mem_entries_nil.mpr (hfiles (Folder.mem_entries_nil.mp he))
  | cons n p =>
    obtain ⟨d, hd, he⟩ := Folder.mem_entries_cons.mp he
    obtain ⟨d', hd', hsub⟩ := hchild n d hd
    exact Folder.mem_entries_cons.mpr ⟨d', hd', hsub he⟩

/-- Whatever path is removed, nothing new comes up. -/
theorem folderRemoveFileAtPath_le {components : List CString} (hf : f.Distinct)
    (h : folderRemoveFileAtPath f components = .ok r) :
    r.name = f.name ∧ r.Distinct ∧ r.view.entries ⊆ f.view.entries := by
  induction components generalizing f r with
  | nil => cases h
  | cons k components ih =>
    by_cases hnil : components = []
    · subst hnil
      obtain ⟨files, folders, hfiles, hfolders, rfl⟩ : ∃ files folders, files.Sublist f.files ∧
          folders.Sublist f.folders ∧ r = { f with files := files, folders := folders } := by
        rw [folderRemoveFileAtPath_last] at h
        split at h
        · cases h
        · dsimp only at h
          split_ifs at h
          · split at h
            · cases h
            · cases h
              exact ⟨_, _, List.eraseP_sublist, List.eraseP_sublist, rfl⟩
          · cases h
            exact ⟨_, _, List.eraseP_sublist, List.Sublist.refl _, rfl⟩
      have hdistinct : Folder.Distinct { f with files := files, folders := folders } :=
        ⟨hf.files_nodup.sublist hfiles, hf.folders_nodup.sublist (hfolders.map _),
          fun c hc => hf.of_mem (hfolders.subset hc)⟩
      refine ⟨rfl, hdistinct, Folder.entries_le hfiles.subset fun n d hd => ⟨d, ?_, subset_rfl⟩⟩
      have hmem := hfolders.subset (Folder.child_mem hd)
      rw [← Folder.child_name hd]
      exact Folder.child_of_mem hf hmem
    · rw [folderRemoveFileAtPath_cons hnil] at h
      cases hc : f.child k with
      | none =>
        rw [hc] at h
        cases h
      | some c =>
        rw [hc] at h
        obtain ⟨left, hleft, h⟩ := bind_eq_ok.mp h
        cases h
        obtain ⟨hname, hdistinct, hsub⟩ := ih (hf.child hc) hleft
        have hkey : left.name = k := hname.trans (Folder.child_name hc)
        have hk : k ∈ f.folders.map Folder.name := mem_map_key_of_findKey hc
        have hchild : ∀ m, Folder.child { f with folders := replaceKey Folder.name k left f.folders } m =
            if m = k then some left else f.child m := fun m => findKey_replaceKey hkey hk
        refine ⟨rfl, ⟨hf.files_nodup, ?_, fun b hb => ?_⟩, Folder.entries_le (List.Subset.refl _) fun n d hd => ?_⟩
        · show ((replaceKey Folder.name k left f.folders).map Folder.name).Nodup
          rw [map_key_replaceKey hkey]
          exact hf.folders_nodup
        · rcases mem_of_mem_replaceKey hb with rfl | hb
          exacts [hdistinct, hf.of_mem hb]
        · rw [hchild] at hd
          split_ifs at hd with hn
          · cases hd
            exact ⟨c, hn ▸ hc, hsub⟩
          · exact ⟨d, hd, subset_rfl⟩

theorem isName_of_mem_append (hq : ∀ m ∈ q, IsName m) (hn : IsName n) : ∀ m ∈ q ++ [n], IsName m :=
  List.forall_mem_append.mpr ⟨hq, List.forall_mem_singleton.mpr hn⟩

theorem getPathComponents_entryPath (hq : ∀ m ∈ q, IsName m) (hn : IsName e.name) :
    getPathComponents (entryPath q e) = some (q ++ [e.name]) := by
  unfold entryPath
  rw [← joinPath_append_singleton]
  exact getPathComponents_joinPath (isName_of_mem_append hq hn)

/-- Entries of one path are in one folder and have one name. -/
theorem entryPath_inj {q' : List CString} {e' : File} (hq : ∀ m ∈ q, IsName m) (hn : IsName e.name)
    (hq' : ∀ m ∈ q', IsName m) (hn' : IsName e'.name) (h : entryPath q e = entryPath q' e') :
    q = q' ∧ e.name = e'.name := by
  unfold entryPath at h
  rw [← joinPath_append_singleton, ← joinPath_append_singleton] at h
  have hcomps := joinPath_injective (isName_of_mem_append hq hn) (isName_of_mem_append hq' hn') h
  obtain ⟨hpath, hname⟩ := List.append_inj' hcomps rfl
  exact ⟨hpath, List.singleton_inj.mp hname⟩

/-- **Removal of a path.** -/
theorem filesystemRemoveFileAtPath_ok (hf : f.Distinct) (hq : ∀ m ∈ q, IsName m) (hn : IsName e.name)
    (he : (q, e) ∈ f.view.entries) (hfile : e.isFolder = 0)
    (hone : ∀ x, (q, x) ∈ f.view.entries → x.name = e.name → x = e) :
    ∃ r, filesystemRemoveFileAtPath f (entryPath q e) = .ok r ∧ r.Distinct ∧
      (∀ p x, (p, x) ∈ r.view.entries ↔ (p, x) ∈ f.view.entries ∧ (p, x) ≠ (q, e)) ∧
      r.view.nodes = f.view.nodes := by
  obtain ⟨d, hd, hmem⟩ := he
  have hfind : d.files.find? (fun file => e.name = file.name) = some e := by
    obtain ⟨x, hx⟩ := Option.isSome_iff_exists.mp
      (List.find?_isSome.mpr ⟨e, hmem, decide_eq_true rfl⟩ :
        (d.files.find? fun file => e.name = file.name).isSome)
    have hname : e.name = x.name := by simpa using List.find?_some hx
    rw [hx, hone x ⟨d, hd, List.mem_of_find?_eq_some hx⟩ hname.symm]
  obtain ⟨r, hr, -, hdist, hent, hnodes⟩ := folderRemoveFileAtPath_ok hf hd hfind hfile
  refine ⟨r, ?_, hdist, hent, hnodes⟩
  unfold filesystemRemoveFileAtPath
  rw [getPathComponents_entryPath hq hn]
  exact hr

/-! ## Paths of a listing -/

/-- A folder path that goes with the entry `e` of the folder at `q`. -/
def GoesWith (q : List CString) (e : File) (p : List CString) : Prop :=
  e.isFolder ≠ 0 ∧ q ++ [e.name] <+: p

/-- `r` is `f` without the entry `e` of the folder at `q`, and without its folder; everything else is
there in its order. -/
structure IsWithout (f r : Folder) (q : List CString) (e : File) : Prop where
  nodes : ∀ p, p ∈ r.view.nodes ↔ p ∈ f.view.nodes ∧ ¬ GoesWith q e p
  name : ∀ p d d', f.node p = some d → r.node p = some d' → d'.name = d.name
  files : ∀ p d d', f.node p = some d → r.node p = some d' →
    d'.files = if p = q then d.files.filter fun x => x ≠ e else d.files
  folders : ∀ p d d', f.node p = some d → r.node p = some d' → d'.folders.map Folder.name =
    if p = q ∧ e.isFolder ≠ 0 then (d.folders.map Folder.name).filter fun n => n ≠ e.name
    else d.folders.map Folder.name

theorem not_goesWith_nil : ¬ GoesWith q e [] := fun h => by simpa using h.2.length_le

theorem goesWith_cons {p : List CString} :
    GoesWith (k :: q) e (n :: p) ↔ k = n ∧ GoesWith q e p := by
  unfold GoesWith
  rw [List.cons_append, List.cons_prefix_cons]
  tauto

/-- An entry at the top of the tree. -/
theorem goesWith_nil_cons {p : List CString} :
    GoesWith [] e (n :: p) ↔ e.isFolder ≠ 0 ∧ e.name = n := by
  unfold GoesWith
  rw [List.nil_append, List.cons_prefix_cons]
  simp

theorem eraseP_eq_filter {α : Type*} [DecidableEq α] {p : α → Bool} {l : List α} {a : α}
    (hl : l.Nodup) (ha : p a = true) (h : ∀ x ∈ l, p x = true → x = a) :
    l.eraseP p = l.filter fun x => x ≠ a := by
  induction l with
  | nil => rfl
  | cons b l ih =>
    rw [List.nodup_cons] at hl
    rw [List.eraseP_cons, List.filter_cons]
    by_cases hb : b = a
    · subst hb
      have hrest : l.filter (fun x => x ≠ b) = l := List.filter_eq_self.mpr fun x hx =>
        decide_eq_true fun hxb => hl.1 (hxb ▸ hx)
      rw [hrest]
      simp [ha]
    · have hpb : p b = false := by
        by_contra hp
        exact hb (h b List.mem_cons_self (by simpa using hp))
      simp [hpb, hb, ih hl.2 fun x hx => h x (List.mem_cons_of_mem _ hx)]

theorem map_name_eraseKey {ds : List Folder} (h : (ds.map Folder.name).Nodup) :
    (eraseKey Folder.name n ds).map Folder.name = (ds.map Folder.name).filter fun m => m ≠ n := by
  induction ds with
  | nil => rfl
  | cons d ds ih =>
    rw [List.map_cons, List.nodup_cons] at h
    by_cases hd : d.name = n
    · have hrest : (ds.map Folder.name).filter (fun m => m ≠ n) = ds.map Folder.name :=
        List.filter_eq_self.mpr fun m hm => decide_eq_true fun hmn => h.1 (hd ▸ hmn ▸ hm)
      rw [eraseKey, List.eraseP_cons_of_pos (by simpa using hd), List.map_cons, List.filter_cons, hrest]
      simp [hd]
    · rw [eraseKey, List.eraseP_cons_of_neg (by simpa using hd), List.map_cons, List.map_cons,
        List.filter_cons, if_pos (by simpa using hd)]
      exact congrArg (d.name :: ·) (ih h.2)

/-- The folder without an entry of its own. -/
def Folder.without (f : Folder) (e : File) : Folder where
  name := f.name
  files := f.files.filter fun x => x ≠ e
  folders := if e.isFolder ≠ 0 then eraseKey Folder.name e.name f.folders else f.folders

theorem child_without (hf : f.WellFormed) : (f.without e).child n =
    if e.isFolder ≠ 0 ∧ n = e.name then none else f.child n := by
  by_cases he : e.isFolder = 0
  · rw [if_neg fun h => h.1 he]
    show findKey Folder.name n (if _ then _ else _) = _
    rw [if_neg (not_not.mpr he)]
    rfl
  · show findKey Folder.name n (if _ then _ else _) = _
    rw [if_pos he, findKey_eraseKey hf.distinct.folders_nodup]
    simp [he, Folder.child]

theorem Folder.WellFormed.without (hf : f.WellFormed) (he : e ∈ f.files) : (f.without e).WellFormed := by
  obtain ⟨hfiles, hfolders, hdir, hmark, hsub⟩ := hf
  have hof : ∀ x ∈ (f.without e).files, x ∈ f.files ∧ x ≠ e := fun x hx =>
    ⟨(List.mem_filter.mp hx).1, of_decide_eq_true (List.mem_filter.mp hx).2⟩
  have hnames : (f.without e).folders.map Folder.name =
      if e.isFolder ≠ 0 then (f.folders.map Folder.name).filter fun m => m ≠ e.name
      else f.folders.map Folder.name := by
    unfold Folder.without
    split_ifs
    exacts [map_name_eraseKey hfolders, rfl]
  refine ⟨hfiles.sublist (List.filter_sublist.map _), ?_, fun x hx => hdir x (hof x hx).1, fun n => ?_,
    fun d hd => ?_⟩
  · rw [hnames]
    split_ifs
    exacts [hfolders.filter _, hfolders]
  · have hmem : marker n ∈ (f.without e).files ↔ marker n ∈ f.files ∧ marker n ≠ e := by
      simp [Folder.without]
    rw [hmem, hmark, hnames]
    by_cases hfolder : e.isFolder = 0
    · rw [if_neg (not_not.mpr hfolder)]
      have hne : marker n ≠ e := fun h => marker_isFolder n (h ▸ hfolder)
      exact and_iff_left hne
    · rw [if_pos hfolder, List.mem_filter, decide_eq_true_eq]
      have hmarker : e = marker e.name := hdir e he hfolder
      have hiff : marker n ≠ e ↔ n ≠ e.name := by
        rw [not_iff_not]
        exact ⟨fun h => h ▸ rfl, fun h => h ▸ hmarker.symm⟩
      rw [hiff]
  · refine hsub d ?_
    unfold Folder.without at hd
    dsimp only at hd
    split_ifs at hd
    exacts [eraseKey_sublist.subset hd, hd]

theorem isWithout_without (hf : f.WellFormed) : IsWithout f (f.without e) [] e := by
  have hbelow {m : CString} {p : List CString} {d d' : Folder} (hd : f.node (m :: p) = some d)
      (hd' : (f.without e).node (m :: p) = some d') : d' = d := by
    rw [Folder.node_cons, child_without hf] at hd'
    split_ifs at hd'
    · cases hd'
    · exact Option.some.inj (hd'.symm.trans hd)
  refine ⟨fun p => ?_, fun p d d' hd hd' => ?_, fun p d d' hd hd' => ?_, fun p d d' hd hd' => ?_⟩
  · cases p with
    | nil => simp [not_goesWith_nil]
    | cons m p =>
      rw [Folder.mem_nodes_cons, Folder.mem_nodes_cons, child_without hf, goesWith_nil_cons]
      by_cases h : e.isFolder ≠ 0 ∧ m = e.name
      · simp [h]
      · have hnot : ¬ (e.isFolder ≠ 0 ∧ e.name = m) := fun h' => h ⟨h'.1, h'.2.symm⟩
        rw [if_neg h]
        exact (and_iff_left hnot).symm
  · cases p with
    | nil => cases hd; cases hd'; rfl
    | cons m p => rw [hbelow hd hd']
  · cases p with
    | nil => cases hd; cases hd'; exact (if_pos rfl).symm
    | cons m p => rw [hbelow hd hd', if_neg (List.cons_ne_nil _ _)]
  · cases p with
    | nil =>
      cases hd; cases hd'
      show (if _ then _ else _ : List Folder).map Folder.name = _
      by_cases he : e.isFolder = 0
      · rw [if_neg (not_not.mpr he), if_neg fun h => h.2 he]
      · rw [if_pos he, if_pos ⟨rfl, he⟩, map_name_eraseKey hf.distinct.folders_nodup]
    | cons m p => rw [hbelow hd hd', if_neg fun h => List.cons_ne_nil _ _ h.1]

/-- A folder in which one child is another one. -/
theorem IsWithout.cons {r' : Folder} (h : IsWithout c r q e) (hc : f.child k = some c)
    (hr : ∀ m, r'.child m = if m = k then some r else f.child m) (hname : r'.name = f.name)
    (hfiles : r'.files = f.files) (hfolders : r'.folders.map Folder.name = f.folders.map Folder.name) :
    IsWithout f r' (k :: q) e := by
  -- below the child it is `h`, elsewhere nothing has changed
  have hbelow {m : CString} {p : List CString} {d d' : Folder} (hd : f.node (m :: p) = some d)
      (hd' : r'.node (m :: p) = some d') :
      (m = k ∧ c.node p = some d ∧ r.node p = some d') ∨ (m ≠ k ∧ d' = d) := by
    rw [Folder.node_cons] at hd hd'
    rw [hr] at hd'
    by_cases hm : m = k
    · subst hm
      rw [if_pos rfl] at hd'
      rw [hc] at hd
      exact Or.inl ⟨rfl, hd, hd'⟩
    · rw [if_neg hm, hd] at hd'
      exact Or.inr ⟨hm, (Option.some.inj hd').symm⟩
  refine ⟨fun p => ?_, fun p d d' hd hd' => ?_, fun p d d' hd hd' => ?_, fun p d d' hd hd' => ?_⟩
  · cases p with
    | nil => simp [not_goesWith_nil]
    | cons m p =>
      rw [Folder.mem_nodes_cons, Folder.mem_nodes_cons, hr, goesWith_cons]
      by_cases hm : m = k
      · subst hm
        simp [hc, h.nodes]
      · simp [hm, Ne.symm hm]
  · cases p with
    | nil => cases hd; cases hd'; exact hname
    | cons m p =>
      obtain ⟨-, hd, hd'⟩ | ⟨-, rfl⟩ := hbelow hd hd'
      exacts [h.name p d d' hd hd', rfl]
  · cases p with
    | nil => cases hd; cases hd'; rw [if_neg (List.cons_ne_nil _ _).symm]; exact hfiles
    | cons m p =>
      obtain ⟨rfl, hd, hd'⟩ | ⟨hm, rfl⟩ := hbelow hd hd'
      · rw [h.files p d d' hd hd']
        simp
      · rw [if_neg fun h' => hm (List.cons.inj h').1]
  · cases p with
    | nil =>
      cases hd; cases hd'
      rw [if_neg fun h' => (List.cons_ne_nil _ _).symm h'.1]
      exact hfolders
    | cons m p =>
      obtain ⟨rfl, hd, hd'⟩ | ⟨hm, rfl⟩ := hbelow hd hd'
      · rw [h.folders p d d' hd hd']
        simp
      · rw [if_neg fun h' => hm (List.cons.inj h'.1).1]

/-- At the top, an entry is removed with the folder it marks. -/
theorem folderRemoveFileAtPath_singleton (hf : f.WellFormed) (he : e ∈ f.files) :
    folderRemoveFileAtPath f [e.name] = .ok (f.without e) := by
  obtain ⟨hnames, -, hdir, hmark, -⟩ := id hf
  have honly : ∀ x ∈ f.files, decide (e.name = x.name) = true → x = e := fun x hx h =>
    List.inj_on_of_nodup_map hnames hx he (of_decide_eq_true h).symm
  have hsame (x : File) (h : f.files.find? (fun file => e.name = file.name) = some x) :
      e.name = x.name := by simpa using List.find?_some h
  have hfind : f.files.find? (fun file => e.name = file.name) = some e := by
    obtain ⟨x, hx⟩ := Option.isSome_iff_exists.mp
      (List.find?_isSome.mpr ⟨e, he, decide_eq_true rfl⟩ :
        (f.files.find? fun file => e.name = file.name).isSome)
    rw [hx, honly x (List.mem_of_find?_eq_some hx) (decide_eq_true (hsame x hx))]
  have hfiles : f.files.eraseP (fun file => e.name = file.name) = f.files.filter fun x => x ≠ e :=
    eraseP_eq_filter hnames.of_map (decide_eq_true rfl) honly
  rw [folderRemoveFileAtPath_last, hfind, hfiles]
  by_cases hfolder : e.isFolder = 0
  · simp [Folder.without, hfolder]
  · -- the folder of a marker is there
    have hname : e.name ∈ f.folders.map Folder.name := by
      rw [← hmark, ← hdir e he hfolder]
      exact he
    have hsearch : (fun d : Folder => decide (e.name = d.name)) = fun d => decide (d.name = e.name) := by
      funext d
      exact decide_eq_decide.mpr eq_comm
    obtain ⟨d, hd⟩ := exists_findKey hname
    have hd : f.folders.find? (fun d => e.name = d.name) = some d := by
      rw [hsearch]
      exact hd
    have herase : f.folders.eraseP (fun d => e.name = d.name) =
        eraseKey Folder.name e.name f.folders := by
      rw [hsearch]
      rfl
    simp [Folder.without, hfolder, hd, herase]

/-- Where a path leads to an entry, this entry is removed. -/
theorem folderRemoveFileAtPath_of_mem (hf : f.WellFormed) (he : (q, e) ∈ f.view.entries) :
    ∃ r, folderRemoveFileAtPath f (q ++ [e.name]) = .ok r ∧ r.name = f.name ∧ r.WellFormed ∧
      IsWithout f r q e := by
  induction q generalizing f with
  | nil =>
    have hmem := Folder.mem_entries_nil.mp he
    exact ⟨f.without e, folderRemoveFileAtPath_singleton hf hmem, rfl, hf.without hmem,
      isWithout_without hf⟩
  | cons k q ih =>
    obtain ⟨c, hc, he⟩ := Folder.mem_entries_cons.mp he
    obtain ⟨r, hr, hname, hwell, hwithout⟩ := ih (hf.of_mem (Folder.child_mem hc)) he
    have hrk : r.name = k := hname.trans (Folder.child_name hc)
    have hk : k ∈ f.folders.map Folder.name := mem_map_key_of_findKey hc
    have hnames : (replaceKey Folder.name k r f.folders).map Folder.name = f.folders.map Folder.name :=
      map_key_replaceKey hrk
    refine ⟨{ f with folders := replaceKey Folder.name k r f.folders }, ?_, rfl, ?_, ?_⟩
    · exact folderRemoveFileAtPath_child hc hr
    · obtain ⟨hfiles, hfolders, hdir, hmark, hsub⟩ := hf
      refine ⟨hfiles, hnames ▸ hfolders, hdir, fun n => (hmark n).trans ?_, fun d hd => ?_⟩
      · show _ ↔ n ∈ (replaceKey Folder.name k r f.folders).map Folder.name
        rw [hnames]
      · rcases mem_of_mem_replaceKey hd with rfl | hd
        exacts [hwell, hsub d hd]
    · exact hwithout.cons hc (fun m => findKey_replaceKey hrk hk) rfl rfl hnames

/-- What is left of the entries. -/
theorem IsWithout.mem_entries {p : List CString} (h : IsWithout f r q e) :
    (p, x) ∈ r.view.entries ↔
      (p, x) ∈ f.view.entries ∧ (p, x) ≠ (q, e) ∧ ¬ GoesWith q e p := by
  constructor
  · rintro ⟨d', hd', hx⟩
    obtain ⟨hp, hstay⟩ := (h.nodes p).mp (Option.isSome_iff_exists.mpr ⟨d', hd'⟩)
    obtain ⟨d, hd⟩ := Option.isSome_iff_exists.mp hp
    rw [h.files p d d' hd hd'] at hx
    split_ifs at hx with hpq
    · have hx := List.mem_filter.mp hx
      exact ⟨⟨d, hd, hx.1⟩, fun heq => of_decide_eq_true hx.2 (Prod.mk.inj heq).2, hstay⟩
    · exact ⟨⟨d, hd, hx⟩, fun heq => hpq (Prod.mk.inj heq).1, hstay⟩
  · rintro ⟨⟨d, hd, hx⟩, hne, hstay⟩
    obtain ⟨d', hd'⟩ := Option.isSome_iff_exists.mp
      ((h.nodes p).mpr ⟨Option.isSome_iff_exists.mpr ⟨d, hd⟩, hstay⟩)
    refine ⟨d', hd', ?_⟩
    rw [h.files p d d' hd hd']
    split_ifs with hpq
    · exact List.mem_filter.mpr ⟨hx, decide_eq_true fun hxe => hne (Prod.ext hpq hxe)⟩
    · exact hx

theorem filesystemRemoveFileAtPath_of_mem (hf : f.WellFormed) (hq : ∀ m ∈ q, IsName m)
    (hn : IsName e.name) (he : (q, e) ∈ f.view.entries) :
    ∃ r, filesystemRemoveFileAtPath f (entryPath q e) = .ok r ∧ r.WellFormed ∧
      IsWithout f r q e := by
  obtain ⟨r, hr, -, hwell, hwithout⟩ := folderRemoveFileAtPath_of_mem hf he
  refine ⟨r, ?_, hwell, hwithout⟩
  unfold filesystemRemoveFileAtPath
  rw [getPathComponents_entryPath hq hn]
  exact hr

/-- **Removal of a listed path.** Every path that an iterator over a well-formed tree yields can be
removed, and then exactly its entry is gone, with its folder if it marks one. -/
theorem filesystemRemoveFileAtPath_of_listed (tree : Folder) (fileFirst : Bool) (item : IteratorItem)
    (htree : tree.WellFormed) (hnamed : tree.Named)
    (hitem : item ∈ filesystemIteratorRelative fileFirst tree) :
    ∃ q e, (q, e) ∈ tree.view.entries ∧ item = itemOf (joinPath .empty q) e ∧
      ∃ r, filesystemRemoveFileAtPath tree item.path = .ok r ∧ r.WellFormed ∧
        IsWithout tree r q e := by
  obtain ⟨q, e, he, rfl⟩ := (mem_filesystemIterator htree.distinct).mp hitem
  obtain ⟨hq, hn⟩ := hnamed.of_mem_entries he
  exact ⟨q, e, he, rfl, filesystemRemoveFileAtPath_of_mem htree hq hn he⟩

/-- An empty folder `d` at the top of a tree goes with its marker. -/
theorem filesystemRemoveFileAtPath_of_listed_folder :
    ∃ q e, (q, e) ∈ (⟨.empty, [marker (.ofBytes [100])], [⟨.ofBytes [100], [], []⟩]⟩ : Folder).view.entries ∧
      (⟨.ofBytes [47, 100], -1, 0⟩ : IteratorItem) = itemOf (joinPath .empty q) e ∧
      ∃ r, filesystemRemoveFileAtPath ⟨.empty, [marker (.ofBytes [100])], [⟨.ofBytes [100], [], []⟩]⟩
        (.ofBytes [47, 100]) = .ok r ∧ r.WellFormed ∧
        IsWithout ⟨.empty, [marker (.ofBytes [100])], [⟨.ofBytes [100], [], []⟩]⟩ r q e :=
  filesystemRemoveFileAtPath_of_listed _ true _ (by decide) (by decide) (by decide)

end DartSync
