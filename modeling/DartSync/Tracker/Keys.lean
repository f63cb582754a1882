import DartSync.Tracker.Updates

/-!
# Master file system and file table

`updateNetwork` removes from the tree the entries equal to a listed one and the folders of listed
markers, but from the file table every path listed. After a stale update the two can name different
files. `StaysInStep` is the condition on an update under which they do not: apart from the files it
adds, the paths of the files it lists as deleted are those of the files it deletes from the master.
Under it the keys of the table are the paths of the files of the master in every state of a run, and
`prune_filesystem` finds every path it removes.
-/

namespace DartSync

open Runs TreeSet

/-- `folder_remove` with `deletions` deletes the entry `e` of the folder at `q`: it is listed, or a
marker above it is. -/
def Deletes (fs deletions : Folder) (q : List CString) (e : File) : Prop :=
  (q, e) ∈ deletions.view.entries ∨ Cut fileMarking fs.view deletions.view q

/-- What may reach the tracker: updates to trees that a client can have on disk, and the rest. -/
def IsLegal (_ : TrackerRun) : RunEvent → Prop
  | .update _ _ edited => edited.WellFormed ∧ edited.Named
  | _ => True

/-- The update adds no file whose size is negative as an `int`; and a file of the master that it
does not add anew is listed as deleted, by its path, exactly when it is deleted. -/
structure UpdateInStep (fs additions deletions : Folder) : Prop where
  plain : ∀ x ∈ additions.view.entries, x.2.isFolder = 0 → x.2.IsPlain
  listed_iff : ∀ q e, (q, e) ∈ fs.view.entries → e.isFolder = 0 →
    ¬ IsFilePath additions.view.entries (entryPath q e) →
      (IsFilePath deletions.view.entries (entryPath q e) ↔ Deletes fs deletions q e)

/-- An update that treats tree and table alike; a departure after which no path to prune names two
entries of the master; any other message. -/
def StaysInStep (s : TrackerRun) (e : RunEvent) : Prop :=
  IsLegal s e ∧ match e with
    | .update _ age edited => UpdateInStep s.tracker.fs (filesystemDiff (s.base age) edited).1
        (filesystemDiff (s.base age) edited).2
    | .leaves peerID => ∀ p ∈ filesToPrune (filetableRemovePeer s.tracker.filetable peerID),
        ∀ q e e', (q, e) ∈ s.tracker.fs.view.entries → (q, e') ∈ s.tracker.fs.view.entries →
          entryPath q e = p → e'.name = e.name → e' = e
    | _ => True

/-! ## Files of a master -/

/-- What holds of every master: the iterators see all of it, under paths that can be split, and
take every file for one. -/
structure MasterTree (fs : Folder) : Prop where
  distinct : fs.Distinct
  named : ∀ q e, (q, e) ∈ fs.view.entries → (∀ n ∈ q, IsName n) ∧ IsName e.name
  plain : ∀ q e, (q, e) ∈ fs.view.entries → e.isFolder = 0 → e.IsPlain

variable {fs r additions deletions base edited : Folder} {ft : FileTable} {p : CString}
  {q q' : List CString} {e e' : File} {s t : TrackerRun} {ev : RunEvent} {es : List RunEvent}

theorem masterTree_emptyFilesystem : MasterTree emptyFilesystem where
  distinct := wellFormed_emptyFilesystem.distinct
  named _ _ h := absurd h (Folder.not_mem_entries_of_isEmpty rfl _)
  plain _ _ h := absurd h (Folder.not_mem_entries_of_isEmpty rfl _)

/-- Entries of one path are in one folder and have one name. -/
theorem MasterTree.entryPath_inj (h : MasterTree fs) (he : (q, e) ∈ fs.view.entries)
    (he' : (q', e') ∈ fs.view.entries) (hp : entryPath q e = entryPath q' e') :
    q = q' ∧ e.name = e'.name :=
  DartSync.entryPath_inj (h.named q e he).1 (h.named q e he).2 (h.named q' e' he').1
    (h.named q' e' he').2 hp

/-! ## Updates -/

theorem MasterTree.patch (h : MasterTree fs) (hbase : base.Distinct) (hedited : edited.WellFormed)
    (hnamed : edited.Named)
    (hplain : ∀ x ∈ (filesystemDiff base edited).1.view.entries, x.2.isFolder = 0 → x.2.IsPlain)
    (hr : patch fs (filesystemDiff base edited).1 (filesystemDiff base edited).2 = .ok r) :
    MasterTree r := by
  have hview := view_patch h.distinct (distinct_additions hedited.distinct)
    (distinct_deletions hbase) hr
  have hmem : ∀ {q e}, (q, e) ∈ r.view.entries →
      (q, e) ∈ fs.view.entries ∨ (q, e) ∈ (filesystemDiff base edited).1.view.entries := by
    intro q e he
    rw [hview] at he
    exact he.imp (fun h => h.1) id
  refine ⟨h.distinct.patch hr, fun q e he => ?_, fun q e he => ?_⟩
  · rcases hmem he with he | he
    · exact h.named q e he
    · rw [(isDiff_additions hbase hedited.distinct).entries_eq] at he
      exact hnamed.of_mem_entries he.1
  · rcases hmem he with he | he
    exacts [h.plain q e he, hplain (q, e) he]

/-- The files of the patched master. -/
theorem mem_filePaths_patch (hfs : fs.Distinct) (hadd : additions.Distinct)
    (hdel : deletions.Distinct) (hr : patch fs additions deletions = .ok r) :
    p ∈ filePaths r ↔ p ∈ filePaths additions ∨
      ∃ q e, (q, e) ∈ fs.view.entries ∧ ¬ Deletes fs deletions q e ∧ e.isFolder = 0 ∧
        p = entryPath q e := by
  unfold filePaths
  rw [view_patch hfs hadd hdel hr]
  constructor
  · rintro ⟨q, e, he | he, hfile, rfl⟩
    · exact Or.inr ⟨q, e, he.1, not_or.mpr he.2, hfile, rfl⟩
    · exact Or.inl ⟨q, e, he, hfile, rfl⟩
  · rintro (⟨q, e, he, hfile, rfl⟩ | ⟨q, e, he, hdel, hfile, rfl⟩)
    · exact ⟨q, e, Or.inr he, hfile, rfl⟩
    · exact ⟨q, e, Or.inl ⟨he, not_or.mp hdel⟩, hfile, rfl⟩

theorem keys_update {rand : Rand} {id : ℤ} (hadd : additions.Distinct) (hdel : deletions.Distinct) :
    ((filetableAddFilesystem (filetableRemoveFilesystem ft deletions) additions id false
      rand).1.lookup p).isSome ↔ IsFilePath additions.view.entries p ∨
        ((ft.lookup p).isSome ∧ ¬ IsFilePath deletions.view.entries p) := by
  rw [lookup_filetableAddFilesystem_isSome hadd]
  refine or_congr Iff.rfl ?_
  simp only [Option.isSome_iff_exists, lookup_filetableRemoveFilesystem hdel, exists_and_right]

/-- An update in step keeps the keys in step. -/
theorem keys_eq_filePaths_patch {rand : Rand} {id : ℤ} (hadd : additions.Distinct)
    (hdel : deletions.Distinct) (hfs : fs.Distinct) (hstep : UpdateInStep fs additions deletions)
    (hkeys : ∀ p, (ft.lookup p).isSome ↔ p ∈ filePaths fs)
    (hr : patch fs additions deletions = .ok r) (p : CString) :
    ((filetableAddFilesystem (filetableRemoveFilesystem ft deletions) additions id false
      rand).1.lookup p).isSome ↔ p ∈ filePaths r := by
  have hadded := isFilePath_iff_mem_filePaths (p := p) fun q e he hfile => hstep.plain (q, e) he hfile
  rw [keys_update hadd hdel, mem_filePaths_patch hfs hadd hdel hr, hkeys, ← hadded]
  by_cases hp : IsFilePath additions.view.entries p
  · exact iff_of_true (Or.inl hp) (Or.inl hp)
  · rw [or_iff_right hp, or_iff_right hp]
    constructor
    · rintro ⟨⟨q, e, he, hfile, rfl⟩, hnot⟩
      exact ⟨q, e, he, (hstep.listed_iff q e he hfile hp).not.mp hnot, hfile, rfl⟩
    · rintro ⟨q, e, he, hnot, hfile, rfl⟩
      exact ⟨⟨q, e, he, hfile, rfl⟩, (hstep.listed_iff q e he hfile hp).not.mpr hnot⟩

/-! ## Pruning -/

/-- No path in the list names two entries of the tree. -/
def NamesOne (fs : Folder) (paths : List CString) : Prop :=
  ∀ p ∈ paths, ∀ q e e', (q, e) ∈ fs.view.entries → (q, e') ∈ fs.view.entries →
    entryPath q e = p → e'.name = e.name → e' = e

/-- Tree and table in step. -/
structure InStep (fs : Folder) (ft : FileTable) : Prop where
  tree : MasterTree fs
  keys : ∀ p, (ft.lookup p).isSome ↔ p ∈ filePaths fs

theorem InStep.prunePath (h : InStep fs ft) (hp : (ft.lookup p).isSome)
    (hone : NamesOne fs [p]) : ∃ r, prunePath (fs, ft) p = .ok (r, filetableRemoveFile ft p) ∧
      InStep r (filetableRemoveFile ft p) ∧ r.view.entries ⊆ fs.view.entries := by
  obtain ⟨q, e, he, hfile, rfl⟩ := (h.keys p).mp hp
  have hone' : ∀ x, (q, x) ∈ fs.view.entries → x.name = e.name → x = e := fun x hx =>
    hone _ List.mem_cons_self q e x he hx rfl
  obtain ⟨r, hr, hdist, hent, -⟩ := filesystemRemoveFileAtPath_ok h.tree.distinct
    (h.tree.named q e he).1 (h.tree.named q e he).2 he hfile hone'
  have hsub : r.view.entries ⊆ fs.view.entries := fun x hx => ((hent x.1 x.2).mp hx).1
  refine ⟨r, ?_, ⟨⟨hdist, fun p x hx => h.tree.named p x (hsub hx),
    fun p x hx => h.tree.plain p x (hsub hx)⟩, fun p => ?_⟩, hsub⟩
  · unfold DartSync.prunePath
    rw [hr]
    rfl
  · unfold filetableRemoveFile
    rw [FileTable.lookup_erase]
    constructor
    · intro hsome
      split_ifs at hsome with hp
      · cases hsome
      · obtain ⟨q', e', he', hfile', rfl⟩ := (h.keys p).mp hsome
        refine ⟨q', e', (hent q' e').mpr ⟨he', fun heq => hp ?_⟩, hfile', rfl⟩
        obtain ⟨rfl, rfl⟩ := Prod.mk.inj heq
        rfl
    · rintro ⟨q', e', he', hfile', rfl⟩
      obtain ⟨he', hne⟩ := (hent q' e').mp he'
      rw [if_neg, h.keys]
      · exact ⟨q', e', he', hfile', rfl⟩
      · intro heq
        obtain ⟨rfl, hname⟩ := h.tree.entryPath_inj he' he heq
        exact hne (by rw [hone' e' he' hname])

/-- The loop of `prune_filesystem` finds every path it removes. -/
theorem InStep.prunePaths {paths : List CString} (h : InStep fs ft) (hnd : paths.Nodup)
    (hkeys : ∀ p ∈ paths, (ft.lookup p).isSome) (hone : NamesOne fs paths) :
    ∃ st, paths.foldlM DartSync.prunePath (fs, ft) = .ok st ∧ InStep st.1 st.2 := by
  induction paths generalizing fs ft with
  | nil => exact ⟨(fs, ft), rfl, h⟩
  | cons p paths ih =>
    rw [List.nodup_cons] at hnd
    obtain ⟨r, hr, hstep, hsub⟩ := h.prunePath (hkeys p List.mem_cons_self) fun x hx =>
      hone x (List.mem_singleton.mp hx ▸ List.mem_cons_self)
    have hkeys' : ∀ x ∈ paths, ((filetableRemoveFile ft p).lookup x).isSome := by
      intro x hx
      unfold filetableRemoveFile
      rw [FileTable.lookup_erase, if_neg fun h : x = p => hnd.1 (h ▸ hx)]
      exact hkeys x (List.mem_cons_of_mem p hx)
    obtain ⟨st, hst, hin⟩ := ih hstep hnd.2 hkeys' fun x hx q e e' he he' =>
      hone x (List.mem_cons_of_mem p hx) q e e' (hsub he) (hsub he')
    exact ⟨st, by rw [List.foldlM_cons, bind_eq_ok]; exact ⟨_, hr, hst⟩, hin⟩

theorem InStep.pruneFilesystem (h : InStep fs ft) (hone : NamesOne fs (filesToPrune ft))
    (peerTable : PeerTable) : ∃ fs' ft' sent,
      pruneFilesystem fs ft peerTable = .ok (fs', ft', sent) ∧ InStep fs' ft' := by
  have hsub : (filesToPrune ft).Sublist (ft.entries.map FileTableEntry.path) :=
    List.filter_sublist.map _
  obtain ⟨st, hst, hin⟩ := h.prunePaths (ft.nodup_entries.sublist hsub)
    (fun p hp => FileTable.lookup_isSome.mpr (hsub.subset hp)) hone
  exact ⟨st.1, st.2, _, bind_eq_ok.mpr ⟨st, hst, rfl⟩, hin⟩

/-! ## Runs -/

/-- The invariant of a run in step. -/
structure RunInStep (s : TrackerRun) : Prop where
  current : s.tracker.fs ∈ s.masters
  trees : ∀ fs ∈ s.masters, MasterTree fs
  keys : ∀ p, (s.tracker.filetable.lookup p).isSome ↔ p ∈ filePaths s.tracker.fs

theorem RunInStep.inStep (h : RunInStep s) : InStep s.tracker.fs s.tracker.filetable :=
  ⟨h.trees _ h.current, h.keys⟩

/-- A step to a tracker in step. -/
theorem RunInStep.cons {tracker : Tracker} (h : RunInStep s)
    (hin : InStep tracker.fs tracker.filetable) :
    RunInStep ⟨tracker, tracker.fs :: s.masters⟩ where
  current := List.mem_cons_self
  trees fs hfs := by
    rcases List.mem_cons.mp hfs with rfl | hfs
    exacts [hin.tree, h.trees fs hfs]
  keys := hin.keys

theorem runInStep_initial : RunInStep .initial where
  current := List.mem_singleton.mpr rfl
  trees fs h := by
    rw [List.mem_singleton.mp h]
    exact masterTree_emptyFilesystem
  keys p := by
    show ((filetableAddFilesystem filetableNew emptyFilesystem 0 false fun _ => 0).1.lookup
      p).isSome ↔ p ∈ filePaths emptyFilesystem
    have hnot : ¬ IsFilePath emptyFilesystem.view.entries p := fun ⟨q, e, he, _⟩ =>
      Folder.not_mem_entries_of_isEmpty rfl _ he
    rw [lookup_filetableAddFilesystem_of_not wellFormed_emptyFilesystem.distinct hnot,
      FileTable.lookup_filetableNew]
    exact ⟨nofun, fun ⟨q, e, he, _⟩ => absurd he (Folder.not_mem_entries_of_isEmpty rfl _)⟩

theorem inStep_filetableRemovePeer (id : ℤ) (h : InStep fs ft) :
    InStep fs (filetableRemovePeer ft id) :=
  ⟨h.tree, fun p => by rw [lookup_filetableRemovePeer, Option.isSome_map, h.keys]⟩

theorem RunInStep.step (h : RunInStep s) (he : StaysInStep s ev) (ht : s.step ev = .ok t) :
    RunInStep t := by
  obtain ⟨tracker, sent, htr, rfl⟩ := TrackerRun.step_eq_ok.mp ht
  refine h.cons ?_
  obtain ⟨hlegal, hcond⟩ := he
  cases ev with
  | update id age edited =>
    obtain ⟨fs, hfs, rfl, -⟩ := updateNetwork_eq_ok.mp htr
    have hbase := (h.trees _ (s.base_mem h.current age)).distinct
    exact ⟨(h.trees _ h.current).patch hbase hlegal.1 hlegal.2 hcond.plain hfs,
      keys_eq_filePaths_patch (distinct_additions hlegal.1.distinct) (distinct_deletions hbase)
        (h.trees _ h.current).distinct hcond h.keys hfs⟩
  | got file chunk peer =>
    cases trackerStep htr with
    | got hpeer hft =>
      refine ⟨h.inStep.tree, fun p => ?_⟩
      obtain ⟨fte, owners, hlook, -, -, rfl⟩ := filetableSetThatPeerHasFileChunk_ok hft
      have hpath := FileTable.path_of_lookup hlook
      dsimp only
      split_ifs
      · exact h.keys p
      · rw [← h.keys, FileTable.lookup_overwrite_of_lookup hlook (by exact hpath)]
        split_ifs with hp
        · rw [hp, hlook]; simp
        · rfl
    | dropped => exact h.inStep
  | joins id => cases htr; exact h.inStep
  | requests id => cases htr; exact h.inStep
  | leaves id =>
    cases trackerStep htr with
    | left hpt hprune =>
      obtain ⟨fs', ft', sent', hprune', hin⟩ :=
        (inStep_filetableRemovePeer id h.inStep).pruneFilesystem hcond _
      rw [hprune] at hprune'
      cases hprune'
      exact hin

/-- **In step.** In a run whose messages all stay in step, the keys of the file table are the paths
of the files of the master, and pruning after a departure finds every path it removes. -/
theorem keys_eq_filePaths_of_staysInStep
    (h : Run TrackerRun.step StaysInStep .initial es s) :
    (∀ p, (s.tracker.filetable.lookup p).isSome ↔ p ∈ filePaths s.tracker.fs) ∧
    ∀ peerID, StaysInStep s (.leaves peerID) → ∀ peerTable, ∃ st, pruneFilesystem s.tracker.fs
      (filetableRemovePeer s.tracker.filetable peerID) peerTable = .ok st := by
  have hs : RunInStep s := h.invariant (fun _ _ _ hs he ht => hs.step he ht) runInStep_initial
  refine ⟨hs.keys, fun id hid peerTable => ?_⟩
  obtain ⟨fs', ft', sent, hprune, -⟩ :=
    (inStep_filetableRemovePeer id hs.inStep).pruneFilesystem hid.2 peerTable
  exact ⟨_, hprune⟩

open UpdateRun

theorem keys_eq_filePaths_after_first_update :
    ∃ s, Run TrackerRun.step StaysInStep .initial [.update 1 0 withFile] s ∧
      ∀ p, (s.tracker.filetable.lookup p).isSome ↔ p ∈ filePaths s.tracker.fs := by
  have hempty := wellFormed_emptyFilesystem
  have hplain : ∀ x ∈ (filesystemDiff emptyFilesystem withFile).1.view.entries,
      x.2.isFolder = 0 → x.2.IsPlain := by
    intro x hx hfile
    rw [(isDiff_additions hempty.distinct (by decide : withFile.WellFormed).distinct).entries_eq] at hx
    exact Folder.isPlain_of_test (by decide) x.1 x.2 hx.1 hfile
  have he : StaysInStep .initial (.update 1 0 withFile) :=
    ⟨⟨by decide, by decide⟩, hplain, fun q e he _ _ =>
      absurd he (Folder.not_mem_entries_of_isEmpty rfl _)⟩
  obtain ⟨s, hs, -⟩ := mastersWellFormed_initial.exists_step (e := .update 1 0 withFile)
    ⟨1, 0, withFile, rfl, by decide, noConflict_diff_self hempty (by decide)⟩
  have hrun : Run TrackerRun.step StaysInStep .initial [.update 1 0 withFile] s :=
    .cons he hs (.nil s)
  exact ⟨s, hrun, (keys_eq_filePaths_of_staysInStep hrun).1⟩

/-- The test of `IsLegal`. -/
def isLegalTest (_ : TrackerRun) : RunEvent → Bool
  | .update _ _ edited => decide (edited.WellFormed ∧ edited.Named)
  | _ => true

theorem isLegal_of_test (s : TrackerRun) (e : RunEvent) (h : isLegalTest s e = true) :
    IsLegal s e := by
  cases e with
  | update id age edited => exact (of_decide_eq_true h : edited.WellFormed ∧ edited.Named)
  | _ => trivial

/-- Peer 1 adds a folder and then a file inside; peer 2, which has seen the empty folder only,
deletes it. The tree loses the file, the table keeps it, and when its only owner leaves
`filesystem_remove_file_at_path` ends in `assert(0)`. -/
theorem prune_file_of_deleted_folder :
    ∃ s, Run TrackerRun.step IsLegal .initial
        [.joins 1, .joins 2, .update 1 0 withFolder, .update 1 0 withFile,
          .update 2 1 emptyFilesystem] s ∧
      s.tracker.fs.isEmpty = true ∧
      (s.tracker.filetable.lookup (.ofBytes [47, 100, 47, 121])).isSome = true ∧
      s.step (.leaves 1) = .error .removeFileAtPath := by
  have hrun : (runIf TrackerRun.step isLegalTest .initial
      [.joins 1, .joins 2, .update 1 0 withFolder, .update 1 0 withFile,
        .update 2 1 emptyFilesystem]).any (fun s => s.tracker.fs.isEmpty &&
        (s.tracker.filetable.lookup (.ofBytes [47, 100, 47, 121])).isSome &&
        failsWith .removeFileAtPath (s.step (.leaves 1))) = true := by decide +kernel
  obtain ⟨s, hs, hstep⟩ := (Option.any_eq_true _ _).mp hrun
  rw [Bool.and_eq_true, Bool.and_eq_true] at hstep
  exact ⟨s, run_of_runIf isLegal_of_test hs, hstep.1.1, hstep.1.2, failsWith_iff.mp hstep.2⟩

end DartSync
