import DartSync.Client.Steps

/-!
# Adopting a master

`UpdateLocalFilesystem` first takes the paths of the deletions out of the file table and then asks
the table for every path of the additions. A file that the client has in another version than the
master is in both, and the assertion of `filetable_enqueue_work_for_filesystem` fails.
-/

namespace DartSync

variable {c : Client} {fs additions deletions newFs : Folder} {p : CString}

theorem not_isFilePath_of_checkFileSystem (hfs : fs.Distinct) (h : ¬ checkFileSystem fs = true) :
    ¬ IsFilePath fs.view.entries p := by
  rintro ⟨q, e, he, -, -⟩
  exact h ((checkFileSystem_iff_entries hfs).mpr ⟨(q, e), he⟩)

theorem lookup_adoptDeletions (hdel : deletions.Distinct) :
    ((adoptDeletions c deletions).ft.lookup p).isSome ↔
      (c.ft.lookup p).isSome ∧ ¬ IsFilePath deletions.view.entries p := by
  rw [adoptDeletions_eq]
  simp only [Option.isSome_iff_exists, lookup_filetableRemoveFilesystem hdel, exists_and_right]

theorem lookup_foldl_prepareAddition (items : List IteratorItem) (st : Directory × FileTable) :
    ((items.foldl prepareAddition st).2.lookup p).isSome ↔ (st.2.lookup p).isSome := by
  induction items generalizing st with
  | nil => exact Iff.rfl
  | cons item items ih =>
    rw [List.foldl_cons, ih]
    unfold prepareAddition
    split_ifs
    · exact Iff.rfl
    · rw [lookup_filetableSetChunkyfile]
      split_ifs <;> simp

/-- The additions go through when every file among them has an entry. -/
theorem adoptAdditions_isOk (hadd : additions.Distinct) :
    (∃ r, adoptAdditions c additions = .ok r) ↔
      ∀ p, IsFilePath additions.view.entries p → (c.ft.lookup p).isSome := by
  unfold adoptAdditions
  split_ifs with h
  · simp only [← lookup_foldl_prepareAddition (filesystemIteratorRelative false additions)
      (c.dir, c.ft)]
    rw [← filetableEnqueueWorkForFilesystem_isOk c.jobs.rand hadd]
    constructor
    · rintro ⟨r, hr⟩
      obtain ⟨st, hst, -⟩ := bind_eq_ok.mp hr
      exact ⟨st, hst⟩
    · rintro ⟨st, hst⟩
      exact ⟨_, bind_eq_ok.mpr ⟨st, hst, rfl⟩⟩
  · exact iff_of_true ⟨c, rfl⟩ fun p hp => absurd hp (not_isFilePath_of_checkFileSystem hadd h)

theorem updateLocalFilesystem_isOk_iff : (∃ r, updateLocalFilesystem c newFs = .ok r) ↔
    ∃ r, adoptAdditions (adoptDeletions c (filesystemDiff c.curFs newFs).2)
      (filesystemDiff c.curFs newFs).1 = .ok r := by
  unfold updateLocalFilesystem
  constructor
  · rintro ⟨r, hr⟩
    obtain ⟨c', hc', -⟩ := bind_eq_ok.mp hr
    exact ⟨c', hc'⟩
  · rintro ⟨c', hc'⟩
    exact ⟨_, bind_eq_ok.mpr ⟨c', hc', rfl⟩⟩

/-- **Adoption.** A client that has a table with exactly the files of the master adopts the master
without failing an assertion exactly when no path is that of a file it has and the master lacks, in
that version, and of a file the master has and it lacks. -/
theorem updateLocalFilesystem_ok_iff (c : Client) (master : Folder) (hlocal : c.curFs.WellFormed)
    (hmaster : master.WellFormed) (hft : ∀ p, (c.ft.lookup p).isSome ↔ p ∈ filePaths master) :
    (∃ r, updateLocalFilesystem c master = .ok r) ↔
      ∀ p, ¬ (IsFilePath (c.curFs.view.entries \ master.view.entries) p ∧
        IsFilePath (master.view.entries \ c.curFs.view.entries) p) := by
  have hadd := isDiff_additions hlocal.distinct hmaster.distinct
  have hdel := isDiff_deletions hlocal.distinct hmaster.distinct
  rw [updateLocalFilesystem_isOk_iff, adoptAdditions_isOk (distinct_additions hmaster.distinct)]
  simp only [lookup_adoptDeletions (distinct_deletions hlocal.distinct), hadd.entries_eq,
    hdel.entries_eq, hft]
  refine forall_congr' fun p => ⟨fun h hp => (h hp.2).2 hp.1, fun h ha => ⟨?_, fun hd => h ⟨hd, ha⟩⟩⟩
  obtain ⟨q, e, he, hplain, rfl⟩ := ha
  exact ⟨q, e, he.1, hplain.1, rfl⟩

/-! ## A changed file -/

namespace AdoptExample

/-- A master with a file `a` of one byte. -/
def master : Folder := ⟨.empty, [⟨.ofBytes [97], 1, 2, 0⟩], []⟩

/-- The table that a tracker has for it. -/
def table : FileTable := (filetableAddFilesystem filetableNew master 1 false fun _ => 0).1

/-- A directory with an older version of the file. -/
def older : Directory := Directory.empty.insert [.ofBytes [97]] (.file [1] 1) (by decide)

theorem table_keys (p : CString) : (table.lookup p).isSome ↔ p ∈ filePaths master := by
  have hwf : master.WellFormed := by decide
  unfold table
  rw [lookup_filetableAddFilesystem_isSome hwf.distinct, FileTable.lookup_filetableNew,
    isFilePath_iff_mem_filePaths (Folder.isPlain_of_test (by decide))]
  simp

end AdoptExample

open AdoptExample

theorem updateLocalFilesystem_ok_iff_empty :
    (∃ r, updateLocalFilesystem (.initial .empty table 0 fun _ => 0) master = .ok r) ↔
      ∀ p, ¬ (IsFilePath (Directory.empty.filesystemNew.view.entries \ master.view.entries) p ∧
        IsFilePath (master.view.entries \ Directory.empty.filesystemNew.view.entries) p) :=
  updateLocalFilesystem_ok_iff (.initial .empty table 0 fun _ => 0) master
    (Directory.wellFormed_filesystemNew _) (by decide) table_keys

/-- A client with an older version of the file fails the assertion. -/
theorem adopt_changed_file :
    (older.filesystemNew.WellFormed ∧ master.WellFormed ∧
      ∀ p, (table.lookup p).isSome ↔ p ∈ filePaths master) ∧
      updateLocalFilesystem (.initial older table 0 fun _ => 0) master =
        .error .entryNotInFiletable := by
  refine ⟨⟨Directory.wellFormed_filesystemNew _, by decide, table_keys⟩, ?_⟩
  have h : failsWith .entryNotInFiletable
      (updateLocalFilesystem (.initial older table 0 fun _ => 0) master) = true := by
    decide +kernel
  exact failsWith_iff.mp h

end DartSync
