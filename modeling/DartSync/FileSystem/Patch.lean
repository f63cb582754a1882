import DartSync.FileSystem.Add
import DartSync.FileSystem.Remove

/-!
# Diff and patch

An update travels as the two outputs of `filesystem_diff`. Whoever receives it runs
`filesystem_minus_equals` with the deletions and then `filesystem_plus_equals` with the additions.
`patch_sameTree`: on the tree the update was made from, the result is the edited tree.
`patch_ok_iff`: on any other tree the two calls fail no assertion and leave a well-formed tree
exactly when the update does not conflict with it. `patch_again`: applied once more, the update
changes nothing.
-/

namespace DartSync

open TreeSet

/-- `filesystem_minus_equals(fs, deletions); filesystem_plus_equals(fs, additions)` -/
def patch (fs additions deletions : Folder) : Except Abort Folder :=
  filesystemPlusEquals (filesystemMinusEquals fs deletions) additions

/-- The update `additions`, `deletions` does not conflict with the tree `fs`. -/
def Folder.NoConflict (fs additions deletions : Folder) : Prop :=
  TreeSet.NoConflict fileMarking fs.view additions.view deletions.view

variable {fs old new additions deletions r : Folder}

theorem Folder.Distinct.patch (hfs : fs.Distinct)
    (hr : patch fs additions deletions = .ok r) : r.Distinct :=
  hfs.remove.add hr

/-- The patched tree, as sets. -/
theorem view_patch (hfs : fs.Distinct) (hadd : additions.Distinct) (hdel : deletions.Distinct)
    (hr : patch fs additions deletions = .ok r) :
    r.view = (fs.view.remove fileMarking deletions.view).union additions.view := by
  rw [view_folderAdd hfs.remove hadd hr, view_folderRemove hfs hdel]

/-- The patch fails no assertion exactly when the additions can be added to what is left. -/
theorem patch_isOk_iff (hfs : fs.Distinct) (hadd : additions.Distinct) (hdel : deletions.Distinct)
    (hm : additions.view.UniqueMarks fileMarking) :
    (∃ r, patch fs additions deletions = .ok r) ↔
      CanAdd fileMarking (fs.view.remove fileMarking deletions.view) additions.view := by
  rw [← view_folderRemove hfs hdel]
  exact folderAdd_ok_iff hfs.remove hadd hm

section Diff

variable (hold : old.WellFormed) (hnew : new.WellFormed)

include hold hnew

/-- **Stale updates.** The update from `old` to `new`, applied to a well-formed tree, fails no
assertion and leaves a well-formed tree exactly when it does not conflict with that tree. -/
theorem patch_ok_iff (hfs : fs.WellFormed) :
    (∃ r, patch fs (filesystemDiff old new).1 (filesystemDiff old new).2 = .ok r ∧ r.WellFormed) ↔
      fs.NoConflict (filesystemDiff old new).1 (filesystemDiff old new).2 := by
  have hadd : (filesystemDiff old new).1.Distinct := distinct_additions hnew.distinct
  have hdel : (filesystemDiff old new).2.Distinct := distinct_deletions hold.distinct
  have ha := isDiff_additions hold.distinct hnew.distinct
  have hd := isDiff_deletions hold.distinct hnew.distinct
  have hok := patch_isOk_iff hfs.distinct hadd hdel (hnew.view.uniqueMarks ha)
  unfold Folder.NoConflict
  rw [← noConflict_iff hold.view hnew.view hd ha hfs.view]
  constructor
  · rintro ⟨r, hr, hwf⟩
    refine ⟨hok.mp ⟨r, hr⟩, ?_⟩
    rw [← view_patch hfs.distinct hadd hdel hr]
    exact hwf.view
  · rintro ⟨hcan, hwf⟩
    obtain ⟨r, hr⟩ := hok.mpr hcan
    refine ⟨r, hr, Folder.wellFormed_of_view (hfs.distinct.patch hr) ?_⟩
    rw [view_patch hfs.distinct hadd hdel hr]
    exact hwf

theorem noConflict_diff_self : old.NoConflict (filesystemDiff old new).1 (filesystemDiff old new).2 :=
  noConflict_self hold.view hnew.view (isDiff_deletions hold.distinct hnew.distinct)
    (isDiff_additions hold.distinct hnew.distinct)

/-- **Round trip.** Removing the deletions of a diff from the old tree and adding its additions
fails no assertion and gives the new tree, up to the order inside each folder. -/
theorem patch_sameTree : ∃ r, filesystemPlusEquals (filesystemMinusEquals old
    (filesystemDiff old new).2) (filesystemDiff old new).1 = .ok r ∧ r.SameTree new := by
  have hadd : (filesystemDiff old new).1.Distinct := distinct_additions hnew.distinct
  have hdel : (filesystemDiff old new).2.Distinct := distinct_deletions hold.distinct
  obtain ⟨r, hr, hwf⟩ := (patch_ok_iff hold hnew hold).mpr (noConflict_diff_self hold hnew)
  refine ⟨r, hr, Folder.sameTree_of_view_eq hwf.distinct hnew.distinct ?_⟩
  rw [view_patch hold.distinct hadd hdel hr]
  exact patch_eq hold.view hnew.view (isDiff_deletions hold.distinct hnew.distinct)
    (isDiff_additions hold.distinct hnew.distinct)

/-- **Idempotence.** Where the update from `old` to `new` could be applied, to a well-formed tree of
any kind, it can be applied once more and leaves the tree as it is. -/
theorem patch_again (hfs : fs.WellFormed)
    (hr : patch fs (filesystemDiff old new).1 (filesystemDiff old new).2 = .ok r) :
    ∃ r', patch r (filesystemDiff old new).1 (filesystemDiff old new).2 = .ok r' ∧
      r'.view = r.view ∧ r'.SameTree r := by
  have hadd : (filesystemDiff old new).1.Distinct := distinct_additions hnew.distinct
  have hdel : (filesystemDiff old new).2.Distinct := distinct_deletions hold.distinct
  have ha := isDiff_additions hold.distinct hnew.distinct
  have hd := isDiff_deletions hold.distinct hnew.distinct
  have hm := hnew.view.uniqueMarks ha
  have hdist := hfs.distinct.patch hr
  have hview := view_patch hfs.distinct hadd hdel hr
  have hcan := (patch_isOk_iff hfs.distinct hadd hdel hm).mp ⟨r, hr⟩
  obtain ⟨r', hr'⟩ : ∃ r', patch r (filesystemDiff old new).1 (filesystemDiff old new).2 = .ok r' := by
    rw [patch_isOk_iff hdist hadd hdel hm, hview, remove_of_disjoint (disjoint_patch hd ha)]
    exact hcan.again
  have hsame : r'.view = r.view := by
    rw [view_patch hdist hadd hdel hr', hview]
    exact patch_patch hd ha
  exact ⟨r', hr', hsame, Folder.sameTree_of_view_eq (hdist.patch hr') hdist hsame⟩

end Diff

/-- The round trip where a file gives way to a folder of its name. -/
theorem patch_sameTree_file_to_folder :
    let a := CString.ofBytes [97]
    let old : Folder := ⟨.empty, [⟨a, 1, 1, 0⟩], []⟩
    let new : Folder := ⟨.empty, [marker a], [⟨a, [⟨a, 2, 2, 0⟩], []⟩]⟩
    ∃ r, filesystemPlusEquals (filesystemMinusEquals old (filesystemDiff old new).2)
      (filesystemDiff old new).1 = .ok r ∧ r.SameTree new :=
  patch_sameTree (by decide) (by decide)

namespace PatchExample

/-- A tree with one file `a` of this size. -/
def withFile (size : UInt64) : Folder := ⟨.empty, [⟨.ofBytes [97], size, 0, 0⟩], []⟩

end PatchExample

open PatchExample

/-- The deleted version is not there, and the file gets a second entry, but not a third. -/
theorem patch_again_two_entries : ∃ r r',
    patch (withFile 3) (filesystemDiff (withFile 1) (withFile 2)).1
        (filesystemDiff (withFile 1) (withFile 2)).2 = .ok r ∧
      r.files.length = 2 ∧
      patch r (filesystemDiff (withFile 1) (withFile 2)).1
        (filesystemDiff (withFile 1) (withFile 2)).2 = .ok r' ∧
      r'.view = r.view ∧ r'.SameTree r := by
  have hr : ∃ r, patch (withFile 3) (filesystemDiff (withFile 1) (withFile 2)).1
      (filesystemDiff (withFile 1) (withFile 2)).2 = .ok r ∧ r.files.length = 2 :=
    ⟨_, rfl, rfl⟩
  obtain ⟨r, hr, hlen⟩ := hr
  obtain ⟨r', hr', hsame⟩ := patch_again (by decide) (by decide) (by decide) hr
  exact ⟨r, r', hr, hlen, hr', hsame⟩

end DartSync
