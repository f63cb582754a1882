import DartSync.FileSystem.Diff
import DartSync.FileSystem.Patch

/-!
# Concurrent diffs

Two clients edit the same tree and each diff reaches the other client and the tracker, in different
orders. A folder that one client deletes takes all that lies below it along; what the other client
adds there in the meantime is lost in one order, and in the other it is added into a folder that is
not there.
-/

namespace DartSync

open TreeSet

variable {base a b f s fs r : Folder} {p : List CString}

/-- `filesystem_minus_equals` and `filesystem_plus_equals` with the diff from `old` to `new`. -/
def applyDiff (fs old new : Folder) : Except Abort Folder :=
  patch fs (filesystemDiff old new).1 (filesystemDiff old new).2

/-- The diffs of `a` and of `b`, in this order, applied to the tree that both were edited from. -/
def applyBoth (base a b : Folder) : Except Abort Folder := do
  let fs ← applyDiff base base a
  applyDiff fs base b

/-- Both orders fail no assertion and end with the same entries, and so with the same tree. -/
def Converges (base a b : Folder) : Prop :=
  ∃ r r', applyBoth base a b = .ok r ∧ applyBoth base b a = .ok r' ∧
    r.view.entries = r'.view.entries ∧ r.SameTree r'

/-- `b` adds no entry in or below a folder of `base` that `a` has deleted. -/
def Folder.Spares (base a b : Folder) : Prop := TreeSet.Spares base.view a.view b.view

/-! ## The second diff -/

section Second

variable (hbase : base.WellFormed) (ha : a.WellFormed) (hb : b.WellFormed)

include hbase ha

/-- The first diff gives the edited tree. -/
theorem applyDiff_self : ∃ r, applyDiff base base a = .ok r ∧ r.WellFormed ∧ r.view = a.view := by
  obtain ⟨r, hr, hwf⟩ := (patch_ok_iff hbase ha hbase).mpr (noConflict_diff_self hbase ha)
  refine ⟨r, hr, hwf, ?_⟩
  rw [view_patch hbase.distinct (distinct_additions ha.distinct)
    (distinct_deletions hbase.distinct) hr]
  exact patch_eq hbase.view ha.view (isDiff_deletions hbase.distinct ha.distinct)
    (isDiff_additions hbase.distinct ha.distinct)

include hb

/-- Both diffs can be applied in this order exactly when the second adds nothing below a folder that
the first deletes. -/
theorem applyBoth_isOk_iff : (∃ r, applyBoth base a b = .ok r) ↔ base.Spares a b := by
  obtain ⟨fs, hfs, hwf, hview⟩ := applyDiff_self hbase ha
  have hadd := isDiff_additions hbase.distinct hb.distinct
  have hdel := isDiff_deletions hbase.distinct hb.distinct
  have hdist : (filesystemDiff base b).2.Distinct := distinct_deletions hbase.distinct
  have hok := patch_isOk_iff hwf.distinct (distinct_additions hb.distinct) hdist
    (hb.view.uniqueMarks hadd)
  rw [hview, canAdd_other_iff hbase.view ha.view hb.view hdel hadd
    (trim_folderSubtract hb hbase)] at hok
  unfold applyBoth Folder.Spares
  rw [hfs]
  exact hok

/-- What both diffs lead to. -/
theorem applyBoth_view (hr : applyBoth base a b = .ok r) : r.Distinct ∧
    r.view = (a.view.remove fileMarking (filesystemDiff base b).2.view).union
      (filesystemDiff base b).1.view := by
  obtain ⟨fs, hfs, hwf, hview⟩ := applyDiff_self hbase ha
  obtain ⟨fs', hfs', hr⟩ := bind_eq_ok.mp hr
  cases hfs.symm.trans hfs'
  refine ⟨hwf.distinct.patch hr, ?_⟩
  rw [← hview]
  exact view_patch hwf.distinct (distinct_additions hb.distinct)
    (distinct_deletions hbase.distinct) hr

/-- **Convergence.** The two diffs can be applied in both orders, with the same outcome, exactly when
neither edit adds an entry in or below a folder that the other deletes. -/
theorem converges_iff : Converges base a b ↔ base.Spares a b ∧ base.Spares b a := by
  have hokA := applyBoth_isOk_iff hbase ha hb
  have hokB := applyBoth_isOk_iff hbase hb ha
  constructor
  · rintro ⟨r, r', hr, hr', -⟩
    exact ⟨hokA.mp ⟨r, hr⟩, hokB.mp ⟨r', hr'⟩⟩
  · rintro ⟨hsa, hsb⟩
    obtain ⟨r, hr⟩ := hokA.mpr hsa
    obtain ⟨r', hr'⟩ := hokB.mpr hsb
    obtain ⟨hdist, hview⟩ := applyBoth_view hbase ha hb hr
    obtain ⟨hdist', hview'⟩ := applyBoth_view hbase hb ha hr'
    have hdelA := isDiff_deletions hbase.distinct ha.distinct
    have haddA := isDiff_additions hbase.distinct ha.distinct
    have hdelB := isDiff_deletions hbase.distinct hb.distinct
    have haddB := isDiff_additions hbase.distinct hb.distinct
    have hcanA := (canAdd_other_iff hbase.view hb.view ha.view hdelA haddA
      (trim_folderSubtract ha hbase)).mpr hsb
    have hcanB := (canAdd_other_iff hbase.view ha.view hb.view hdelB haddB
      (trim_folderSubtract hb hbase)).mpr hsa
    have hsame : r.view = r'.view := by
      rw [hview, hview']
      exact merge_comm hbase.view ha.view hb.view hdelA haddA hdelB haddB hcanA hcanB hsa hsb
    exact ⟨r, r', hr, hr', congrArg TreeSet.entries hsame,
      Folder.sameTree_of_view_eq hdist hdist' hsame⟩

end Second

/-! ## A folder deleted by one and filled by the other -/

namespace ConvergeExample

/-- A folder `d` with these files. -/
def withFiles (files : List File) : Folder :=
  ⟨.empty, [marker (.ofBytes [100])], [⟨.ofBytes [100], files, []⟩]⟩

/-- Two files `x` and `y`. -/
def x : File := ⟨.ofBytes [120], 1, 1, 0⟩

def y : File := ⟨.ofBytes [121], 2, 2, 0⟩

theorem nodes_withFiles (files files' : List File) :
    (withFiles files).view.nodes ⊆ (withFiles files').view.nodes := by
  intro p hp
  cases p with
  | nil => exact Folder.mem_nodes_nil
  | cons n p =>
    obtain ⟨d, hd, hrest⟩ := Folder.mem_nodes_cons.mp hp
    obtain rfl : d = ⟨.ofBytes [100], files, []⟩ := List.mem_singleton.mp (Folder.child_mem hd)
    obtain rfl : CString.ofBytes [100] = n := Folder.child_name hd
    have hchild : (withFiles files').child (.ofBytes [100]) =
        some ⟨.ofBytes [100], files', []⟩ := rfl
    refine Folder.mem_nodes_cons.mpr ⟨_, hchild, ?_⟩
    cases p with
    | nil => exact Folder.mem_nodes_nil
    | cons m p =>
      obtain ⟨c, hc, -⟩ := Folder.mem_nodes_cons.mp hrest
      exact absurd (Folder.child_mem hc) List.not_mem_nil

theorem spares_withFiles (files : List File) (b : Folder) : (withFiles []).Spares (withFiles files) b :=
  fun _ _ _ hp hnot => absurd (nodes_withFiles [] files hp) hnot

end ConvergeExample

open ConvergeExample

/-- Two clients add different files to one folder. -/
theorem converges_two_files : Converges (withFiles []) (withFiles [x]) (withFiles [y]) :=
  (converges_iff (by decide) (by decide) (by decide)).mpr
    ⟨spares_withFiles [x] _, spares_withFiles [y] _⟩

/-- One client adds a file to a folder and the other deletes the folder: `assert(found)` fails in
one of the two orders. -/
theorem not_converges_deleted_folder :
    (withFiles []).WellFormed ∧ (withFiles [x]).WellFormed ∧ emptyFilesystem.WellFormed ∧
      applyBoth (withFiles []) emptyFilesystem (withFiles [x]) = .error .found ∧
      ¬ Converges (withFiles []) (withFiles [x]) emptyFilesystem := by
  have hfound : applyBoth (withFiles []) emptyFilesystem (withFiles [x]) = .error .found :=
    failsWith_iff.mp (by decide +kernel)
  refine ⟨by decide, by decide, by decide, hfound, ?_⟩
  rintro ⟨r, r', -, hr', -⟩
  rw [hfound] at hr'
  cases hr'

end DartSync
