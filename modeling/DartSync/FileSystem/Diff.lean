import DartSync.FileSystem.Subtract
import DartSync.Library.TreeMerge
import Mathlib.Order.BooleanAlgebra.Set

/-!
# What a diff lists

`filesystem_diff` works on two copies and subtracts from these, so the trees it compares stay as they
are. Each output lists the entries that only one of the trees has, and no folder that does not lead
to such an entry (`filesystemDiff_exact`); `filesystem_equals` compares the entries.
-/

namespace DartSync

variable {f s old new : Folder} {m : List Folder} {i j : ℕ} {p : List CString}

/-! ## Copies -/

/-- `file_copy` -/
def fileCopy (file : File) : File where
  name := file.name
  size := file.size
  lastModified := file.lastModified
  isFolder := file.isFolder

mutual

/-- `folder_copy`, also `filesystem_copy` on the root -/
def folderCopy : Folder → Folder
  | ⟨name, files, folders⟩ => ⟨name, files.map fileCopy, folderCopies folders⟩

/-- The loop over the folders. -/
def folderCopies : List Folder → List Folder
  | [] => []
  | folder :: rest => folderCopy folder :: folderCopies rest

end

theorem folderCopies_eq {ds : List Folder} : folderCopies ds = ds.map folderCopy := by
  induction ds with
  | nil => rfl
  | cons d ds ih => rw [folderCopies, ih, List.map_cons]

/-- A copy is the same tree. -/
theorem folderCopy_eq (f : Folder) : folderCopy f = f := by
  induction f using Folder.ind with
  | h f ih =>
    obtain ⟨name, files, folders⟩ := f
    have hfiles : files.map fileCopy = files := List.map_id files
    have hfolders : folders.map folderCopy = folders := by
      conv_rhs => rw [← List.map_id folders]
      exact List.map_congr_left ih
    rw [folderCopy, folderCopies_eq, hfiles, hfolders]

/-! ## File systems in memory -/

/-- `filesystem_copy` of the file system at the address `fs`: the memory, and the address of the
copy. -/
def filesystemCopyAt (m : List Folder) (fs : ℕ) : Except Abort (List Folder × ℕ) :=
  match m[fs]? with
  | none => .error .nullPointer
  | some root => .ok (m ++ [folderCopy root], m.length)

/-- `filesystem_minus_equals_diff` of the file systems at two addresses. -/
def filesystemMinusEqualsDiffAt (m : List Folder) (fs0 fs1 : ℕ)
    (equalsFunc : File → File → Bool) : Except Abort (List Folder) :=
  match m[fs0]?, m[fs1]? with
  | some root0, some root1 => .ok (m.set fs0 (filesystemMinusEqualsDiff root0 root1 equalsFunc))
  | _, _ => .error .nullPointer

/-- `filesystem_diff_helper`: the memory, and the addresses of the additions and the deletions. -/
def filesystemDiffHelperAt (m : List Folder) (old new : ℕ) (equalsFunc : File → File → Bool) :
    Except Abort (List Folder × ℕ × ℕ) := do
  let (m, additions) ← filesystemCopyAt m old
  let (m, deletions) ← filesystemCopyAt m new
  let m ← filesystemMinusEqualsDiffAt m deletions additions equalsFunc
  let m ← filesystemMinusEqualsDiffAt m additions new equalsFunc
  return (m, deletions, additions)

/-- `filesystem_diff` of the file systems at two addresses. -/
def filesystemDiffAt (m : List Folder) (old new : ℕ) : Except Abort (List Folder × ℕ × ℕ) :=
  filesystemDiffHelperAt m old new fileEquals

/-- The two outputs are new; what has been in memory is left as it is, the trees that are compared
among it. -/
theorem filesystemDiffAt_eq (hi : m[i]? = some old) (hj : m[j]? = some new) :
    filesystemDiffAt m i j =
      .ok (m ++ [(filesystemDiff old new).2, (filesystemDiff old new).1], m.length + 1, m.length) := by
  obtain ⟨hlti, -⟩ := List.getElem?_eq_some_iff.mp hi
  obtain ⟨hltj, -⟩ := List.getElem?_eq_some_iff.mp hj
  have hold : filesystemCopyAt m i = .ok (m ++ [old], m.length) := by
    unfold filesystemCopyAt
    rw [hi]
    dsimp only
    rw [folderCopy_eq]
  have hnew : filesystemCopyAt (m ++ [old]) j = .ok (m ++ [old, new], m.length + 1) := by
    unfold filesystemCopyAt
    rw [List.getElem?_append_left hltj, hj]
    dsimp only
    rw [folderCopy_eq, List.append_assoc, List.length_append]
    rfl
  -- the copies lie behind what has been in memory, and the copy of `old` is still whole when it is
  -- subtracted
  have hadd : filesystemMinusEqualsDiffAt (m ++ [old, new]) (m.length + 1) m.length fileEquals =
      .ok (m ++ [old, (filesystemDiff old new).1]) := by
    unfold filesystemMinusEqualsDiffAt
    rw [List.getElem?_append_right (Nat.le_add_right _ 1), List.getElem?_append_right le_rfl,
      Nat.add_sub_cancel_left, Nat.sub_self]
    dsimp only [List.getElem?_cons_zero, List.getElem?_cons_succ]
    rw [List.set_append_right _ _ (Nat.le_add_right _ 1), Nat.add_sub_cancel_left]
    rfl
  have hdel : filesystemMinusEqualsDiffAt (m ++ [old, (filesystemDiff old new).1]) m.length j
      fileEquals = .ok (m ++ [(filesystemDiff old new).2, (filesystemDiff old new).1]) := by
    unfold filesystemMinusEqualsDiffAt
    rw [List.getElem?_append_right le_rfl, List.getElem?_append_left hltj, hj, Nat.sub_self]
    dsimp only [List.getElem?_cons_zero]
    rw [List.set_append_right _ _ le_rfl, Nat.sub_self]
    rfl
  unfold filesystemDiffAt filesystemDiffHelperAt
  rw [hold]
  show (filesystemCopyAt _ _ >>= _) = _
  rw [hnew]
  show (filesystemMinusEqualsDiffAt _ _ _ _ >>= _) = _
  rw [hadd]
  show (filesystemMinusEqualsDiffAt _ _ _ _ >>= _) = _
  rw [hdel]
  rfl

/-! ## Folders of a diff -/

/-- What is left of a well-formed tree is empty or has an entry. -/
theorem exists_entry_folderSubtract (hf : f.WellFormed) (hs : s.WellFormed)
    (hne : ¬ (folderSubtract fileEquals f s).isEmpty = true) :
    ∃ x, x ∈ (folderSubtract fileEquals f s).view.entries := by
  induction f using Folder.ind generalizing s with
  | h f ih =>
    have hchild (n : CString) : (folderSubtract fileEquals f s).child n =
        subtractChild fileEquals (f.child n) (s.child n) :=
      child_folderSubtract hf.distinct hs.distinct
    rw [Folder.isEmpty_iff, not_and_or] at hne
    rcases hne with hfiles | hfolders
    · obtain ⟨e, he⟩ := List.exists_mem_of_ne_nil _ hfiles
      exact ⟨([], e), Folder.mem_entries_nil.mpr he⟩
    · obtain ⟨d, hd⟩ := List.exists_mem_of_ne_nil _ hfolders
      have hd := Folder.child_of_mem hf.distinct.subtract hd
      have hd' := hchild d.name
      rw [hd] at hd'
      cases ha : f.child d.name with
      | none => rw [ha] at hd'; cases hd'
      | some c =>
        cases hb : s.child d.name with
        | none =>
          -- a folder that `s` lacks has a marker that `s` lacks
          refine ⟨([], marker d.name), ?_⟩
          rw [entries_folderSubtract hf.distinct hs.distinct]
          have hmark := hf.view.mark_iff [] d.name
          have hmark' := hs.view.mark_iff [] d.name
          rw [List.nil_append, Folder.mem_nodes_singleton, ← Folder.child_isSome] at hmark hmark'
          refine ⟨hmark.mpr (by rw [ha]; rfl), fun h => ?_⟩
          have := hmark'.mp h
          rw [hb] at this
          cases this
        | some c' =>
          rw [ha, hb] at hd'
          unfold subtractChild at hd'
          dsimp only at hd'
          split_ifs at hd' with hempty
          obtain ⟨⟨q, e⟩, hx⟩ := ih c (Folder.child_mem ha) (hf.of_mem (Folder.child_mem ha))
            (hs.of_mem (Folder.child_mem hb)) hempty
          exact ⟨(d.name :: q, e), Folder.mem_entries_cons.mpr
            ⟨d, hd, by rw [Option.some.inj hd']; exact hx⟩⟩

/-- `folder_subtract` drops the folders that it empties. -/
theorem trim_folderSubtract (hf : f.WellFormed) (hs : s.WellFormed) :
    (folderSubtract fileEquals f s).view.Trim s.view := by
  intro p
  induction p generalizing f s with
  | nil => exact fun _ _ h => absurd rfl h
  | cons n p ih =>
    intro hp hps _
    obtain ⟨d, hd, hp⟩ := Folder.mem_nodes_cons.mp hp
    obtain ⟨c', hc', hps⟩ := Folder.mem_nodes_cons.mp hps
    have hd' := hd
    rw [child_folderSubtract hf.distinct hs.distinct, hc'] at hd'
    cases hc : f.child n with
    | none => rw [hc] at hd'; cases hd'
    | some c =>
      rw [hc] at hd'
      unfold subtractChild at hd'
      dsimp only at hd'
      split_ifs at hd' with hempty
      have hcf := hf.of_mem (Folder.child_mem hc)
      have hcs := hs.of_mem (Folder.child_mem hc')
      obtain ⟨r, e, he⟩ : ∃ r e, (p ++ r, e) ∈ d.view.entries := by
        rw [← Option.some.inj hd'] at hp ⊢
        by_cases hnil : p = []
        · subst hnil
          obtain ⟨⟨r, e⟩, he⟩ := exists_entry_folderSubtract hcf hcs hempty
          exact ⟨r, e, he⟩
        · exact ih hcf hcs hp hps hnil
      exact ⟨r, e, Folder.mem_entries_cons.mpr ⟨d, hd, he⟩⟩

/-! ## Exact differences -/

/-- `d` lists the entries that `t` has and `s` lacks, and the folders whose marker or some entry
below them is listed. -/
structure Folder.ExactDiff (d t s : Folder) : Prop where
  distinct : d.Distinct
  entries_eq : d.view.entries = t.view.entries \ s.view.entries
  mem_nodes : ∀ q n, q ++ [n] ∈ d.view.nodes ↔
    (q, marker n) ∈ d.view.entries ∨ ∃ r e, (q ++ [n] ++ r, e) ∈ d.view.entries

theorem exactDiff_folderSubtract (hf : f.WellFormed) (hs : s.WellFormed) :
    (folderSubtract fileEquals f s).ExactDiff f s := by
  have hdiff := isDiff_folderSubtract hf.distinct hs.distinct
  refine ⟨hf.distinct.subtract, hdiff.entries_eq, fun q n => ⟨fun hn => ?_, ?_⟩⟩
  · by_cases hns : q ++ [n] ∈ s.view.nodes
    · exact Or.inr (trim_folderSubtract hf hs _ hn hns (by simp))
    · refine Or.inl ?_
      rw [hdiff.entries_eq]
      exact ⟨(hf.view.mark_iff q n).mpr (hdiff.nodes_le hn),
        fun h => hns ((hs.view.mark_iff q n).mp h)⟩
  · rintro (hm | ⟨r, e, he⟩)
    · rw [hdiff.entries_eq] at hm
      exact hdiff.nodes_ge ⟨(hf.view.mark_iff q n).mp hm.1,
        fun h => hm.2 ((hs.view.mark_iff q n).mpr h)⟩
    · exact hdiff.prefix r (hdiff.holds _ e he)

/-- A difference is empty when nothing is listed. -/
theorem isEmpty_folderSubtract (hf : f.WellFormed) (hs : s.WellFormed) :
    (folderSubtract fileEquals f s).isEmpty = true ↔ f.view.entries ⊆ s.view.entries := by
  rw [← Set.sdiff_eq_empty, ← entries_folderSubtract hf.distinct hs.distinct]
  constructor
  · exact fun h => Set.eq_empty_of_forall_notMem (Folder.not_mem_entries_of_isEmpty h)
  · intro h
    by_contra hne
    obtain ⟨x, hx⟩ := exists_entry_folderSubtract hf hs hne
    rw [h] at hx
    exact hx

/-- `filesystem_equals` compares the entries. -/
theorem filesystemEquals_iff (hold : old.WellFormed) (hnew : new.WellFormed) :
    filesystemEquals old new = true ↔ old.view.entries = new.view.entries := by
  have hadd : filesystemIsEmpty (filesystemDiff old new).1 = true ↔ _ :=
    isEmpty_folderSubtract hnew hold
  have hdel : filesystemIsEmpty (filesystemDiff old new).2 = true ↔ _ :=
    isEmpty_folderSubtract hold hnew
  unfold filesystemEquals
  rw [Bool.and_eq_true, hadd, hdel, Set.Subset.antisymm_iff, and_comm]

/-- **Diffs.** `filesystem_diff` leaves all trees in memory as they are, its outputs are the exact
differences of the two trees, and `filesystem_equals` compares their entries. -/
theorem filesystemDiff_exact (hold : old.WellFormed) (hnew : new.WellFormed)
    (hi : m[i]? = some old) (hj : m[j]? = some new) :
    ∃ additions deletions, filesystemDiffAt m i j =
        .ok (m ++ [deletions, additions], m.length + 1, m.length) ∧
      additions.ExactDiff new old ∧ deletions.ExactDiff old new ∧
      (filesystemEquals old new = true ↔ old.view.entries = new.view.entries) :=
  ⟨_, _, filesystemDiffAt_eq hi hj, exactDiff_folderSubtract hnew hold,
    exactDiff_folderSubtract hold hnew, filesystemEquals_iff hold hnew⟩

/-- The diff of a tree in which a folder gives way to a file of its name. -/
theorem filesystemDiff_exact_folder_to_file :
    let a := CString.ofBytes [97]
    let old : Folder := ⟨.empty, [marker a], [⟨a, [⟨a, 2, 2, 0⟩], []⟩]⟩
    let new : Folder := ⟨.empty, [⟨a, 1, 1, 0⟩], []⟩
    ∃ additions deletions, filesystemDiffAt [old, new] 0 1 =
        .ok ([old, new, deletions, additions], 3, 2) ∧
      additions.ExactDiff new old ∧ deletions.ExactDiff old new ∧
      (filesystemEquals old new = true ↔ old.view.entries = new.view.entries) :=
  filesystemDiff_exact (by decide) (by decide) rfl rfl

end DartSync
