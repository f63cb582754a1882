import DartSync.FileSystem.Order
import DartSync.FileSystem.RemovePath

/-!
# Splitting paths

`get_path_components` overwrites the separators with NULs and walks over what is left. A character
that no NUL precedes is passed by no branch of its loop, so a path that does not start with a
separator keeps it running for ever (`componentLoop_relative`); the components of all others are the
runs between the separators (`splitsPath_iff`). The paths that the iterators yield are of this kind.
-/

namespace DartSync

variable {path : CString} {l : List UInt8} {fuel : ℕ} {b : UInt8} {cs : List CString}

/-- The maximal runs of characters that are no separators. -/
def runs (l : List UInt8) : List (List UInt8) := (l.splitOn 47).filter fun run => run ≠ []

theorem runs_slash : runs (47 :: l) = runs l := by
  unfold runs
  rw [← List.nil_append (47 :: l), List.splitOn_append_cons_self_of_not_mem List.not_mem_nil,
    List.filter_cons_of_neg (by simp)]

/-- The run in front. -/
theorem runs_cons (h : b ≠ 47) : runs (b :: l) =
    (b :: l).takeWhile (· ≠ 47) :: runs ((b :: l).dropWhile (· ≠ 47)) := by
  have hrun : (b :: l).takeWhile (· ≠ 47) ≠ [] := by simp [h]
  have hnot : 47 ∉ (b :: l).takeWhile (· ≠ 47) := fun hmem => by
    simpa using List.mem_takeWhile_imp hmem
  have hsplit := List.takeWhile_append_dropWhile (p := fun c => decide (c ≠ 47)) (l := b :: l)
  unfold runs
  cases hrest : (b :: l).dropWhile (· ≠ 47) with
  | nil =>
    have htake : (b :: l).takeWhile (· ≠ 47) = b :: l := by
      rwa [hrest, List.append_nil] at hsplit
    rw [htake] at hnot hrun ⊢
    rw [List.splitOn_eq_singleton hnot]
    simp
  | cons c rest =>
    obtain rfl : c = 47 := by
      have hc := List.head?_dropWhile_not (fun c => decide (c ≠ 47)) (b :: l)
      rw [hrest] at hc
      simpa using hc
    rw [hrest] at hsplit
    conv_lhs => rw [← hsplit]
    rw [List.splitOn_append_cons_self_of_not_mem hnot,
      List.filter_cons_of_pos (by simpa using hrun)]
    exact congrArg _ runs_slash.symm

/-- What is left behind the run in front. -/
theorem drop_takeWhile (p : UInt8 → Bool) (l : List UInt8) :
    l.drop (l.takeWhile p).length = l.dropWhile p := by
  have h : (l.takeWhile p ++ l.dropWhile p).drop (l.takeWhile p).length = l.dropWhile p := List.drop_left
  rwa [List.takeWhile_append_dropWhile] at h

/-! ## The loop -/

/-- `path_copy` after the first loop of `get_path_components`. -/
def nulled (l : List UInt8) : List UInt8 := l.map fun b => if b = 47 then 0 else b

theorem getPathComponents_eq (path : CString) :
    getPathComponents path = componentLoop (path.length + 1) false (nulled path.bytes) := rfl

theorem takeWhile_nulled (hl : 0 ∉ l) :
    (nulled l).takeWhile (· ≠ 0) = l.takeWhile (· ≠ 47) := by
  induction l with
  | nil => rfl
  | cons b l ih =>
    obtain ⟨hb, hl⟩ := not_or.mp (mt List.mem_cons.mpr hl)
    by_cases h : b = 47
    · simp [nulled, h]
    · have hb : b ≠ 0 := Ne.symm hb
      simpa [nulled, h, hb] using ih hl

/-- Once a separator has been seen, the loop reads one run after another. -/
theorem componentLoop_true (hl : 0 ∉ l) (hfuel : l.length < fuel) :
    ∃ cs, componentLoop fuel true (nulled l) = some cs ∧ cs.map CString.bytes = runs l := by
  induction fuel generalizing l with
  | zero => exact absurd hfuel (Nat.not_lt_zero _)
  | succ fuel ih =>
    cases l with
    | nil => exact ⟨[], rfl, rfl⟩
    | cons b l =>
      rw [List.length_cons] at hfuel
      obtain ⟨hb, hl'⟩ := not_or.mp (mt List.mem_cons.mpr hl)
      by_cases hslash : b = 47
      · subst hslash
        obtain ⟨cs, hloop, hcs⟩ := ih hl' (by omega)
        exact ⟨cs, hloop, by rw [hcs, runs_slash]⟩
      · have hcons : nulled (b :: l) = b :: nulled l := by simp [nulled, hslash]
        have hread := takeWhile_nulled hl
        have hlen : (CString.ofBytes (b :: nulled l)).length = ((b :: l).takeWhile (· ≠ 47)).length := by
          rw [← hread, hcons]
          rfl
        have hdrop : (b :: nulled l).drop (CString.ofBytes (b :: nulled l)).length =
            nulled ((b :: l).dropWhile (· ≠ 47)) := by
          rw [hlen, ← hcons]
          unfold nulled
          rw [← List.map_drop, drop_takeWhile]
        have hpos : 0 < ((b :: l).takeWhile (· ≠ 47)).length := by
          simp [hslash]
        have hshort : ((b :: l).dropWhile (· ≠ 47)).length < fuel := by
          have := congrArg List.length
            (List.takeWhile_append_dropWhile (p := fun c => decide (c ≠ 47)) (l := b :: l))
          rw [List.length_append, List.length_cons] at this
          omega
        obtain ⟨cs, hloop, hcs⟩ := ih
          (fun h0 => hl ((List.dropWhile_sublist _).subset h0)) hshort
        refine ⟨CString.ofBytes (b :: nulled l) :: cs, ?_, ?_⟩
        · rw [hcons, componentLoop, if_neg (Ne.symm hb), if_pos rfl]
          dsimp only
          rw [hdrop, hloop]
          rfl
        · rw [List.map_cons, hcs, runs_cons hslash, ← hread, hcons]
          rfl

/-- A character in front of all separators stops the loop from advancing. -/
theorem componentLoop_relative (hb : b ≠ 0) (fuel : ℕ) : componentLoop fuel false (b :: l) = none := by
  induction fuel with
  | zero => rfl
  | succ fuel ih =>
    rw [componentLoop, if_neg hb, if_neg Bool.false_ne_true]
    exact ih

/-! ## Paths -/

/-- `get_path_components` returns, and what it returns are the runs. -/
def SplitsPath (path : CString) : Prop :=
  ∃ fuel cs, componentLoop fuel false (nulled path.bytes) = some cs ∧ cs.map CString.bytes = runs path.bytes

/-- What starts with a separator is split, with the fuel of `getPathComponents`. -/
theorem getPathComponents_absolute (h : path.bytes = [] ∨ path.bytes.head? = some 47) :
    ∃ cs, getPathComponents path = some cs ∧ cs.map CString.bytes = runs path.bytes := by
  rw [getPathComponents_eq]
  have hnul := path.noNul
  unfold CString.length
  cases hbytes : path.bytes with
  | nil => exact ⟨[], rfl, rfl⟩
  | cons b l =>
    rw [hbytes] at h hnul
    obtain rfl : b = 47 := by simpa using h
    have hl : 0 ∉ l := fun h0 => hnul (List.mem_cons_of_mem _ h0)
    obtain ⟨cs, hloop, hcs⟩ := componentLoop_true hl (Nat.lt_succ_self l.length)
    exact ⟨cs, hloop, by rw [hcs, runs_slash]⟩

/-- The names on the way to an entry of a listing. -/
theorem names_entryList {fileFirst : Bool} {f : Folder} {x : List CString × File} (hf : f.Named)
    (hx : x ∈ entryList fileFirst f) : (∀ n ∈ x.1, IsName n) ∧ IsName x.2.name := by
  induction f using Folder.ind generalizing x with
  | h f ih =>
    obtain ⟨hnames, hsub⟩ := Folder.allFolders_iff.mp hf
    rw [Bool.and_eq_true, List.all_eq_true, List.all_eq_true] at hnames
    rcases (mem_entryList_cases fileFirst).mp hx with ⟨hq, he⟩ | hx
    · rw [hq]
      exact ⟨fun n hn => absurd hn List.not_mem_nil, of_decide_eq_true (hnames.1 _ he)⟩
    · obtain ⟨d, hd, y, hy, rfl⟩ := (mem_entryLists fileFirst).mp hx
      obtain ⟨hq, hn⟩ := ih d hd (hsub d hd) hy
      refine ⟨fun n hn => ?_, hn⟩
      rcases List.mem_cons.mp hn with rfl | hn
      exacts [of_decide_eq_true (hnames.2 d hd), hq n hn]

/-- **Splitting.** `get_path_components` returns the runs between the separators exactly of the paths
that are empty or start with a separator. The paths of a relative iterator are joined again from their
components. -/
theorem splitsPath_iff (path : CString) :
    (SplitsPath path ↔ path.bytes = [] ∨ path.bytes.head? = some 47) ∧
    ∀ (tree : Folder) (fileFirst : Bool) (item : IteratorItem), tree.Named →
      item ∈ filesystemIteratorRelative fileFirst tree →
        ∃ cs, getPathComponents item.path = some cs ∧ joinPath .empty cs = item.path := by
  refine ⟨⟨?_, fun h => ?_⟩, fun tree fileFirst item hnamed hitem => ?_⟩
  · rintro ⟨fuel, cs, hloop, -⟩
    have hnul := path.noNul
    cases hbytes : path.bytes with
    | nil => exact Or.inl rfl
    | cons b l =>
      refine Or.inr ?_
      by_contra hb
      have hslash : b ≠ 47 := fun h => hb (by rw [h]; rfl)
      have hb0 : b ≠ 0 := fun h => hnul (by rw [hbytes, h]; exact List.mem_cons_self)
      rw [hbytes, nulled, List.map_cons, if_neg hslash, componentLoop_relative hb0] at hloop
      cases hloop
  · obtain ⟨cs, hget, hcs⟩ := getPathComponents_absolute h
    exact ⟨_, cs, hget, hcs⟩
  · rw [filesystemIteratorRelative, filesystemIterator_eq, List.mem_map] at hitem
    obtain ⟨x, hx, rfl⟩ := hitem
    obtain ⟨hq, hn⟩ := names_entryList hnamed hx
    exact ⟨x.1 ++ [x.2.name], getPathComponents_entryPath hq hn, joinPath_append_singleton _ _ _⟩

/-- The path `a` is never split. -/
theorem not_splitsPath_relative : ¬ SplitsPath (.ofBytes [97]) := by
  rintro ⟨fuel, cs, hloop, -⟩
  rw [show nulled (CString.ofBytes [97]).bytes = [97] from rfl, componentLoop_relative (by decide)] at hloop
  cases hloop

end DartSync
