import DartSync.FileSystem.Codec

/-!
# What the decoder of file systems reads

`filesystem_deserialize` is driven by markers, NULs and numbers alone. The bytes that it reads to the end
are a grammar (`IsTree`): on them it returns and leaves what is behind them, and on any other bytes it
leaves the buffer, takes a number that it has not read, or fails its assertion
(`returnsInside_filesystemDeserialize`). It never reads on without getting further.
-/

namespace DartSync

open Decimal

/-- Three numbers, with something between them, and the byte behind them; a NUL has to follow, for
`sscanf`. -/
def IsFileNumbers (data rest : List UInt8) : Prop :=
  ∃ size lastModified isFolder b, IsNumber size ∧ IsNumber lastModified ∧ IsNumber isFolder ∧
    Ends lastModified ∧ Ends isFolder ∧ isDigit b = false ∧ 0 ∈ b :: rest ∧
    data = size ++ (lastModified ++ (isFolder ++ b :: rest))

/-- What is in a folder, up to the end of the folder; `rest` comes behind it. -/
inductive IsFolder : List UInt8 → List UInt8 → Prop
  | ended (rest : List UInt8) : IsFolder (folderEnd :: rest) rest
  | folder (name : CString) {data mid rest : List UInt8} :
      IsFolder data mid → IsFolder mid rest → IsFolder (folderStart :: (pushString name ++ data)) rest
  | file (name : CString) {data mid rest : List UInt8} :
      IsFileNumbers data mid → IsFolder mid rest →
      IsFolder (fileMarker :: (pushString name ++ data)) rest

/-- A byte that is skipped, the name of the root, and what is in it. -/
def IsTree (data rest : List UInt8) : Prop :=
  ∃ b name contents, data = b :: (pushString name ++ contents) ∧ IsFolder contents rest

variable {data rest : List UInt8} {fuel : ℕ}

/-! ## Numbers -/

theorem ends_append {text : List UInt8} (h : text ≠ []) : Ends (text ++ rest) ↔ Ends text := by
  obtain ⟨b, text, rfl⟩ := List.exists_cons_of_ne_nil h
  exact Iff.rfl

theorem sscanfNumbers_isSome {text : List UInt8} {numRead : ℕ} :
    (∃ size lastModified isFolder,
        sscanfNumbers text = some (size, lastModified, isFolder, numRead)) ↔
      ∃ size lastModified isFolder rest, IsNumber size ∧ IsNumber lastModified ∧ IsNumber isFolder ∧
        Ends lastModified ∧ Ends isFolder ∧ Ends rest ∧
        text = size ++ (lastModified ++ (isFolder ++ rest)) ∧
        numRead = (size ++ (lastModified ++ isFolder)).length := by
  constructor
  · rintro ⟨size, lastModified, isFolder, h⟩
    obtain ⟨⟨minus₁, n₁, rest₁⟩, h₁, h⟩ := Option.bind_eq_some_iff.mp h
    obtain ⟨⟨minus₂, n₂, rest₂⟩, h₂, h⟩ := Option.bind_eq_some_iff.mp h
    obtain ⟨⟨minus₃, n₃, rest₃⟩, h₃, h⟩ := Option.bind_eq_some_iff.mp h
    obtain ⟨w₁, hw₁, hends₁, rfl⟩ := scan_isSome_iff.mp ⟨_, _, h₁⟩
    obtain ⟨w₂, hw₂, hends₂, rfl⟩ := scan_isSome_iff.mp ⟨_, _, h₂⟩
    obtain ⟨w₃, hw₃, hends₃, rfl⟩ := scan_isSome_iff.mp ⟨_, _, h₃⟩
    cases h
    refine ⟨w₁, w₂, w₃, rest₃, hw₁, hw₂, hw₃, (ends_append hw₂.ne_nil).mp hends₁,
      (ends_append hw₃.ne_nil).mp hends₂, hends₃, rfl, ?_⟩
    simp only [List.length_append]
    omega
  · rintro ⟨w₁, w₂, w₃, rest, hw₁, hw₂, hw₃, hends₂, hends₃, hends, rfl, rfl⟩
    obtain ⟨minus₁, n₁, h₁⟩ := scan_isSome_iff.mpr ⟨w₁, hw₁, (ends_append hw₂.ne_nil).mpr hends₂, rfl⟩
    obtain ⟨minus₂, n₂, h₂⟩ := scan_isSome_iff.mpr ⟨w₂, hw₂, (ends_append hw₃.ne_nil).mpr hends₃, rfl⟩
    obtain ⟨minus₃, n₃, h₃⟩ := scan_isSome_iff.mpr ⟨w₃, hw₃, hends, rfl⟩
    refine ⟨strtoul minus₁ n₁, strtol minus₂ n₂, (strtol minus₃ n₃).toInt32,
      Option.bind_eq_some_iff.mpr ⟨_, h₁,
      Option.bind_eq_some_iff.mpr ⟨_, h₂, Option.bind_eq_some_iff.mpr ⟨_, h₃, ?_⟩⟩⟩⟩
    refine congrArg some (congrArg (Prod.mk _) (congrArg (Prod.mk _) (congrArg (Prod.mk _) ?_)))
    simp only [List.length_append]
    omega

theorem notMem_numbers {w₁ w₂ w₃ : List UInt8} (h₁ : IsNumber w₁) (h₂ : IsNumber w₂)
    (h₃ : IsNumber w₃) : 0 ∉ w₁ ++ (w₂ ++ w₃) := by
  rw [List.mem_append, List.mem_append, not_or, not_or]
  exact ⟨h₁.notMem, h₂.notMem, h₃.notMem⟩

/-- The case `FILE_MARKER`. -/
theorem deserializeFile_isOk : (∃ file, deserializeFile data = .ok (file, rest)) ↔
    ∃ name numbers, data = pushString name ++ numbers ∧ IsFileNumbers numbers rest := by
  constructor
  · rintro ⟨file, h⟩
    obtain ⟨⟨name, numbers⟩, hread, h⟩ := bind_eq_ok.mp h
    refine ⟨name, numbers, readString_eq_ok.mp hread, ?_⟩
    dsimp only at h
    split_ifs at h with hmem
    cases hscan : sscanfNumbers (CString.ofBytes numbers).bytes with
    | none => rw [hscan] at h; cases h
    | some r =>
      rw [hscan] at h
      cases h
      obtain ⟨w₁, w₂, w₃, text, hw₁, hw₂, hw₃, hends₂, hends₃, hends, htext, hnum⟩ :=
        sscanfNumbers_isSome.mp ⟨_, _, _, hscan⟩
      have hword := notMem_numbers hw₁ hw₂ hw₃
      obtain ⟨b, hb, hsplit⟩ := (ofBytes_eq_append_iff hword hmem).mp
        ⟨text, by rw [htext, List.append_assoc, List.append_assoc], hends, by rw [← hnum]⟩
      refine ⟨w₁, w₂, w₃, b, hw₁, hw₂, hw₃, hends₂, hends₃, hb, ?_, ?_⟩
      · rw [hsplit] at hmem
        exact (List.mem_append.mp hmem).resolve_left hword
      · rw [List.append_assoc, List.append_assoc] at hsplit
        exact hsplit
  · rintro ⟨name, numbers, rfl, w₁, w₂, w₃, b, hw₁, hw₂, hw₃, hends₂, hends₃, hb, hmem, rfl⟩
    have hmem : 0 ∈ w₁ ++ (w₂ ++ (w₃ ++ b :: rest)) :=
      List.mem_append_right _ (List.mem_append_right _ (List.mem_append_right _ hmem))
    have hsplit : w₁ ++ (w₂ ++ (w₃ ++ b :: rest)) = w₁ ++ (w₂ ++ w₃) ++ b :: rest := by
      rw [List.append_assoc, List.append_assoc]
    obtain ⟨text, htext, hends, hrest⟩ :=
      (ofBytes_eq_append_iff (notMem_numbers hw₁ hw₂ hw₃) hmem).mpr ⟨b, hb, hsplit⟩
    rw [List.append_assoc, List.append_assoc] at htext
    obtain ⟨size, lastModified, isFolder, hscan⟩ := sscanfNumbers_isSome.mpr
      ⟨w₁, w₂, w₃, text, hw₁, hw₂, hw₃, hends₂, hends₃, hends, htext, rfl⟩
    refine ⟨⟨name, size, lastModified, isFolder⟩, bind_eq_ok.mpr ⟨_, readString_pushString, ?_⟩⟩
    dsimp only
    rw [if_pos hmem, hscan]
    dsimp only
    rw [← hrest]

/-! ## Folders -/

/-- What is left comes behind what has been read. -/
theorem IsFolder.exists_append (h : IsFolder data rest) : ∃ b consumed, data = b :: (consumed ++ rest) := by
  induction h with
  | ended rest => exact ⟨folderEnd, [], rfl⟩
  | folder name _ _ ih₁ ih₂ =>
    obtain ⟨b₁, consumed₁, rfl⟩ := ih₁
    obtain ⟨b₂, consumed₂, rfl⟩ := ih₂
    exact ⟨folderStart, pushString name ++ b₁ :: (consumed₁ ++ b₂ :: consumed₂), by simp⟩
  | file name hnumbers _ ih =>
    obtain ⟨w₁, w₂, w₃, b₁, -, -, -, -, -, -, -, rfl⟩ := hnumbers
    obtain ⟨b₂, consumed, rfl⟩ := ih
    exact ⟨fileMarker, pushString name ++ (w₁ ++ (w₂ ++ (w₃ ++ b₁ :: b₂ :: consumed))), by simp⟩

theorem IsFolder.length_lt (h : IsFolder data rest) : rest.length < data.length := by
  obtain ⟨b, consumed, rfl⟩ := h.exists_append
  rw [List.length_cons, List.length_append]
  omega

theorem IsFileNumbers.length_lt (h : IsFileNumbers data rest) : rest.length < data.length := by
  obtain ⟨w₁, w₂, w₃, b, -, -, -, -, -, -, -, rfl⟩ := h
  simp only [List.length_append, List.length_cons]
  omega

/-- What is read to the end is a folder. The induction is on the fuel, for a folder and its loop at
once. -/
theorem isFolder_of_deserialize (fuel : ℕ) :
    (∀ data f rest, filesystemDeserializeHelper fuel data = .ok (f, rest) →
      ∃ name contents, data = pushString name ++ contents ∧ IsFolder contents rest) ∧
    ∀ folder data f rest, deserializeLoop fuel folder data = .ok (f, rest) → IsFolder data rest := by
  induction fuel with
  | zero =>
    constructor
    · intro data f rest h
      cases h
    · intro folder data f rest h
      cases h
  | succ fuel ih =>
    constructor
    · intro data f rest h
      rw [filesystemDeserializeHelper] at h
      obtain ⟨⟨name, contents⟩, hread, h⟩ := bind_eq_ok.mp h
      exact ⟨name, contents, readString_eq_ok.mp hread, ih.2 _ _ _ _ h⟩
    · intro folder data f rest h
      cases data with
      | nil => cases h
      | cons b data =>
        rw [deserializeLoop] at h
        split_ifs at h with hstart hfile hend
        · obtain ⟨⟨child, mid⟩, hchild, hloop⟩ := bind_eq_ok.mp h
          obtain ⟨name, contents, hdata, hcontents⟩ := ih.1 _ _ _ hchild
          rw [hstart, hdata]
          exact .folder name hcontents (ih.2 _ _ _ _ hloop)
        · obtain ⟨⟨file, mid⟩, hread, hloop⟩ := bind_eq_ok.mp h
          obtain ⟨name, numbers, hdata, hnumbers⟩ := deserializeFile_isOk.mp ⟨file, hread⟩
          rw [hfile, hdata]
          exact .file name hnumbers (ih.2 _ _ _ _ hloop)
        · cases h
          rw [hend]
          exact .ended rest

/-- A folder is read to the end. -/
theorem deserializeLoop_of_isFolder (h : IsFolder data rest) (folder : Folder)
    (hfuel : data.length < fuel) : ∃ f, deserializeLoop fuel folder data = .ok (f, rest) := by
  induction h generalizing fuel folder with
  | ended rest => exact ⟨folder, deserializeLoop_folderEnd (Nat.zero_lt_of_lt hfuel)⟩
  | @folder name data mid rest h₁ _ ih₁ ih₂ =>
    have hlt := h₁.length_lt
    rw [List.length_cons, List.length_append, length_pushString] at hfuel
    obtain ⟨fuel, rfl⟩ : ∃ k, fuel = k + 2 := ⟨fuel - 2, by omega⟩
    obtain ⟨child, hchild⟩ : ∃ child, deserializeLoop fuel ⟨name, [], []⟩ data = .ok (child, mid) :=
      ih₁ _ (by omega)
    obtain ⟨f, hf⟩ : ∃ f, deserializeLoop (fuel + 1)
        { folder with folders := folder.folders ++ [child] } mid = .ok (f, rest) :=
      ih₂ _ (by omega)
    refine ⟨f, ?_⟩
    rw [deserializeLoop_folderStart]
    refine bind_eq_ok.mpr ⟨(child, mid), ?_, hf⟩
    rw [filesystemDeserializeHelper]
    exact bind_eq_ok.mpr ⟨_, readString_pushString, hchild⟩
  | @file name data mid rest hnumbers _ ih =>
    have hlt := hnumbers.length_lt
    rw [List.length_cons, List.length_append] at hfuel
    obtain ⟨fuel, rfl⟩ : ∃ k, fuel = k + 1 := ⟨fuel - 1, by omega⟩
    obtain ⟨file, hfile⟩ := deserializeFile_isOk.mpr ⟨name, data, rfl, hnumbers⟩
    obtain ⟨f, hf⟩ : ∃ f, deserializeLoop fuel { folder with files := folder.files ++ [file] } mid =
        .ok (f, rest) := ih _ (by omega)
    refine ⟨f, ?_⟩
    rw [deserializeLoop_fileMarker]
    exact bind_eq_ok.mpr ⟨(file, mid), hfile, hf⟩

/-! ## Progress -/

theorem deserializeFile_ne_diverges : deserializeFile data ≠ .error .diverges := by
  intro h
  rcases bind_eq_error.mp h with hread | ⟨⟨name, numbers⟩, -, h⟩
  · cases readString_error hread
  · dsimp only at h
    split_ifs at h
    · cases hscan : sscanfNumbers (CString.ofBytes numbers).bytes with
      | none => rw [hscan] at h; cases h
      | some r => rw [hscan] at h; cases h
    · cases h

/-- With more fuel than bytes the decoder does not run out of it. -/
theorem deserialize_ne_diverges (fuel : ℕ) :
    (∀ data, data.length < fuel → filesystemDeserializeHelper fuel data ≠ .error .diverges) ∧
    ∀ folder data, data.length < fuel → deserializeLoop fuel folder data ≠ .error .diverges := by
  induction fuel with
  | zero =>
    constructor
    · intro data hfuel
      exact absurd hfuel (Nat.not_lt_zero _)
    · intro folder data hfuel
      exact absurd hfuel (Nat.not_lt_zero _)
  | succ fuel ih =>
    constructor
    · intro data hfuel h
      rw [filesystemDeserializeHelper] at h
      rcases bind_eq_error.mp h with hread | ⟨⟨name, contents⟩, hread, h⟩
      · cases readString_error hread
      · have hlt := length_lt_of_readString hread
        exact ih.2 _ _ (by omega) h
    · intro folder data hfuel h
      cases data with
      | nil => cases h
      | cons b data =>
        rw [List.length_cons] at hfuel
        rw [deserializeLoop] at h
        split_ifs at h
        · rcases bind_eq_error.mp h with hchild | ⟨⟨child, mid⟩, hchild, h⟩
          · exact ih.1 data (by omega) hchild
          · obtain ⟨name, contents, hdata, hcontents⟩ := (isFolder_of_deserialize fuel).1 _ _ _ hchild
            have hlt := hcontents.length_lt
            rw [hdata, List.length_append] at hfuel
            exact ih.2 _ _ (by omega) h
        · rcases bind_eq_error.mp h with hfile | ⟨⟨file, mid⟩, hfile, h⟩
          · exact deserializeFile_ne_diverges hfile
          · obtain ⟨name, numbers, hdata, hnumbers⟩ := deserializeFile_isOk.mp ⟨file, hfile⟩
            have hlt := hnumbers.length_lt
            rw [hdata, List.length_append] at hfuel
            exact ih.2 _ _ (by omega) h
        · cases h

/-! ## Trees -/

theorem filesystemDeserialize_ne_diverges : filesystemDeserialize data ≠ .error .diverges := by
  intro h
  rcases bind_eq_error.mp h with hroot | ⟨r, -, h⟩
  · refine (deserialize_ne_diverges (data.length + 1)).1 (data.drop 1) ?_ hroot
    rw [List.length_drop]
    omega
  · cases h

/-- A tree lies in front of what is left. -/
theorem IsTree.exists_append (h : IsTree data rest) : ∃ b consumed, data = b :: (consumed ++ rest) := by
  obtain ⟨b, name, contents, rfl, hcontents⟩ := h
  obtain ⟨c, consumed, rfl⟩ := hcontents.exists_append
  exact ⟨b, pushString name ++ c :: consumed, by simp⟩

/-- A decoder that returns has read a tree. -/
theorem filesystemDeserialize_ok {fs : FileSystem} {bytesRead : ℕ}
    (hok : filesystemDeserialize data = .ok (fs, bytesRead)) :
    0 < bytesRead ∧ bytesRead ≤ data.length ∧ IsTree data (data.drop bytesRead) := by
  obtain ⟨⟨root, d⟩, hroot, h⟩ := bind_eq_ok.mp hok
  cases h
  obtain ⟨name, contents, hdata, hcontents⟩ := (isFolder_of_deserialize _).1 _ _ _ hroot
  cases data with
  | nil =>
    have hmem : 0 ∈ pushString name ++ contents := zero_mem_pushString
    rw [← hdata] at hmem
    exact absurd hmem List.not_mem_nil
  | cons b data =>
    have htree : IsTree (b :: data) d := ⟨b, name, contents, congrArg (b :: ·) hdata, hcontents⟩
    obtain ⟨b', consumed, hsplit⟩ := htree.exists_append
    obtain ⟨hpos, hdrop⟩ := drop_length_sub hsplit
    rw [hdrop]
    exact ⟨hpos, Nat.sub_le _ _, htree⟩

theorem filesystemDeserialize_of_isTree (h : IsTree data rest) :
    ∃ fs, filesystemDeserialize data = .ok (fs, data.length - rest.length) := by
  obtain ⟨b, name, contents, rfl, hcontents⟩ := h
  have hfuel : contents.length < (b :: (pushString name ++ contents)).length := by
    rw [List.length_cons, List.length_append]
    omega
  obtain ⟨root, hroot⟩ := deserializeLoop_of_isFolder hcontents ⟨name, [], []⟩ hfuel
  refine ⟨⟨none, root⟩, bind_eq_ok.mpr ⟨(root, rest), ?_, rfl⟩⟩
  rw [filesystemDeserializeHelper]
  exact bind_eq_ok.mpr ⟨_, readString_pushString, hroot⟩

/-- **Trees.** The decoder returns, inside the buffer, exactly on trees. -/
theorem returnsInside_filesystemDeserialize :
    ReturnsInside filesystemDeserialize data rest ↔ IsTree data rest := by
  constructor
  · rintro ⟨fs, bytesRead, hok, -, -, rfl⟩
    exact (filesystemDeserialize_ok hok).2.2
  · intro h
    obtain ⟨fs, hok⟩ := filesystemDeserialize_of_isTree h
    obtain ⟨b, consumed, hsplit⟩ := h.exists_append
    obtain ⟨hpos, hdrop⟩ := drop_length_sub hsplit
    exact ⟨fs, _, hok, hpos, Nat.sub_le _ _, hdrop.symm⟩

end DartSync
