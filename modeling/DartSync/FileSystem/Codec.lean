import DartSync.FileSystem.Folder
import DartSync.Serial

/-!
# File systems as bytes

A folder is written as a marker, its name, its files, its subfolders and an end marker; a file as a
marker, its name and its numbers in decimal. Names and numbers end with NUL, so a marker byte inside
a name is never read as a marker. The decoder is the recursion of the source over a cursor;
`filesystemDeserialize_append` says that it reads a tree back and stops where the tree ends.
-/

namespace DartSync

open Decimal

/-- `_FileSystem` -/
structure FileSystem where
  rootPath : Option CString
  root : Folder

/-- `FILE_MARKER` -/
def fileMarker : UInt8 := 0xFF

/-- `FOLDER_START` -/
def folderStart : UInt8 := 0xFE

/-- `FOLDER_END` -/
def folderEnd : UInt8 := 0xFD

/-! ## Writing -/

/-- `sprintf` with `"%ld %ld %d"` into `buf`. -/
def sprintfNumbers (file : File) : CString where
  bytes := ofInt file.size.toInt64.toInt ++ 32 :: (ofInt file.lastModified.toInt ++
    32 :: ofInt file.isFolder.toInt)
  noNul h := by
    rcases List.mem_append.mp h with h | h
    · exact notMem_ofInt h
    · rcases List.mem_append.mp ((List.mem_cons.mp h).resolve_left (by decide)) with h | h
      · exact notMem_ofInt h
      · exact notMem_ofInt ((List.mem_cons.mp h).resolve_left (by decide))

/-- What the first loop of `filesystem_serialize_helper` pushes for a file. -/
def serializeFile (file : File) : List UInt8 :=
  fileMarker :: (pushString file.name ++ pushString (sprintfNumbers file))

mutual

/-- `filesystem_serialize_helper`, the bytes that it pushes. -/
def filesystemSerializeHelper : Folder → List UInt8
  | ⟨name, files, folders⟩ =>
    folderStart :: (pushString name ++ (files.flatMap serializeFile ++
      (serializeFolders folders ++ [folderEnd])))

/-- Its second loop. -/
def serializeFolders : List Folder → List UInt8
  | [] => []
  | d :: ds => filesystemSerializeHelper d ++ serializeFolders ds

end

/-- `filesystem_serialize` -/
def filesystemSerialize (filesystem : FileSystem) : List UInt8 :=
  filesystemSerializeHelper filesystem.root

/-! ## Reading -/

/-- `sscanf` with `"%lu %ld %d%n"`; `none` when a conversion fails. -/
def sscanfNumbers (text : List UInt8) : Option (UInt64 × Int64 × Int32 × ℕ) := do
  let (minus, n, rest) ← scan text
  let size := strtoul minus n
  let (minus, n, rest) ← scan rest
  let lastModified := strtol minus n
  let (minus, n, rest) ← scan rest
  pure (size, lastModified, (strtol minus n).toInt32, text.length - rest.length)

/-- The case `FILE_MARKER`: the file, and the cursor after it. -/
def deserializeFile (data : List UInt8) : Except Abort (File × List UInt8) := do
  let (name, data) ← readString data
  if 0 ∈ data then
    match sscanfNumbers (CString.ofBytes data).bytes with
    | none => .error .uninitialized
    | some (size, lastModified, isFolder, numRead) =>
      .ok (⟨name, size, lastModified, isFolder⟩, data.drop (numRead + 1))
  else .error .outOfBounds

mutual

/-- `filesystem_deserialize_helper`. Every call reads bytes, so with more fuel than bytes it never
runs out. -/
def filesystemDeserializeHelper : ℕ → List UInt8 → Except Abort (Folder × List UInt8)
  | 0, _ => .error .diverges
  | fuel + 1, data => do
    let (name, data) ← readString data
    deserializeLoop fuel ⟨name, [], []⟩ data

/-- Its loop. -/
def deserializeLoop : ℕ → Folder → List UInt8 → Except Abort (Folder × List UInt8)
  | 0, _, _ => .error .diverges
  | _ + 1, _, [] => .error .outOfBounds
  | fuel + 1, folder, b :: data =>
    if b = folderStart then do
      let (child, data) ← filesystemDeserializeHelper fuel data
      deserializeLoop fuel { folder with folders := folder.folders ++ [child] } data
    else if b = fileMarker then do
      let (file, data) ← deserializeFile data
      deserializeLoop fuel { folder with files := folder.files ++ [file] } data
    else if b = folderEnd then .ok (folder, data)
    else .error .filesystemDeserialize

end

/-- `filesystem_deserialize`: the tree and `bytesRead`. -/
def filesystemDeserialize (data : List UInt8) : Except Abort (FileSystem × ℕ) := do
  let (root, d) ← filesystemDeserializeHelper (data.length + 1) (data.drop 1)
  pure (⟨none, root⟩, data.length - d.length)

/-! ## Files -/

variable {file : File} {rest : List UInt8} {f : Folder} {fuel : ℕ}

/-- `buf` is large enough for the numbers and their NUL. -/
theorem length_sprintfNumbers (file : File) : (sprintfNumbers file).length < 128 := by
  have hsize := length_ofInt (i := file.size.toInt64.toInt) (k := 19) (by decide)
    (by have := file.size.toInt64.toInt_lt; have := file.size.toInt64.le_toInt; omega)
  have hmod := length_ofInt (i := file.lastModified.toInt) (k := 19) (by decide)
    (by have := file.lastModified.toInt_lt; have := file.lastModified.le_toInt; omega)
  have hdir := length_ofInt (i := file.isFolder.toInt) (k := 10) (by decide)
    (by have := file.isFolder.toInt_lt; have := file.isFolder.le_toInt; omega)
  show (ofInt _ ++ _ :: (ofInt _ ++ _ :: ofInt _)).length < 128
  rw [List.length_append, List.length_cons, List.length_append, List.length_cons]
  omega

theorem ends_space (text : List UInt8) : Ends (32 :: text) := ends_cons (by decide)

/-- The numbers are read back: the size is printed as a signed number and read as an unsigned one. -/
theorem sscanfNumbers_sprintfNumbers (file : File) : sscanfNumbers (sprintfNumbers file).bytes =
    some (file.size, file.lastModified, file.isFolder, (sprintfNumbers file).length) := by
  have hsize := scan_ofInt (i := file.size.toInt64.toInt)
    (ends_space (ofInt file.lastModified.toInt ++ 32 :: ofInt file.isFolder.toInt))
  have hmod := scan_ofInt (i := file.lastModified.toInt)
    (ends_space (ofInt file.isFolder.toInt))
  have hdir := scan_ofInt (i := file.isFolder.toInt) ends_nil
  rw [List.append_nil] at hdir
  unfold sscanfNumbers
  show (scan (ofInt _ ++ _ :: (ofInt _ ++ _ :: ofInt _)) >>= _) = _
  rw [hsize]
  show (scan (32 :: _) >>= _) = _
  rw [scan_space, hmod]
  show (scan (32 :: _) >>= _) = _
  rw [scan_space, hdir]
  show some _ = some _
  rw [strtoul_ofInt, strtol_ofInt, strtol_ofInt32]
  rfl

/-- **Files.** A file is read back. -/
theorem deserializeFile_append : deserializeFile
    (pushString file.name ++ pushString (sprintfNumbers file) ++ rest) = .ok (file, rest) := by
  unfold deserializeFile
  rw [List.append_assoc, readString_pushString]
  show (if 0 ∈ pushString (sprintfNumbers file) ++ rest then _ else _) = _
  rw [if_pos zero_mem_pushString, ofBytes_pushString, sscanfNumbers_sprintfNumbers]
  show Except.ok (_, List.drop _ _) = _
  rw [List.drop_left' length_pushString]

/-! ## Folders -/

/-- The bytes of a folder start with its marker. -/
theorem filesystemSerializeHelper_eq (f : Folder) : filesystemSerializeHelper f =
    folderStart :: (pushString f.name ++ (f.files.flatMap serializeFile ++
      (serializeFolders f.folders ++ [folderEnd]))) := by
  cases f
  rw [filesystemSerializeHelper]

/-- `f` is read back from its bytes without the marker. -/
def ReadsBack (f : Folder) : Prop :=
  ∀ fuel rest, (filesystemSerializeHelper f).length ≤ fuel →
    filesystemDeserializeHelper fuel ((filesystemSerializeHelper f).tail ++ rest) = .ok (f, rest)

/-- A folder in the folder. -/
theorem deserializeLoop_folderStart (fuel : ℕ) (f : Folder) (data : List UInt8) :
    deserializeLoop (fuel + 1) f (folderStart :: data) =
      filesystemDeserializeHelper fuel data >>= fun r =>
        deserializeLoop fuel { f with folders := f.folders ++ [r.1] } r.2 := rfl

/-- A file in the folder. -/
theorem deserializeLoop_fileMarker (fuel : ℕ) (f : Folder) (data : List UInt8) :
    deserializeLoop (fuel + 1) f (fileMarker :: data) =
      deserializeFile data >>= fun r =>
        deserializeLoop fuel { f with files := f.files ++ [r.1] } r.2 := rfl

/-- The end of a folder. -/
theorem deserializeLoop_folderEnd (hfuel : 0 < fuel) :
    deserializeLoop fuel f (folderEnd :: rest) = .ok (f, rest) := by
  obtain ⟨fuel, rfl⟩ := Nat.exists_eq_add_one_of_ne_zero hfuel.ne'
  rfl

/-- The subfolders, up to the end marker. -/
theorem deserializeLoop_folders (f : Folder) (rest : List UInt8) {ds : List Folder}
    (hds : ∀ d ∈ ds, ReadsBack d) (hfuel : (serializeFolders ds).length < fuel) :
    deserializeLoop fuel f (serializeFolders ds ++ folderEnd :: rest) =
      .ok ({ f with folders := f.folders ++ ds }, rest) := by
  induction ds generalizing fuel f with
  | nil =>
    cases f
    rw [List.append_nil, serializeFolders, List.nil_append]
    exact deserializeLoop_folderEnd (Nat.zero_lt_of_lt hfuel)
  | cons d ds ih =>
    obtain ⟨fuel, rfl⟩ := Nat.exists_eq_add_one_of_ne_zero (Nat.ne_zero_of_lt hfuel)
    have hd := hds d List.mem_cons_self
    have hstart := filesystemSerializeHelper_eq d
    rw [serializeFolders, List.length_append] at hfuel
    have hpos : 0 < (filesystemSerializeHelper d).length := by
      rw [hstart]
      exact Nat.succ_pos _
    have hcons : filesystemSerializeHelper d =
        folderStart :: (filesystemSerializeHelper d).tail := by
      rw [hstart]
      rfl
    have hread := hd fuel (serializeFolders ds ++ folderEnd :: rest) (by omega)
    have hfuel' : (serializeFolders ds).length < fuel := by omega
    have hrest := ih { f with folders := f.folders ++ [d] }
      (fun d' hd' => hds d' (List.mem_cons_of_mem _ hd')) hfuel'
    rw [serializeFolders, hcons, List.append_assoc, List.cons_append, deserializeLoop_folderStart,
      hread]
    show deserializeLoop _ _ _ = _
    rw [hrest]
    simp

/-- The files, and then the subfolders. -/
theorem deserializeLoop_files (f : Folder) (rest : List UInt8) {files : List File}
    {ds : List Folder} (hds : ∀ d ∈ ds, ReadsBack d)
    (hfuel : (files.flatMap serializeFile).length + (serializeFolders ds).length < fuel) :
    deserializeLoop fuel f
        (files.flatMap serializeFile ++ (serializeFolders ds ++ folderEnd :: rest)) =
      .ok ({ f with files := f.files ++ files, folders := f.folders ++ ds }, rest) := by
  induction files generalizing fuel f with
  | nil =>
    have hfuel : (serializeFolders ds).length < fuel := by simpa using hfuel
    have hfolders := deserializeLoop_folders f rest hds hfuel
    simpa using hfolders
  | cons file files ih =>
    obtain ⟨fuel, rfl⟩ := Nat.exists_eq_add_one_of_ne_zero (Nat.ne_zero_of_lt hfuel)
    rw [List.flatMap_cons, List.length_append] at hfuel
    have hpos : 0 < (serializeFile file).length := Nat.succ_pos _
    have hfuel' : (files.flatMap serializeFile).length + (serializeFolders ds).length < fuel := by
      omega
    have hrest := ih { f with files := f.files ++ [file] } hfuel'
    rw [List.flatMap_cons, List.append_assoc, serializeFile, List.cons_append,
      deserializeLoop_fileMarker, deserializeFile_append]
    show deserializeLoop _ _ _ = _
    rw [hrest]
    simp

/-- **Folders.** Every folder is read back, whatever follows it. -/
theorem readsBack (f : Folder) : ReadsBack f := by
  induction f using Folder.ind with
  | h f ih =>
    intro fuel rest hfuel
    obtain ⟨fuel, rfl⟩ : ∃ k, fuel = k + 1 := by
      rw [filesystemSerializeHelper_eq, List.length_cons] at hfuel
      exact ⟨fuel - 1, by omega⟩
    have hloop : (f.files.flatMap serializeFile).length + (serializeFolders f.folders).length <
        fuel := by
      rw [filesystemSerializeHelper_eq, List.length_cons, List.length_append, List.length_append,
        List.length_append, length_pushString, List.length_singleton] at hfuel
      omega
    rw [filesystemSerializeHelper_eq, List.tail_cons, filesystemDeserializeHelper,
      List.append_assoc, readString_pushString, List.append_assoc, List.append_assoc]
    have hread := deserializeLoop_files ⟨f.name, [], []⟩ rest ih hloop
    cases f
    exact hread

/-! ## Trees -/

variable {filesystem : FileSystem}

/-- **Trees.** Every tree is read back, and `bytesRead` is its length whatever follows it. -/
theorem filesystemDeserialize_append : filesystemDeserialize (filesystemSerialize filesystem ++ rest)
    = .ok (⟨none, filesystem.root⟩, (filesystemSerialize filesystem).length) := by
  have hread := readsBack filesystem.root ((filesystemSerialize filesystem ++ rest).length + 1) rest
    (by rw [List.length_append]; exact Nat.le_succ_of_le (Nat.le_add_right _ _))
  have hdrop : (filesystemSerialize filesystem ++ rest).drop 1 =
      (filesystemSerializeHelper filesystem.root).tail ++ rest := by
    unfold filesystemSerialize
    rw [filesystemSerializeHelper_eq]
    rfl
  unfold filesystemDeserialize
  rw [hdrop, hread]
  show Except.ok (_, _ - _) = _
  rw [List.length_append, Nat.add_sub_cancel]

end DartSync
