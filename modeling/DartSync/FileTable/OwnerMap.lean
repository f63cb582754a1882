import DartSync.FileTable.Entries

/-!
# File tables as maps

What the operations of `FileTable.c` do to the owners of the chunks is said on a map from paths to
owner lists (`ownersCall`). Whatever the sequence of calls, the table holds the map, each path at most
once and no owner twice, and a call leaves the entries alone that it does not name:
`filetable_refines_map`.
-/

namespace DartSync

open KeyedList FileTable

/-! ## The files of a tree -/

mutual

/-- The files below `path` with their sizes. -/
def fileList (path : CString) : Folder → List (CString × UInt64)
  | ⟨_, files, folders⟩ =>
    (files.filter fun file => file.isFolder = 0).map
        (fun file => (addStrings [path, .slash, file.name], file.size)) ++
      fileLists path folders

def fileLists (path : CString) : List Folder → List (CString × UInt64)
  | [] => []
  | folder :: rest => fileList (addStrings [path, .slash, folder.name]) folder ++ fileLists path rest

end

/-- The paths of the files are distinct and the sizes fit an `int`. -/
structure Folder.IsListing (fs : Folder) : Prop where
  nodup : ((fileList .empty fs).map Prod.fst).Nodup
  size_lt : ∀ x ∈ fileList .empty fs, x.2.toNat < 2 ^ 31

instance : DecidablePred Folder.IsListing := fun fs => decidable_of_iff
  (((fileList .empty fs).map Prod.fst).Nodup ∧ ∀ x ∈ fileList .empty fs, x.2.toNat < 2 ^ 31)
  ⟨fun h => ⟨h.1, h.2⟩, fun h => ⟨h.nodup, h.size_lt⟩⟩

variable {fs : Folder} {path p : CString} {ds : List Folder} {x : CString × UInt64}
  {ft ft' : FileTable} {peer id : ℤ}

theorem fileLists_eq : fileLists path ds =
    ds.flatMap fun d => fileList (addStrings [path, .slash, d.name]) d := by
  induction ds with
  | nil => simp [fileLists]
  | cons d ds ih => rw [fileLists, ih, List.flatMap_cons]

theorem mem_fileList : x ∈ fileList path fs ↔
    (∃ e ∈ fs.files, e.isFolder = 0 ∧ x = (addStrings [path, .slash, e.name], e.size)) ∨
      ∃ d ∈ fs.folders, x ∈ fileList (addStrings [path, .slash, d.name]) d := by
  obtain ⟨name, files, folders⟩ := fs
  rw [fileList, List.mem_append, List.mem_map, fileLists_eq, List.mem_flatMap]
  refine or_congr ⟨?_, ?_⟩ Iff.rfl
  · rintro ⟨e, he, rfl⟩
    obtain ⟨he, hfile⟩ := List.mem_filter.mp he
    exact ⟨e, he, of_decide_eq_true hfile, rfl⟩
  · rintro ⟨e, he, hfile, rfl⟩
    exact ⟨e, List.mem_filter.mpr ⟨he, decide_eq_true hfile⟩, rfl⟩

/-- The item is the file `x`. -/
def IteratorItem.IsFile (item : IteratorItem) (x : CString × UInt64) : Prop :=
  item.path = x.1 ∧ item.length = intOfSize x.2

/-- What the loops over a tree take for a file is one. -/
theorem exists_fileList {y : File} (hy : y ∈ filesystemGetPathList true path fs)
    (hlength : 0 ≤ (filesystemiteratorNext y).length) :
    ∃ x ∈ fileList path fs, (filesystemiteratorNext y).IsFile x := by
  induction fs using Folder.ind generalizing path with
  | h f ih =>
    rcases mem_filesystemGetPathList_cases.mp hy with ⟨e, he, rfl⟩ | ⟨d, hd, hy⟩
    · rw [filesystemiteratorNext_listed] at hlength ⊢
      have hfile := (length_itemOf.mp hlength).1
      exact ⟨_, mem_fileList.mpr (Or.inl ⟨e, he, hfile, rfl⟩), rfl, if_neg (not_not.mpr hfile)⟩
    · obtain ⟨x, hx, hfile⟩ := ih d hd hy
      exact ⟨x, mem_fileList.mpr (Or.inr ⟨d, hd, hx⟩), hfile⟩

theorem exists_filesystemGetPathList (hx : x ∈ fileList path fs) :
    ∃ y ∈ filesystemGetPathList true path fs, (filesystemiteratorNext y).IsFile x := by
  induction fs using Folder.ind generalizing path with
  | h f ih =>
    rcases mem_fileList.mp hx with ⟨e, he, hfile, rfl⟩ | ⟨d, hd, hx⟩
    · refine ⟨listed path e, mem_filesystemGetPathList_cases.mpr (Or.inl ⟨e, he, rfl⟩), ?_⟩
      rw [filesystemiteratorNext_listed]
      exact ⟨rfl, if_neg (not_not.mpr hfile)⟩
    · obtain ⟨y, hy, hitem⟩ := ih d hd hx
      exact ⟨y, mem_filesystemGetPathList_cases.mpr (Or.inr ⟨d, hd, hy⟩), hitem⟩

/-- The loops over a listing act on the paths of its files. -/
theorem listsFile_iff_mem (hfs : fs.IsListing) :
    ListsFile (filesystemIteratorRelative true fs) p ↔ p ∈ (fileList .empty fs).map Prod.fst := by
  constructor
  · rintro ⟨item, hitem, hlength, rfl⟩
    obtain ⟨y, hy, rfl⟩ := List.mem_map.mp hitem
    obtain ⟨x, hx, hfile⟩ := exists_fileList hy hlength
    exact List.mem_map.mpr ⟨x, hx, hfile.1.symm⟩
  · intro hp
    obtain ⟨x, hx, rfl⟩ := List.mem_map.mp hp
    obtain ⟨y, hy, hfile⟩ := exists_filesystemGetPathList hx
    refine ⟨_, List.mem_map_of_mem hy, ?_, hfile.1⟩
    rw [hfile.2, intOfSize_eq (hfs.size_lt x hx)]
    exact Int.natCast_nonneg _

/-! ## What the operations do to the owners -/

/-- The owners of the chunks of each file. -/
abbrev OwnerMap := CString → Option (List (List ℤ))

/-- The chunks of a new file. -/
def newChunks (size : UInt64) (peer : ℤ) : List (List ℤ) :=
  List.replicate (numChunksForSize size.toNat).toNat [peer]

/-- `peer` after the other owners, unless it is one. -/
def addOwner (peer : ℤ) (owners : List ℤ) : List ℤ :=
  if peer ∈ owners then owners else owners ++ [peer]

inductive FileTableCall
  | addFilesystem (filesystem : Folder) (peer : ℤ) (needsData : Bool) (rand : Rand)
  | removeFilesystem (filesystem : Folder)
  | removeFile (path : CString)
  | removePeer (id : ℤ)
  | setThatPeerHasFileChunk (path : CString) (peer : ℤ) (chunkNum : ℕ)

/-- What a call does to the owners; `none` where the tree is no listing or the file does not have the
chunk. -/
def ownersCall (m : OwnerMap) : FileTableCall → Option OwnerMap
  | .addFilesystem filesystem peer _ _ =>
    if filesystem.IsListing then
      some fun p => match findKey Prod.fst p (fileList .empty filesystem) with
        | some (_, size) => some (newChunks size peer)
        | none => m p
    else none
  | .removeFilesystem filesystem =>
    if filesystem.IsListing then
      some fun p => if p ∈ (fileList .empty filesystem).map Prod.fst then none else m p
    else none
  | .removeFile path => some (Function.update m path none)
  | .removePeer id => some fun p => (m p).map (List.map (List.filter (· ≠ id)))
  | .setThatPeerHasFileChunk path peer chunkNum =>
    match m path with
    | none => none
    | some chunks =>
      if chunkNum < chunks.length then
        some (Function.update m path (some (chunks.modify chunkNum (addOwner peer))))
      else none

/-- What the code does. -/
def filetableCall (ft : FileTable) : FileTableCall → Except Abort FileTable
  | .addFilesystem filesystem peer needsData rand =>
    .ok (filetableAddFilesystem ft filesystem peer needsData rand).1
  | .removeFilesystem filesystem => .ok (filetableRemoveFilesystem ft filesystem)
  | .removeFile path => .ok (filetableRemoveFile ft path)
  | .removePeer id => .ok (filetableRemovePeer ft id)
  | .setThatPeerHasFileChunk path peer chunkNum =>
    filetableSetThatPeerHasFileChunk ft path peer chunkNum

/-- The call is about the entry of `p`. -/
def FileTableCall.Names (p : CString) : FileTableCall → Prop
  | .addFilesystem filesystem _ _ _ => p ∈ (fileList .empty filesystem).map Prod.fst
  | .removeFilesystem filesystem => p ∈ (fileList .empty filesystem).map Prod.fst
  | .removeFile path => p = path
  | .removePeer _ => True
  | .setThatPeerHasFileChunk path _ _ => p = path

/-- The owners that a table holds. -/
def owners (ft : FileTable) : OwnerMap := fun p => (ft.lookup p).map FileTableEntry.chunks

/-- The entry of a file that has just been added. -/
structure FileTableEntry.IsFresh (e : FileTableEntry) (x : CString × UInt64) (peer : ℤ)
    (needsData : Bool) : Prop where
  path : e.path = x.1
  file : e.file = none
  chunks : e.chunks = newChunks x.2 peer
  workQueue : e.workQueue.Perm (if needsData then chunkNumbers (numChunksForSize x.2.toNat) else [])
  outstandingRequests : e.outstandingRequests = []

theorem map_chunkNumbers (n : ℤ) (peer : ℤ) :
    (chunkNumbers n).map (fun _ => [peer]) = List.replicate n.toNat [peer] := by
  unfold chunkNumbers
  rw [List.map_map]
  exact List.map_const'.trans (by rw [List.length_range])

/-- The item at the path of a listed file has its length. -/
theorem length_of_listed {item : IteratorItem} (hfs : fs.IsListing) (hx : x ∈ fileList .empty fs)
    (hitem : item ∈ filesystemIteratorRelative true fs) (hlength : 0 ≤ item.length)
    (hpath : item.path = x.1) : item.length = x.2.toNat := by
  obtain ⟨y, hy, rfl⟩ := List.mem_map.mp hitem
  obtain ⟨x', hx', hfile⟩ := exists_fileList hy hlength
  have hxx' : x' = x := by
    have hfind := findKey_of_mem hfs.nodup hx'
    rw [← hfile.1, hpath, findKey_of_mem hfs.nodup hx] at hfind
    exact (Option.some.inj hfind).symm
  subst hxx'
  rw [hfile.2, intOfSize_eq (hfs.size_lt x' hx')]

/-- Adding a listing makes a fresh entry for each of its files. -/
theorem lookup_filetableAddFilesystem_of_mem (ft : FileTable) (hfs : fs.IsListing) (peer : ℤ)
    (needsData : Bool)
    (rand : Rand) (hx : x ∈ fileList .empty fs) : ∃ e,
      (filetableAddFilesystem ft fs peer needsData rand).1.lookup x.1 = some e ∧
        e.IsFresh x peer needsData := by
  have hadd : ∃ e, (filetableAddFilesystem ft fs peer needsData rand).1.lookup x.1 = some e ∧
      IsNewEntry (filesystemIteratorRelative true fs) peer needsData x.1 e :=
    (lookup_foldl_addItem (ft, rand)).1 ((listsFile_iff_mem hfs).mpr (List.mem_map_of_mem hx))
  obtain ⟨_, he, item, hitem, workQueue, hlength, hpath, rfl, hperm⟩ := hadd
  have hsize := length_of_listed hfs hx hitem hlength hpath
  rw [hsize] at hperm
  refine ⟨_, he, hpath, rfl, ?_, hperm, rfl⟩
  show (chunkNumbers (numChunksForSize item.length)).map _ = _
  rw [hsize, map_chunkNumbers]
  rfl

/-- Adding a listing leaves the other entries as they are. -/
theorem lookup_filetableAddFilesystem_of_notMem {needsData : Bool} {rand : Rand} (hfs : fs.IsListing)
    (hp : p ∉ (fileList .empty fs).map Prod.fst) :
    (filetableAddFilesystem ft fs peer needsData rand).1.lookup p = ft.lookup p :=
  (lookup_foldl_addItem (ft, rand)).2 (mt (listsFile_iff_mem hfs).mp hp)

theorem lookup_filetableRemoveFilesystem_listing (hfs : fs.IsListing) :
    (filetableRemoveFilesystem ft fs).lookup p =
      if p ∈ (fileList .empty fs).map Prod.fst then none else ft.lookup p := by
  refine Option.ext fun e => ?_
  have hiff : (filetableRemoveFilesystem ft fs).lookup p = some e ↔
      ft.lookup p = some e ∧ p ∉ (fileList .empty fs).map Prod.fst := by
    rw [← listsFile_iff_mem hfs]
    exact lookup_foldl_erase
  rw [hiff]
  split_ifs with hp
  · exact ⟨fun h => absurd hp h.2, nofun⟩
  · exact and_iff_left hp

theorem owners_overwrite {e : FileTableEntry} {chunks : List (List ℤ)} (h : ft.lookup path = some e) :
    owners (ft.overwrite { e with chunks := chunks }) =
      Function.update (owners ft) path (some chunks) := by
  have hpath := path_of_lookup h
  funext p
  unfold owners
  rw [lookup_overwrite_of_lookup h (by exact hpath), Function.update_apply]
  split_ifs <;> rfl

theorem owners_filetableAddFilesystem (ft : FileTable) (hfs : fs.IsListing) (peer : ℤ)
    (needsData : Bool) (rand : Rand) :
    owners (filetableAddFilesystem ft fs peer needsData rand).1 = fun p =>
      match findKey Prod.fst p (fileList .empty fs) with
      | some (_, size) => some (newChunks size peer)
      | none => owners ft p := by
  funext p
  cases hfind : findKey Prod.fst p (fileList .empty fs) with
  | none =>
    have hp := findKey_eq_none.mp hfind
    unfold owners
    rw [lookup_filetableAddFilesystem_of_notMem hfs hp]
  | some x =>
    obtain ⟨e, he, hfresh⟩ := lookup_filetableAddFilesystem_of_mem ft hfs peer needsData rand
      (mem_of_findKey hfind)
    rw [key_of_findKey hfind] at he
    unfold owners
    rw [he]
    exact congrArg some hfresh.chunks

theorem owners_filetableRemoveFilesystem (ft : FileTable) (hfs : fs.IsListing) :
    owners (filetableRemoveFilesystem ft fs) = fun p =>
      if p ∈ (fileList .empty fs).map Prod.fst then none else owners ft p := by
  funext p
  unfold owners
  rw [lookup_filetableRemoveFilesystem_listing hfs]
  split_ifs <;> rfl

theorem owners_filetableRemoveFile (ft : FileTable) (path : CString) :
    owners (filetableRemoveFile ft path) = Function.update (owners ft) path none := by
  funext p
  unfold owners filetableRemoveFile
  rw [lookup_erase, Function.update_apply]
  split_ifs <;> rfl

theorem owners_filetableRemovePeer (ft : FileTable) (id : ℤ) :
    owners (filetableRemovePeer ft id) =
      fun p => (owners ft p).map (List.map (List.filter (· ≠ id))) := by
  funext p
  unfold owners
  rw [lookup_filetableRemovePeer, Option.map_map, Option.map_map]
  rfl

/-- The owner is added where it is missing, and no other entry changes. -/
theorem owners_filetableSetThatPeerHasFileChunk {e : FileTableEntry} (hlook : ft.lookup path = some e)
    {chunkNum : ℕ} (hlt : chunkNum < e.chunks.length) (peer : ℤ) :
    ∃ ft', filetableSetThatPeerHasFileChunk ft path peer chunkNum = .ok ft' ∧
      owners ft' =
        Function.update (owners ft) path (some (e.chunks.modify chunkNum (addOwner peer))) ∧
      ∀ p, p ≠ path → ft'.lookup p = ft.lookup p := by
  have hm : owners ft path = some e.chunks := by
    unfold owners
    rw [hlook]
    rfl
  have hchunk : ft.HasChunk path chunkNum :=
    ⟨e, hlook, Int.natCast_nonneg chunkNum, Int.ofNat_lt.mpr hlt⟩
  have hisOk : ∃ ft', filetableSetThatPeerHasFileChunk ft path peer chunkNum = .ok ft' :=
    filetableSetThatPeerHasFileChunk_isOk.mpr hchunk
  obtain ⟨ft', hset⟩ := hisOk
  obtain ⟨e', peers, hlook', -, hpeers, rfl⟩ := filetableSetThatPeerHasFileChunk_ok hset
  rw [hlook] at hlook'
  cases hlook'
  refine ⟨_, hset, ?_, ?_⟩
  · have hmodify : e.chunks.modify chunkNum (addOwner peer) =
        e.chunks.set chunkNum (addOwner peer peers) := by
      have hpeers : e.chunks[chunkNum]? = some peers := hpeers
      rw [List.modify_eq_set_getElem?, hpeers]
      rfl
    rw [hmodify, addOwner]
    split_ifs with hmem
    · obtain ⟨hlt, rfl⟩ := List.getElem?_eq_some_iff.mp hpeers
      have hset : e.chunks.set chunkNum e.chunks[(chunkNum : ℤ).toNat] = e.chunks :=
        List.set_getElem_self hlt
      rw [hset, ← hm, Function.update_eq_self]
    · exact owners_overwrite hlook
  · intro p hp
    split_ifs
    · rfl
    · have hpath := path_of_lookup hlook
      rw [lookup_overwrite_of_lookup hlook (by exact hpath)]
      exact if_neg hp

/-- What one call does: to the owners what it does to the map, to the entries it does not name
nothing. -/
theorem filetableCall_owners {call : FileTableCall} {m : OwnerMap}
    (hcall : ownersCall (owners ft) call = some m) :
    ∃ ft', filetableCall ft call = .ok ft' ∧ owners ft' = m ∧
      ∀ p, ¬ call.Names p → ft'.lookup p = ft.lookup p := by
  cases call with
  | addFilesystem filesystem peer needsData rand =>
    rw [ownersCall] at hcall
    split_ifs at hcall with hfs
    cases hcall
    exact ⟨_, rfl, owners_filetableAddFilesystem ft hfs peer needsData rand,
      fun p hp => lookup_filetableAddFilesystem_of_notMem hfs hp⟩
  | removeFilesystem filesystem =>
    rw [ownersCall] at hcall
    split_ifs at hcall with hfs
    cases hcall
    refine ⟨_, rfl, owners_filetableRemoveFilesystem ft hfs, fun p hp => ?_⟩
    rw [lookup_filetableRemoveFilesystem_listing hfs]
    exact if_neg hp
  | removeFile path =>
    cases hcall
    exact ⟨_, rfl, owners_filetableRemoveFile ft path, fun p hp => lookup_erase.trans (if_neg hp)⟩
  | removePeer id =>
    cases hcall
    exact ⟨_, rfl, owners_filetableRemovePeer ft id, fun p hp => absurd trivial hp⟩
  | setThatPeerHasFileChunk path peer chunkNum =>
    rw [ownersCall] at hcall
    cases hlook : ft.lookup path with
    | none =>
      unfold owners at hcall
      rw [hlook] at hcall
      cases hcall
    | some e =>
      have hm : owners ft path = some e.chunks := by
        unfold owners
        rw [hlook]
        rfl
      rw [hm] at hcall
      dsimp only at hcall
      split_ifs at hcall with hlt
      cases hcall
      exact owners_filetableSetThatPeerHasFileChunk hlook hlt peer

/-! ## Sequences of calls -/

/-- The calls one after another, on the map. -/
def ownersCalls (m : OwnerMap) (calls : List FileTableCall) : Option OwnerMap :=
  calls.foldlM ownersCall m

/-- The calls one after another, on the table. -/
def filetableCalls (ft : FileTable) (calls : List FileTableCall) : Except Abort FileTable :=
  calls.foldlM filetableCall ft

/-- No owner is listed twice. -/
def NodupOwners (m : OwnerMap) : Prop :=
  ∀ p chunks, m p = some chunks → ∀ peers ∈ chunks, peers.Nodup

theorem nodup_addOwner {peers : List ℤ} (h : peers.Nodup) : (addOwner peer peers).Nodup := by
  unfold addOwner
  split_ifs with hmem
  · exact h
  · exact List.nodup_append.mpr ⟨h, List.nodup_singleton _, fun x hx y hy heq =>
      hmem (List.mem_singleton.mp hy ▸ heq ▸ hx)⟩

theorem nodup_modify_addOwner {chunks : List (List ℤ)} {chunkNum : ℕ}
    (h : ∀ peers ∈ chunks, peers.Nodup) :
    ∀ peers ∈ chunks.modify chunkNum (addOwner peer), peers.Nodup := by
  intro peers hpeers
  obtain ⟨i, hi⟩ := List.getElem?_of_mem hpeers
  rw [List.getElem?_modify] at hi
  obtain ⟨peers', hpeers', rfl⟩ := Option.map_eq_some_iff.mp hi
  have hnodup := h peers' (List.mem_of_getElem? hpeers')
  split_ifs
  · exact nodup_addOwner hnodup
  · exact hnodup

theorem NodupOwners.call {m m' : OwnerMap} (h : NodupOwners m) {call : FileTableCall}
    (hcall : ownersCall m call = some m') : NodupOwners m' := by
  intro p chunks hchunks
  cases call with
  | addFilesystem filesystem peer needsData rand =>
    rw [ownersCall] at hcall
    split_ifs at hcall with hfs
    cases hcall
    dsimp only at hchunks
    cases hfind : findKey Prod.fst p (fileList .empty filesystem) with
    | none =>
      rw [hfind] at hchunks
      exact h p chunks hchunks
    | some x =>
      rw [hfind] at hchunks
      cases hchunks
      intro peers hpeers
      rw [List.eq_of_mem_replicate hpeers]
      exact List.nodup_singleton peer
  | removeFilesystem filesystem =>
    rw [ownersCall] at hcall
    split_ifs at hcall with hfs
    cases hcall
    dsimp only at hchunks
    split_ifs at hchunks
    exact h p chunks hchunks
  | removeFile path =>
    cases hcall
    rw [Function.update_apply] at hchunks
    split_ifs at hchunks
    exact h p chunks hchunks
  | removePeer id =>
    cases hcall
    obtain ⟨chunks', hchunks', rfl⟩ := Option.map_eq_some_iff.mp hchunks
    intro peers hpeers
    obtain ⟨peers', hpeers', rfl⟩ := List.mem_map.mp hpeers
    exact (h p chunks' hchunks' peers' hpeers').filter _
  | setThatPeerHasFileChunk path peer chunkNum =>
    rw [ownersCall] at hcall
    cases hm : m path with
    | none => rw [hm] at hcall; cases hcall
    | some chunks' =>
      rw [hm] at hcall
      dsimp only at hcall
      split_ifs at hcall with hlt
      cases hcall
      rw [Function.update_apply] at hchunks
      split_ifs at hchunks with hp
      · cases hchunks
        exact nodup_modify_addOwner (h path chunks' hm)
      · exact h p chunks hchunks

/-- The table is the map, with one entry at most for a path and no owner twice. -/
structure FileTable.IsMap (ft : FileTable) (m : OwnerMap) : Prop where
  owners_eq : owners ft = m
  paths : (ft.entries.map FileTableEntry.path).Nodup
  nodup : NodupOwners m

theorem isMap_filetableNew : filetableNew.IsMap fun _ => none where
  owners_eq := funext fun p => by unfold owners; rw [lookup_filetableNew]; rfl
  paths := filetableNew.nodup_entries
  nodup p chunks h := nomatch h

/-- What one call preserves. -/
theorem FileTable.IsMap.call {m m' : OwnerMap} (h : ft.IsMap m) {call : FileTableCall}
    (hcall : ownersCall m call = some m') :
    ∃ ft', filetableCall ft call = .ok ft' ∧ ft'.IsMap m' ∧
      ∀ p, ¬ call.Names p → ft'.lookup p = ft.lookup p := by
  obtain ⟨ft', hok, howners, hframe⟩ := filetableCall_owners (h.owners_eq ▸ hcall)
  exact ⟨ft', hok, ⟨howners, ft'.nodup_entries, h.nodup.call hcall⟩, hframe⟩

/-- What a sequence of calls preserves. -/
theorem FileTable.IsMap.calls {m m' : OwnerMap} (h : ft.IsMap m) {calls : List FileTableCall}
    (hcalls : ownersCalls m calls = some m') :
    ∃ ft', filetableCalls ft calls = .ok ft' ∧ ft'.IsMap m' := by
  induction calls generalizing ft m with
  | nil =>
    cases hcalls
    exact ⟨ft, rfl, h⟩
  | cons call calls ih =>
    obtain ⟨m1, hcall, hrest⟩ := Option.bind_eq_some_iff.mp hcalls
    obtain ⟨ft1, hok, h1, -⟩ := h.call hcall
    obtain ⟨ft', hcalls', h'⟩ := ih h1 hrest
    exact ⟨ft', bind_eq_ok.mpr ⟨ft1, hok, hcalls'⟩, h'⟩

/-- **File tables are maps.** After a sequence of calls that is allowed on the map the table is the
map; the next call does to the table what it does to the map and leaves the entries as they are that
it does not name. When the files of one tree are removed and then those of another one added, each
of these has its fresh entry only. -/
theorem filetable_refines_map (calls : List FileTableCall) (m : OwnerMap)
    (hcalls : ownersCalls (fun _ => none) calls = some m) :
    ∃ ft, filetableCalls filetableNew calls = .ok ft ∧ ft.IsMap m ∧
      (∀ call m', ownersCall m call = some m' → ∃ ft', filetableCall ft call = .ok ft' ∧
        ft'.IsMap m' ∧ ∀ p, ¬ call.Names p → ft'.lookup p = ft.lookup p) ∧
      ∀ (deletions additions : Folder) (peer : ℤ) (needsData : Bool) (rand : Rand),
        additions.IsListing → ∀ x ∈ fileList .empty additions, ∃ e,
          ((filetableAddFilesystem (filetableRemoveFilesystem ft deletions) additions peer needsData
            rand).1.entries.filter fun e => e.path = x.1) = [e] ∧ e.IsFresh x peer needsData := by
  obtain ⟨ft, hok, h⟩ := isMap_filetableNew.calls hcalls
  refine ⟨ft, hok, h, fun call m' hcall => h.call hcall, ?_⟩
  intro deletions additions peer needsData rand hadditions x hx
  obtain ⟨e, he, hfresh⟩ := lookup_filetableAddFilesystem_of_mem
    (filetableRemoveFilesystem ft deletions) hadditions peer needsData rand hx
  rw [lookup_eq] at he
  exact ⟨e, filter_key (FileTable.nodup_entries _) he, hfresh⟩

namespace OwnerMapExample

/-- The file `"a"`. -/
def file : File := ⟨⟨[97], by decide⟩, 5, 0, 0⟩

/-- The path `"/a"`. -/
def filePath : CString := ⟨[47, 97], by decide⟩

def calls : List FileTableCall :=
  [.addFilesystem ⟨.empty, [file], []⟩ 1 false fun _ => 0, .setThatPeerHasFileChunk filePath 2 0,
    .removePeer 1, .setThatPeerHasFileChunk filePath 3 0]

theorem isSome_ownersCalls : (ownersCalls (fun _ => none) calls).isSome = true := by decide

def map : OwnerMap := (ownersCalls (fun _ => none) calls).get isSome_ownersCalls

end OwnerMapExample

open OwnerMapExample in
theorem filetable_refines_map_one_file :
    (∃ ft, filetableCalls filetableNew calls = .ok ft ∧ ft.IsMap map) ∧ map filePath = some [[2, 3]] := by
  refine ⟨?_, by decide⟩
  obtain ⟨ft, hok, h, -⟩ := filetable_refines_map calls map (Option.some_get isSome_ownersCalls).symm
  exact ⟨ft, hok, h⟩

end DartSync
