import DartSync.Client.Steps
import DartSync.Client.WorkQueue

/-!
# The owners of chunks

What each operation does to the lists of owners: most leave them alone; a diff or a local change puts
the author alone there, a master or a deletion takes the entry away. So the entry of a file and its
chunks stay unless an event lists the file (`hasChunk_step`), and an owner that is new in a table is
the author of a change or the owner in an acquisition (`isOwner_step`).
-/

namespace DartSync

open FileTable

variable {c c' : Client} {ev : ClientEvent} {sent : List ClientMessage} {ft ft' : FileTable}
  {e e' : FileTableEntry} {p path : CString} {k peer owner : ℤ} {items : List IteratorItem}
  {item : IteratorItem} {additions deletions fs : Folder} {needsData : Bool} {rand : Rand}

/-! ## Tables -/

/-- The owners of the chunks of a file. -/
def FileTable.ownersAt (ft : FileTable) (p : CString) : Option (List (List ℤ)) :=
  (ft.lookup p).map FileTableEntry.chunks

/-- The table lists the peer as an owner of the chunk. -/
def FileTable.IsOwner (ft : FileTable) (p : CString) (k owner : ℤ) : Prop :=
  ∃ chunks owners, ft.ownersAt p = some chunks ∧ 0 ≤ k ∧ chunks[k.toNat]? = some owners ∧
    owner ∈ owners

theorem hasChunk_iff : ft.HasChunk p k ↔
    ∃ chunks, ft.ownersAt p = some chunks ∧ 0 ≤ k ∧ k < chunks.length := by
  unfold FileTable.HasChunk FileTable.ownersAt
  simp only [Option.map_eq_some_iff, exists_exists_and_eq_and]

theorem FileTable.HasChunk.congr (h : ft.HasChunk p k) (heq : ft'.ownersAt p = ft.ownersAt p) :
    ft'.HasChunk p k := by
  rw [hasChunk_iff, heq, ← hasChunk_iff]
  exact h

theorem FileTable.IsOwner.congr (h : ft'.IsOwner p k owner) (heq : ft'.ownersAt p = ft.ownersAt p) :
    ft.IsOwner p k owner := by
  obtain ⟨chunks, owners, hchunks, h⟩ := h
  exact ⟨chunks, owners, by rw [← heq, hchunks], h⟩

theorem FileTable.IsUpdate.ownersAt (h : FileTable.IsUpdate ft ft' path e')
    (he : ft.lookup path = some e) (hchunks : e'.chunks = e.chunks) :
    ft'.ownersAt p = ft.ownersAt p := by
  unfold FileTable.ownersAt
  rw [h p]
  split_ifs with hp
  · rw [hp, he, Option.map_some, Option.map_some, hchunks]
  · rfl

@[simp] theorem ownersAt_filetableSetChunkyfile {file : Option ChunkyFile} :
    (filetableSetChunkyfile ft path file).ownersAt p = ft.ownersAt p := by
  unfold FileTable.ownersAt
  rw [lookup_filetableSetChunkyfile]
  split_ifs
  · rw [Option.map_map]
    rfl
  · rfl

theorem ownersAt_filetableRemovePeer : (filetableRemovePeer ft peer).ownersAt p =
    (ft.ownersAt p).map fun chunks => chunks.map fun owners => owners.filter fun id => id ≠ peer := by
  unfold FileTable.ownersAt
  rw [lookup_filetableRemovePeer, Option.map_map, Option.map_map]
  rfl

theorem isOwner_filetableRemovePeer (h : (filetableRemovePeer ft peer).IsOwner p k owner) :
    ft.IsOwner p k owner := by
  obtain ⟨chunks, owners, hchunks, hpos, howners, hmem⟩ := h
  rw [ownersAt_filetableRemovePeer] at hchunks
  obtain ⟨chunks, hold, rfl⟩ := Option.map_eq_some_iff.mp hchunks
  rw [List.getElem?_map] at howners
  obtain ⟨owners, hget, rfl⟩ := Option.map_eq_some_iff.mp howners
  exact ⟨chunks, owners, hold, hpos, hget, List.mem_of_mem_filter hmem⟩

theorem hasChunk_filetableRemovePeer (h : ft.HasChunk p k) :
    (filetableRemovePeer ft peer).HasChunk p k := by
  obtain ⟨chunks, hchunks, hpos, hlt⟩ := hasChunk_iff.mp h
  have howners : (filetableRemovePeer ft peer).ownersAt p = _ := ownersAt_filetableRemovePeer
  rw [hchunks, Option.map_some] at howners
  exact hasChunk_iff.mpr ⟨_, howners, hpos, by rwa [List.length_map]⟩

theorem ownersAt_filetableRemoveFilesystem : (filetableRemoveFilesystem ft fs).ownersAt p =
    if ListsFile (filesystemIteratorRelative true fs) p then none else ft.ownersAt p := by
  unfold FileTable.ownersAt
  split_ifs with hlists
  · have hnone : (filetableRemoveFilesystem ft fs).lookup p = none :=
      Option.eq_none_iff_forall_not_mem.mpr fun e he => (lookup_foldl_erase.mp he).2 hlists
    rw [hnone, Option.map_none]
  · have hsame : (filetableRemoveFilesystem ft fs).lookup p = ft.lookup p :=
      Option.ext fun e => lookup_foldl_erase.trans (and_iff_left hlists)
    rw [hsame]

theorem isOwner_filetableRemoveFilesystem
    (h : (filetableRemoveFilesystem ft fs).IsOwner p k owner) : ft.IsOwner p k owner := by
  obtain ⟨chunks, owners, hchunks, h⟩ := h
  rw [ownersAt_filetableRemoveFilesystem] at hchunks
  split_ifs at hchunks
  exact ⟨chunks, owners, hchunks, h⟩

theorem ownersAt_filetableAddFilesystem_of_not
    (hnot : ¬ ListsFile (filesystemIteratorRelative true fs) p) :
    (filetableAddFilesystem ft fs peer needsData rand).1.ownersAt p = ft.ownersAt p :=
  congrArg (Option.map FileTableEntry.chunks) ((lookup_foldl_addItem (ft, rand)).2 hnot)

/-- The author of a tree has all chunks of its files. -/
theorem ownersAt_filetableAddFilesystem (ft : FileTable) (peer : ℤ) (needsData : Bool) (rand : Rand)
    (h : ListsFile (filesystemIteratorRelative true fs) p) :
    ∃ item ∈ filesystemIteratorRelative true fs, 0 ≤ item.length ∧ item.path = p ∧
      (filetableAddFilesystem ft fs peer needsData rand).1.ownersAt p =
        some (List.replicate (numChunksForSize item.length).toNat [peer]) := by
  obtain ⟨e, he, item, hitem, workQueue, hlen, hpath, rfl, -⟩ := (lookup_foldl_addItem (ft, rand)).1 h
  refine ⟨item, hitem, hlen, hpath, ?_⟩
  unfold FileTable.ownersAt filetableAddFilesystem
  rw [he, Option.map_some]
  show some ((chunkNumbers _).map fun _ => [peer]) = _
  unfold chunkNumbers
  rw [List.map_map, ← List.length_range (n := (numChunksForSize item.length).toNat),
    ← List.map_const', List.length_range]
  rfl

/-- An owner after a tree has been added: its author, or an owner of another file. -/
theorem isOwner_filetableAddFilesystem
    (h : (filetableAddFilesystem ft fs peer needsData rand).1.IsOwner p k owner) :
    ListsFile (filesystemIteratorRelative true fs) p ∧ owner = peer ∨
      ¬ ListsFile (filesystemIteratorRelative true fs) p ∧ ft.IsOwner p k owner := by
  by_cases hlists : ListsFile (filesystemIteratorRelative true fs) p
  · obtain ⟨item, -, -, -, howners⟩ := ownersAt_filetableAddFilesystem ft peer needsData rand hlists
    obtain ⟨chunks, owners, hchunks, -, hget, hmem⟩ := h
    rw [howners] at hchunks
    cases hchunks
    have howner := List.eq_of_mem_replicate (List.mem_of_getElem? hget)
    rw [howner, List.mem_singleton] at hmem
    exact Or.inl ⟨hlists, hmem⟩
  · exact Or.inr ⟨hlists, h.congr (ownersAt_filetableAddFilesystem_of_not hlists)⟩

/-- An owner after an acquisition: the one in the acquisition, or an owner before. -/
theorem isOwner_filetableSetThatPeerHasFileChunk {chunk : ℤ}
    (hok : filetableSetThatPeerHasFileChunk ft path peer chunk = .ok ft')
    (h : ft'.IsOwner p k owner) : ft.IsOwner p k owner ∨ p = path ∧ k = chunk ∧ owner = peer := by
  obtain ⟨e, owners, he, hpos, howners, rfl⟩ := filetableSetThatPeerHasFileChunk_ok hok
  split_ifs at h
  · exact Or.inl h
  · obtain ⟨chunks', owners', hchunks, hk, hget, hmem⟩ := h
    have hpath := path_of_lookup he
    unfold FileTable.ownersAt at hchunks
    rw [lookup_overwrite_of_lookup he (by exact hpath)] at hchunks
    split_ifs at hchunks with hp
    · cases hchunks
      rw [List.getElem?_set] at hget
      split_ifs at hget with heq hlt
      · cases hget
        rcases List.mem_append.mp hmem with hmem | hmem
        · refine Or.inl ⟨e.chunks, owners, ?_, hk, by rw [← heq, howners], hmem⟩
          unfold FileTable.ownersAt
          rw [hp, he, Option.map_some]
        · exact Or.inr ⟨hp, by omega, List.mem_singleton.mp hmem⟩
      · refine Or.inl ⟨e.chunks, owners', ?_, hk, hget, hmem⟩
        unfold FileTable.ownersAt
        rw [hp, he, Option.map_some]
    · exact Or.inl ⟨chunks', owners', hchunks, hk, hget, hmem⟩

theorem hasChunk_filetableSetThatPeerHasFileChunk {chunk : ℤ}
    (hok : filetableSetThatPeerHasFileChunk ft path peer chunk = .ok ft') (h : ft.HasChunk p k) :
    ft'.HasChunk p k := by
  obtain ⟨e, owners, he, -, -, rfl⟩ := filetableSetThatPeerHasFileChunk_ok hok
  split_ifs
  · exact h
  · have hpath := path_of_lookup he
    obtain ⟨e0, he0, hpos, hlt⟩ := h
    unfold FileTable.HasChunk
    rw [lookup_overwrite_of_lookup he (by exact hpath)]
    split_ifs with hp
    · rw [hp, he] at he0
      cases he0
      exact ⟨_, rfl, hpos, by rwa [List.length_set]⟩
    · exact ⟨e0, he0, hpos, hlt⟩

/-- The tree has the file, with that chunk. -/
def AddsChunk (fs : Folder) (p : CString) (k : ℤ) : Prop :=
  ListsFile (filesystemIteratorRelative true fs) p ∧
    ∀ item ∈ filesystemIteratorRelative true fs, 0 ≤ item.length → item.path = p →
      0 ≤ k ∧ k < numChunksForSize item.length

instance (fs : Folder) (p : CString) (k : ℤ) : Decidable (AddsChunk fs p k) :=
  inferInstanceAs (Decidable (_ ∧ ∀ _ ∈ _, _))

theorem hasChunk_filetableAddFilesystem (h : AddsChunk fs p k) :
    (filetableAddFilesystem ft fs peer needsData rand).1.HasChunk p k := by
  obtain ⟨item, hitem, hlen, hpath, howners⟩ :=
    ownersAt_filetableAddFilesystem ft peer needsData rand h.1
  obtain ⟨hpos, hlt⟩ := h.2 item hitem hlen hpath
  refine hasChunk_iff.mpr ⟨_, howners, hpos, ?_⟩
  rw [List.length_replicate]
  omega

/-! ## Handlers -/

theorem ownersAt_prepareAdditions (dir : Directory) (additions : Folder) :
    (prepareAdditions dir ft additions).2.ownersAt p = ft.ownersAt p :=
  prepareAdditions_induct (R := fun ft' => ft'.ownersAt p = ft.ownersAt p) rfl fun _ _ _ _ h =>
    ownersAt_filetableSetChunkyfile.trans h

theorem ownersAt_getFileAdditions {dir dir' : Directory}
    (hok : getFileAdditions dir ft additions = .ok (dir', ft')) : ft'.ownersAt p = ft.ownersAt p :=
  getFileAdditions_induct (R := fun ft' => ft'.ownersAt p = ft.ownersAt p) hok rfl fun _ _ _ _ h =>
    ownersAt_filetableSetChunkyfile.trans h

theorem ownersAt_filetableEnqueueWorkForFilesystem {st : FileTable × Rand}
    (h : filetableEnqueueWorkForFilesystem ft fs rand = .ok st) :
    st.1.ownersAt p = ft.ownersAt p := by
  obtain ⟨hnone, hsome⟩ := foldlM_enqueueWorkForItem_ok h p
  unfold FileTable.ownersAt
  cases hlook : ft.lookup p with
  | none => rw [hnone.mpr hlook]
  | some e =>
    obtain ⟨e', he', henq⟩ := hsome e hlook
    rw [he', Option.map_some, Option.map_some, henq.chunks]

/-- The jobs are taken from entries that stay. -/
theorem lookup_isSome_checkWorkQueue (hok : checkWorkQueue c = .ok (c', sent)) :
    (c'.ft.lookup p).isSome ↔ (c.ft.lookup p).isSome := by
  have hloop : ∀ (l : List FileTableEntry) (st st' : FileTable × JobState × List ClientMessage),
      l.foldlM checkEntry st = .ok st' →
        ((st'.1.lookup p).isSome ↔ (st.1.lookup p).isSome) := by
    intro l
    induction l with
    | nil =>
      intro st st' h
      cases h
      exact Iff.rfl
    | cons e l ih =>
      intro st st' h
      rw [List.foldlM_cons] at h
      obtain ⟨st1, h1, h⟩ := bind_eq_ok.mp h
      obtain ⟨⟨e', jobs, sent⟩, -, h1⟩ := bind_eq_ok.mp h1
      cases h1
      refine (ih _ _ h).trans ?_
      rw [lookup_isSome, lookup_isSome, entries_overwrite, KeyedList.map_key_replaceKey rfl]
  obtain ⟨⟨ft', jobs, sent'⟩, hfold, h⟩ := bind_eq_ok.mp hok
  cases h
  exact hloop _ _ _ hfold

theorem ownersAt_checkWorkQueue (hok : checkWorkQueue c = .ok (c', sent)) :
    c'.ft.ownersAt p = c.ft.ownersAt p := by
  obtain ⟨requests, jobs, -, hwork, -⟩ := checkWorkQueue_ok hok
  have hsome : (c'.ft.lookup p).isSome ↔ (c.ft.lookup p).isSome := lookup_isSome_checkWorkQueue hok
  unfold FileTable.ownersAt
  cases he' : c'.ft.lookup p with
  | none =>
    rw [he'] at hsome
    rw [Option.not_isSome_iff_eq_none.mp (mt hsome.mpr (by simp))]
  | some e' =>
    obtain ⟨e, taken, he, htaken, -⟩ := hwork.lookup p e' he'
    rw [he, Option.map_some, Option.map_some, htaken.chunks]

theorem ownersAt_receiveChunkRequest {filepath : CString} {chunkId requestId : ℤ}
    (hok : receiveChunkRequest c peer filepath chunkId requestId = .ok (c', sent)) :
    c'.ft.ownersAt p = c.ft.ownersAt p := by
  obtain ⟨rfl | ⟨-, content, rfl⟩, -⟩ := receiveChunkRequest_ok hok
  · rfl
  · exact ownersAt_filetableSetChunkyfile

theorem ownersAt_receiveChunk {filepath : CString} {chunkId requestId : ℤ}
    {data : Option (List UInt8)}
    (hok : receiveChunk c filepath chunkId data requestId = .ok (c', sent)) :
    c'.ft.ownersAt p = c.ft.ownersAt p := by
  obtain ⟨e, he, hrec⟩ := receiveChunk_ok hok
  cases hrec with
  | ignored _ hft => exact hft.ownersAt he rfl
  | rejected _ _ hft => exact hft.ownersAt he rfl
  | completed _ _ _ _ _ _ hft => exact hft.ownersAt he rfl
  | stored _ _ _ _ _ hft => exact hft.ownersAt he rfl

/-- A diff takes its deletions out of the table and puts its author at its additions. -/
theorem ownersAt_receiveDiff (hok : receiveDiff c additions deletions peer = .ok (c', sent)) :
    c'.ft.ownersAt p = (filetableAddFilesystem (filetableRemoveFilesystem c.ft deletions) additions
      peer true c.jobs.rand).1.ownersAt p := by
  obtain ⟨rand, hget, -, -⟩ := receiveDiff_ok hok
  exact ownersAt_getFileAdditions hget

/-- A master only takes its deletions out of the table. -/
theorem ownersAt_updateLocalFilesystem {master : Folder}
    (hok : updateLocalFilesystem c master = .ok (c', sent)) : c'.ft.ownersAt p =
      (filetableRemoveFilesystem c.ft (filesystemDiff c.curFs master).2).ownersAt p := by
  obtain ⟨rand, st, rfl, hft, -, -⟩ := updateLocalFilesystem_ok hok rfl
  exact (ownersAt_filetableEnqueueWorkForFilesystem hft).trans (ownersAt_prepareAdditions _ _)

/-- A settled check does with its own update what a diff does. -/
theorem ownersAt_checkLocalFilesystem_of_settled {now : UInt64} (h : c.Settled now) :
    (checkLocalFilesystem c now).1.ft.ownersAt p =
      (filetableAddFilesystem (filetableRemoveFilesystem c.ft c.localDiff.2) c.localDiff.1 myID false
        c.jobs.rand).1.ownersAt p := by
  rw [checkLocalFilesystem_of_settled h]
  split_ifs with hcheck
  · rfl
  · rw [Bool.or_eq_true, not_or] at hcheck
    have hnone (fs : Folder) (hfs : ¬ checkFileSystem fs = true) :
        ¬ ListsFile (filesystemIteratorRelative true fs) p := by
      rw [filesystemIteratorRelative_eq_nil hfs]
      rintro ⟨item, hitem, -⟩
      cases hitem
    rw [ownersAt_filetableAddFilesystem_of_not (hnone _ hcheck.1), ownersAt_filetableRemoveFilesystem,
      if_neg (hnone _ hcheck.2)]

theorem ft_checkLocalFilesystem_of_not_settled {now : UInt64} (h : ¬ c.Settled now) :
    (checkLocalFilesystem c now).1.ft = c.ft := by
  obtain ⟨prevFs, prevTime, heq⟩ := checkLocalFilesystem_of_not_settled h
  rw [heq]

/-! ## Entries that stay -/

/-- The event is a diff, a master or a local change that lists the file. -/
def Client.Changes (c : Client) (p : CString) : ClientEvent → Prop
  | .diff additions deletions _ => ListsFile (filesystemIteratorRelative true additions) p ∨
      ListsFile (filesystemIteratorRelative true deletions) p
  | .master master =>
      ListsFile (filesystemIteratorRelative true (filesystemDiff c.curFs master).2) p
  | .checkLocal now => c.Settled now ∧
      (ListsFile (filesystemIteratorRelative true c.localDiff.1) p ∨
        ListsFile (filesystemIteratorRelative true c.localDiff.2) p)
  | _ => False

instance (c : Client) (p : CString) : DecidablePred (c.Changes p)
  | .diff _ _ _ => inferInstanceAs (Decidable (_ ∨ _))
  | .master _ => inferInstanceAs (Decidable (ListsFile _ _))
  | .checkLocal _ => inferInstanceAs (Decidable (_ ∧ (_ ∨ _)))
  | .peerAdded _ | .peerDeleted _ | .chunkRequest _ _ _ _ | .chunk _ _ _ _ | .chunkGot _ _ _
  | .workQueue | .edit _ => inferInstanceAs (Decidable False)

/-- Neither the deletions nor the additions of an update list the file. -/
theorem ownersAt_update_of_not (hadd : ¬ ListsFile (filesystemIteratorRelative true additions) p)
    (hdel : ¬ ListsFile (filesystemIteratorRelative true deletions) p) :
    (filetableAddFilesystem (filetableRemoveFilesystem ft deletions) additions peer needsData
      rand).1.ownersAt p = ft.ownersAt p := by
  rw [ownersAt_filetableAddFilesystem_of_not hadd, ownersAt_filetableRemoveFilesystem, if_neg hdel]

/-- **Entries that stay.** What does not list the file leaves its chunks where they are. -/
theorem hasChunk_step (hnot : ¬ c.Changes p ev) (hok : c.step ev = .ok (c', sent))
    (h : c.ft.HasChunk p k) : c'.ft.HasChunk p k := by
  cases ev with
  | peerAdded peerId => cases hok; exact h
  | edit dir => cases hok; exact h
  | peerDeleted peerId => cases hok; exact hasChunk_filetableRemovePeer h
  | chunkRequest peerId filepath chunkId requestId => exact h.congr (ownersAt_receiveChunkRequest hok)
  | chunk filepath chunkId data requestId => exact h.congr (ownersAt_receiveChunk hok)
  | chunkGot peerId filepath chunkId =>
    obtain ⟨ft, hft, hok⟩ := bind_eq_ok.mp hok
    cases hok
    exact hasChunk_filetableSetThatPeerHasFileChunk hft h
  | diff additions deletions peerId =>
    obtain ⟨hadd, hdel⟩ := not_or.mp hnot
    exact h.congr ((ownersAt_receiveDiff hok).trans (ownersAt_update_of_not hadd hdel))
  | master master =>
    exact h.congr ((ownersAt_updateLocalFilesystem hok).trans
      (ownersAt_filetableRemoveFilesystem.trans (if_neg hnot)))
  | workQueue => exact h.congr (ownersAt_checkWorkQueue hok)
  | checkLocal now =>
    have hok : checkLocalFilesystem c now = (c', sent) := Except.ok.inj hok
    by_cases hsettled : c.Settled now
    · obtain ⟨hadd, hdel⟩ := not_or.mp fun hor => hnot ⟨hsettled, hor⟩
      have howners := ownersAt_checkLocalFilesystem_of_settled (p := p) hsettled
      rw [hok] at howners
      exact h.congr (howners.trans (ownersAt_update_of_not hadd hdel))
    · have hft := ft_checkLocalFilesystem_of_not_settled hsettled
      rw [hok] at hft
      exact h.congr (congrArg (fun ft => ft.ownersAt p) hft)

/-- A diff that adds the file makes its entry. -/
theorem hasChunk_receiveDiff (hadds : AddsChunk additions p k)
    (hok : receiveDiff c additions deletions peer = .ok (c', sent)) : c'.ft.HasChunk p k :=
  (hasChunk_filetableAddFilesystem hadds).congr (ownersAt_receiveDiff hok)

/-! ## New owners -/

/-- The tree whose files get new entries. -/
def Client.added (c : Client) : ClientEvent → Folder
  | .diff additions _ _ => additions
  | .checkLocal now => if c.Settled now then c.localDiff.1 else emptyFilesystem
  | _ => emptyFilesystem

/-- Who has their chunks. -/
def ClientEvent.author : ClientEvent → ℤ
  | .diff _ _ peerId => peerId
  | _ => myID

/-- An owner after an update: its author, or an owner of another file. -/
theorem isOwner_update (h : (filetableAddFilesystem (filetableRemoveFilesystem ft deletions) additions
      peer needsData rand).1.IsOwner p k owner) :
    ListsFile (filesystemIteratorRelative true additions) p ∧ owner = peer ∨
      ¬ ListsFile (filesystemIteratorRelative true additions) p ∧ ft.IsOwner p k owner :=
  (isOwner_filetableAddFilesystem h).imp_right fun h =>
    ⟨h.1, isOwner_filetableRemoveFilesystem h.2⟩

theorem not_listsFile_emptyFilesystem :
    ¬ ListsFile (filesystemIteratorRelative true emptyFilesystem) p := by
  rintro ⟨item, hitem, -⟩
  cases hitem

/-- **New owners.** An owner in the table of a client is the author of what the event has added, the
owner in an acquisition, or an owner before. -/
theorem isOwner_step (hok : c.step ev = .ok (c', sent)) (h : c'.ft.IsOwner p k owner) :
    ListsFile (filesystemIteratorRelative true (c.added ev)) p ∧ owner = ev.author ∨
      ¬ ListsFile (filesystemIteratorRelative true (c.added ev)) p ∧
        (c.ft.IsOwner p k owner ∨ ev = .chunkGot owner p k) := by
  have hnone (hadded : c.added ev = emptyFilesystem) :
      ¬ ListsFile (filesystemIteratorRelative true (c.added ev)) p := by
    rw [hadded]
    exact not_listsFile_emptyFilesystem
  cases ev with
  | peerAdded peerId => cases hok; exact Or.inr ⟨hnone rfl, Or.inl h⟩
  | edit dir => cases hok; exact Or.inr ⟨hnone rfl, Or.inl h⟩
  | peerDeleted peerId =>
    cases hok
    exact Or.inr ⟨hnone rfl, Or.inl (isOwner_filetableRemovePeer h)⟩
  | chunkRequest peerId filepath chunkId requestId =>
    exact Or.inr ⟨hnone rfl, Or.inl (h.congr (ownersAt_receiveChunkRequest hok))⟩
  | chunk filepath chunkId data requestId =>
    exact Or.inr ⟨hnone rfl, Or.inl (h.congr (ownersAt_receiveChunk hok))⟩
  | chunkGot peerId filepath chunkId =>
    obtain ⟨ft, hft, hok⟩ := bind_eq_ok.mp hok
    cases hok
    refine Or.inr ⟨hnone rfl, (isOwner_filetableSetThatPeerHasFileChunk hft h).imp_right ?_⟩
    rintro ⟨rfl, rfl, rfl⟩
    rfl
  | diff additions deletions peerId =>
    exact (isOwner_update (h.congr (ownersAt_receiveDiff hok))).imp_right fun h =>
      ⟨h.1, Or.inl h.2⟩
  | master master =>
    exact Or.inr ⟨hnone rfl, Or.inl (isOwner_filetableRemoveFilesystem
      (h.congr (ownersAt_updateLocalFilesystem hok)))⟩
  | workQueue => exact Or.inr ⟨hnone rfl, Or.inl (h.congr (ownersAt_checkWorkQueue hok))⟩
  | checkLocal now =>
    have hok : checkLocalFilesystem c now = (c', sent) := Except.ok.inj hok
    by_cases hsettled : c.Settled now
    · have hadded : c.added (.checkLocal now) = c.localDiff.1 := if_pos hsettled
      have howners := ownersAt_checkLocalFilesystem_of_settled (p := p) hsettled
      rw [hok] at howners
      rw [hadded]
      exact (isOwner_update (h.congr howners)).imp_right fun h => ⟨h.1, Or.inl h.2⟩
    · have hft := ft_checkLocalFilesystem_of_not_settled hsettled
      rw [hok] at hft
      exact Or.inr ⟨hnone (if_neg hsettled), Or.inl (hft ▸ h)⟩

end DartSync
