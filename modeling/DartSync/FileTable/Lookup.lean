import DartSync.FileTable

/-!
# The operations of a file table on its map

What each operation of `FileTable.c` does to `FileTable.lookup`, path by path.
-/

namespace DartSync

open KeyedList FileTable

variable {ft ft' : FileTable} {fs : Folder} {p : CString} {e e' : FileTableEntry} {peer : ℤ}
  {needsData : Bool} {rand : Rand} {st st' : FileTable × Rand} {items : List IteratorItem}
  {item : IteratorItem} {c : ℤ}

/-! ## Shuffling -/

theorem queueSwap_perm {α : Type*} (q : List α) (i j : ℕ) : (queueSwap q i j).Perm q := by
  unfold queueSwap
  cases hi : q[i]? with
  | none => exact List.Perm.refl q
  | some x =>
    cases hj : q[j]? with
    | none => exact List.Perm.refl q
    | some y =>
      obtain ⟨hlt, rfl⟩ := List.getElem?_eq_some_iff.mp hi
      obtain ⟨hlt', rfl⟩ := List.getElem?_eq_some_iff.mp hj
      exact List.set_set_perm hlt hlt'

theorem queueShuffleFrom_perm {α : Type*} (i : ℕ) (q : List α) (rand : Rand) :
    (queueShuffleFrom i q rand).1.Perm q := by
  induction i generalizing q rand with
  | zero => exact List.Perm.refl q
  | succ i ih => exact (ih _ _).trans (queueSwap_perm q _ _)

theorem queueShuffle_perm {α : Type*} (q : List α) (rand : Rand) :
    (queueShuffle q rand).1.Perm q := queueShuffleFrom_perm _ q rand

@[simp] theorem mem_chunkNumbers {numChunks : ℤ} :
    c ∈ chunkNumbers numChunks ↔ 0 ≤ c ∧ c < numChunks := by
  unfold chunkNumbers
  rw [List.mem_map]
  constructor
  · rintro ⟨k, hk, rfl⟩
    have := List.mem_range.mp hk
    exact ⟨Int.natCast_nonneg k, by show (k : ℤ) < _; omega⟩
  · rintro ⟨h0, h⟩
    exact ⟨c.toNat, List.mem_range.mpr (by omega), Int.toNat_of_nonneg h0⟩

/-! ## Removing the files of a tree -/

/-- Some item is a file with path `p`. -/
def ListsFile (items : List IteratorItem) (p : CString) : Prop :=
  ∃ item ∈ items, 0 ≤ item.length ∧ item.path = p

instance (items : List IteratorItem) : DecidablePred (ListsFile items) := fun p =>
  inferInstanceAs (Decidable (∃ item ∈ items, 0 ≤ item.length ∧ item.path = p))

theorem listsFile_iff (fileFirst : Bool) (hfs : fs.Distinct) :
    ListsFile (filesystemIteratorRelative fileFirst fs) p ↔ IsFilePath fs.view.entries p :=
  exists_mem_filesystemIteratorRelative fileFirst hfs

theorem listsFile_cons : ListsFile (item :: items) p ↔
    (0 ≤ item.length ∧ item.path = p) ∨ ListsFile items p := by
  unfold ListsFile
  simp

theorem listsFile_append {items' : List IteratorItem} : ListsFile (items ++ items') p ↔
    ListsFile items p ∨ ListsFile items' p := by
  unfold ListsFile
  simp only [List.mem_append, or_and_right, exists_or]

theorem lookup_foldl_erase : (items.foldl (fun ft item => if item.length < 0 then ft
    else ft.erase item.path) ft).lookup p = some e ↔
      ft.lookup p = some e ∧ ¬ ListsFile items p := by
  induction items generalizing ft with
  | nil => simp [ListsFile]
  | cons item items ih =>
    rw [List.foldl_cons, ih, listsFile_cons]
    by_cases hlen : item.length < 0
    · rw [if_pos hlen]
      have : ¬ 0 ≤ item.length := not_le.mpr hlen
      simp [this]
    · rw [if_neg hlen, lookup_erase]
      have : 0 ≤ item.length := not_lt.mp hlen
      by_cases hp : p = item.path
      · simp [hp, this]
      · simp [hp, this, Ne.symm hp]

theorem lookup_filetableRemoveFilesystem (hfs : fs.Distinct) :
    (filetableRemoveFilesystem ft fs).lookup p = some e ↔
      ft.lookup p = some e ∧ ¬ IsFilePath fs.view.entries p := by
  rw [← listsFile_iff true hfs]
  exact lookup_foldl_erase

/-! ## Adding the files of a tree -/

/-- `e` is a new entry for an item with path `p`. -/
def IsNewEntry (items : List IteratorItem) (peer : ℤ) (needsData : Bool) (p : CString)
    (e : FileTableEntry) : Prop :=
  ∃ item ∈ items, ∃ workQueue, 0 ≤ item.length ∧ item.path = p ∧ e = newEntry item peer workQueue ∧
    workQueue.Perm (if needsData then chunkNumbers (numChunksForSize item.length) else [])

theorem addItem_of_neg (h : item.length < 0) : addItem peer needsData st item = st := by
  unfold addItem
  rw [if_pos h]

theorem addItem_of_nonneg (peer : ℤ) (needsData : Bool) (st : FileTable × Rand) (h : 0 ≤ item.length) :
    ∃ workQueue rand, addItem peer needsData st item =
        (st.1.insert (newEntry item peer workQueue), rand) ∧
      workQueue.Perm (if needsData then chunkNumbers (numChunksForSize item.length) else []) := by
  unfold addItem
  rw [if_neg (not_lt.mpr h)]
  cases needsData with
  | false => exact ⟨[], st.2, rfl, List.Perm.refl _⟩
  | true => exact ⟨_, _, rfl, queueShuffle_perm _ _⟩

/-- The table after the loop holds a new entry at each listed path and the old ones elsewhere. -/
theorem lookup_foldl_addItem (st : FileTable × Rand) : (ListsFile items p → ∃ e,
      (items.foldl (addItem peer needsData) st).1.lookup p = some e ∧
        IsNewEntry items peer needsData p e) ∧
    (¬ ListsFile items p →
      (items.foldl (addItem peer needsData) st).1.lookup p = st.1.lookup p) := by
  induction items using List.reverseRecOn with
  | nil => exact ⟨fun ⟨_, h, _⟩ => absurd h List.not_mem_nil, fun _ => rfl⟩
  | append_singleton items item ih =>
    rw [List.foldl_append, List.foldl_cons, List.foldl_nil, listsFile_append]
    have hmono : ∀ {e}, IsNewEntry items peer needsData p e →
        IsNewEntry (items ++ [item]) peer needsData p e := fun ⟨x, hx, h⟩ =>
      ⟨x, List.mem_append_left _ hx, h⟩
    by_cases hneg : item.length < 0
    · have hnot : ¬ ListsFile [item] p := by
        rintro ⟨x, hx, hlen, -⟩
        rw [List.mem_singleton.mp hx] at hlen
        omega
      rw [addItem_of_neg hneg]
      refine ⟨fun h => ?_, fun h => ih.2 fun hl => h (Or.inl hl)⟩
      obtain ⟨e, he, hnew⟩ := ih.1 (h.resolve_right hnot)
      exact ⟨e, he, hmono hnew⟩
    · obtain ⟨workQueue, rand, hadd, hperm⟩ := addItem_of_nonneg peer needsData
        (items.foldl (addItem peer needsData) st) (not_lt.mp hneg)
      rw [hadd, lookup_insert]
      by_cases hp : p = item.path
      · refine ⟨fun _ => ⟨_, if_pos hp, item, List.mem_append_right _ List.mem_cons_self, workQueue,
          not_lt.mp hneg, hp.symm, rfl, hperm⟩, fun h => absurd (Or.inr ?_) h⟩
        exact ⟨item, List.mem_cons_self, not_lt.mp hneg, hp.symm⟩
      · have hnot : ¬ ListsFile [item] p := by
          rintro ⟨x, hx, -, hpath⟩
          rw [List.mem_singleton.mp hx] at hpath
          exact hp hpath.symm
        have hpath : ¬ p = (newEntry item peer workQueue).path := hp
        rw [if_neg hpath]
        refine ⟨fun h => ?_, fun h => ih.2 fun hl => h (Or.inl hl)⟩
        obtain ⟨e, he, hnew⟩ := ih.1 (h.resolve_right hnot)
        exact ⟨e, he, hmono hnew⟩

theorem lookup_filetableAddFilesystem_of_isFilePath (hfs : fs.Distinct)
    (h : IsFilePath fs.view.entries p) : ∃ e,
      (filetableAddFilesystem ft fs peer needsData rand).1.lookup p = some e ∧
        IsNewEntry (filesystemIteratorRelative true fs) peer needsData p e :=
  (lookup_foldl_addItem (ft, rand)).1 ((listsFile_iff true hfs).mpr h)

theorem lookup_filetableAddFilesystem_of_not (hfs : fs.Distinct)
    (h : ¬ IsFilePath fs.view.entries p) :
    (filetableAddFilesystem ft fs peer needsData rand).1.lookup p = ft.lookup p :=
  (lookup_foldl_addItem (ft, rand)).2 fun hl => h ((listsFile_iff true hfs).mp hl)

theorem lookup_filetableAddFilesystem_isSome (hfs : fs.Distinct) :
    ((filetableAddFilesystem ft fs peer needsData rand).1.lookup p).isSome ↔
      IsFilePath fs.view.entries p ∨ (ft.lookup p).isSome := by
  by_cases h : IsFilePath fs.view.entries p
  · obtain ⟨e, he, -⟩ : ∃ e, (filetableAddFilesystem ft fs peer needsData rand).1.lookup p = some e ∧
        IsNewEntry _ peer needsData p e := lookup_filetableAddFilesystem_of_isFilePath hfs h
    exact iff_of_true (by rw [he]; rfl) (Or.inl h)
  · rw [lookup_filetableAddFilesystem_of_not hfs h]
    exact ⟨Or.inr, fun h' => h'.resolve_left h⟩

/-! ## Enqueueing work -/

/-- `e'` is `e` with chunks of the items of path `p` put into its work queue. -/
structure Enqueued (items : List IteratorItem) (p : CString) (e e' : FileTableEntry) : Prop where
  path : e'.path = e.path
  file : e'.file = e.file
  chunks : e'.chunks = e.chunks
  outstandingRequests : e'.outstandingRequests = e.outstandingRequests
  mem_workQueue : ∀ c, c ∈ e'.workQueue ↔ c ∈ e.workQueue ∨ ∃ item ∈ items, 0 ≤ item.length ∧
    item.path = p ∧ 0 ≤ c ∧ c < numChunksForSize item.length

theorem Enqueued.refl : Enqueued [] p e e := ⟨rfl, rfl, rfl, rfl, by simp⟩

theorem Enqueued.trans {e1 : FileTableEntry} {items' : List IteratorItem}
    (h : Enqueued items p e e1) (h' : Enqueued items' p e1 e') :
    Enqueued (items ++ items') p e e' where
  path := h'.path.trans h.path
  file := h'.file.trans h.file
  chunks := h'.chunks.trans h.chunks
  outstandingRequests := h'.outstandingRequests.trans h.outstandingRequests
  mem_workQueue c := by
    rw [h'.mem_workQueue, h.mem_workQueue, or_assoc]
    simp only [List.mem_append, or_and_right, exists_or]

/-- One step of the loop, when it does not abort. -/
theorem enqueueWorkForItem_ok (h : enqueueWorkForItem st item = .ok st') :
    (0 ≤ item.length → (st.1.lookup item.path).isSome) ∧
    ∀ p, (st'.1.lookup p = none ↔ st.1.lookup p = none) ∧
      ∀ e, st.1.lookup p = some e → ∃ e', st'.1.lookup p = some e' ∧ Enqueued [item] p e e' := by
  have hrefl : ∀ {p e}, ¬ (0 ≤ item.length ∧ item.path = p) → Enqueued [item] p e e := fun hno =>
    ⟨rfl, rfl, rfl, rfl, fun c => ⟨Or.inl, fun h => h.elim id fun ⟨x, hx, hlen, hp, _⟩ => by
      rw [List.mem_singleton.mp hx] at hlen hp
      exact absurd ⟨hlen, hp⟩ hno⟩⟩
  unfold enqueueWorkForItem at h
  by_cases hneg : item.length < 0
  · rw [if_pos hneg] at h
    cases h
    exact ⟨fun hlen => by omega, fun p => ⟨Iff.rfl, fun e he =>
      ⟨e, he, hrefl fun hno => by have := hno.1; omega⟩⟩⟩
  · rw [if_neg hneg] at h
    cases hlook : st.1.lookup item.path with
    | none => rw [hlook] at h; cases h
    | some entry =>
      rw [hlook] at h
      cases h
      refine ⟨fun _ => rfl, fun p => ?_⟩
      have hpath := path_of_lookup hlook
      dsimp only
      rw [lookup_overwrite_of_lookup hlook (by exact hpath)]
      by_cases hp : p = item.path
      · rw [if_pos hp, hp, hlook]
        refine ⟨⟨nofun, nofun⟩, fun e he => ?_⟩
        cases he
        refine ⟨_, rfl, rfl, rfl, rfl, rfl, fun c => ?_⟩
        show c ∈ (queueShuffle _ _).1 ↔ _
        rw [(queueShuffle_perm _ _).mem_iff, List.mem_append, mem_chunkNumbers]
        refine or_congr Iff.rfl ⟨fun hc => ⟨item, List.mem_cons_self, not_lt.mp hneg, rfl, hc⟩, ?_⟩
        rintro ⟨x, hx, -, -, hc⟩
        rwa [List.mem_singleton.mp hx] at hc
      · rw [if_neg hp]
        exact ⟨Iff.rfl, fun e he => ⟨e, he, hrefl fun hno => hp hno.2.symm⟩⟩

theorem foldlM_enqueueWorkForItem_ok (h : items.foldlM enqueueWorkForItem st = .ok st') :
    ∀ p, (st'.1.lookup p = none ↔ st.1.lookup p = none) ∧
      ∀ e, st.1.lookup p = some e → ∃ e', st'.1.lookup p = some e' ∧ Enqueued items p e e' := by
  induction items generalizing st with
  | nil =>
    cases h
    exact fun p => ⟨Iff.rfl, fun e he => ⟨e, he, .refl⟩⟩
  | cons item items ih =>
    rw [List.foldlM_cons, bind_eq_ok] at h
    obtain ⟨st1, h1, h⟩ := h
    intro p
    obtain ⟨hnone, hsome⟩ := (enqueueWorkForItem_ok h1).2 p
    obtain ⟨hnone', hsome'⟩ := ih h p
    refine ⟨hnone'.trans hnone, fun e he => ?_⟩
    obtain ⟨e1, he1, hq⟩ := hsome e he
    obtain ⟨e', he', hq'⟩ := hsome' e1 he1
    exact ⟨e', he', hq.trans hq'⟩

/-- The loop aborts exactly when a listed file has no entry. -/
theorem foldlM_enqueueWorkForItem_isOk : (∃ st', items.foldlM enqueueWorkForItem st = .ok st') ↔
    ∀ p, ListsFile items p → (st.1.lookup p).isSome := by
  induction items generalizing st with
  | nil => exact ⟨fun _ _ ⟨_, h, _⟩ => absurd h List.not_mem_nil, fun _ => ⟨st, rfl⟩⟩
  | cons item items ih =>
    have hsome : ∀ {st1}, enqueueWorkForItem st item = .ok st1 → ∀ p,
        ((st1.1.lookup p).isSome ↔ (st.1.lookup p).isSome) := fun h1 p => by
      rw [← not_iff_not, Option.not_isSome_iff_eq_none, Option.not_isSome_iff_eq_none]
      exact ((enqueueWorkForItem_ok h1).2 p).1
    constructor
    · rintro ⟨st', h⟩ p hp
      rw [List.foldlM_cons, bind_eq_ok] at h
      obtain ⟨st1, h1, h⟩ := h
      rcases listsFile_cons.mp hp with ⟨hlen, rfl⟩ | hp
      · exact (enqueueWorkForItem_ok h1).1 hlen
      · exact (hsome h1 p).mp (ih.mp ⟨st', h⟩ p hp)
    · intro h
      obtain ⟨st1, h1⟩ : ∃ st1, enqueueWorkForItem st item = .ok st1 := by
        unfold enqueueWorkForItem
        by_cases hneg : item.length < 0
        · exact ⟨st, if_pos hneg⟩
        · rw [if_neg hneg]
          obtain ⟨entry, he⟩ := Option.isSome_iff_exists.mp
            (h item.path (listsFile_cons.mpr (Or.inl ⟨not_lt.mp hneg, rfl⟩)))
          rw [he]
          exact ⟨_, rfl⟩
      obtain ⟨st', h'⟩ := ih.mpr fun p hp =>
        (hsome h1 p).mpr (h p (listsFile_cons.mpr (Or.inr hp)))
      exact ⟨st', by rw [List.foldlM_cons, bind_eq_ok]; exact ⟨st1, h1, h'⟩⟩

/-- `filetable_enqueue_work_for_filesystem` passes its assertion exactly when every file of the
tree has an entry. -/
theorem filetableEnqueueWorkForFilesystem_isOk (rand : Rand) (hfs : fs.Distinct) :
    (∃ st', filetableEnqueueWorkForFilesystem ft fs rand = .ok st') ↔
      ∀ p, IsFilePath fs.view.entries p → (ft.lookup p).isSome := by
  unfold filetableEnqueueWorkForFilesystem
  rw [foldlM_enqueueWorkForItem_isOk]
  simp only [listsFile_iff true hfs]

/-! ## Owners -/

theorem lookup_foldl_overwrite {f : FileTableEntry → FileTableEntry}
    (hf : ∀ e, (f e).path = e.path) {l : List FileTableEntry} :
    (∀ e ∈ l, ft.lookup e.path = some e) → (l.map FileTableEntry.path).Nodup →
    (l.foldl (fun ft e => ft.overwrite (f e)) ft).lookup p =
      if p ∈ l.map FileTableEntry.path then (ft.lookup p).map f else ft.lookup p := by
  induction l generalizing ft with
  | nil => intros; simp
  | cons x l ih =>
    intro hl hnd
    rw [List.map_cons, List.nodup_cons] at hnd
    have hx := hl x List.mem_cons_self
    have hlook : ∀ q, (ft.overwrite (f x)).lookup q =
        if q = x.path then some (f x) else ft.lookup q := fun q =>
      lookup_overwrite_of_lookup hx (hf x)
    rw [List.foldl_cons, ih ?_ hnd.2, hlook, List.map_cons]
    · by_cases hp : p = x.path
      · rw [if_pos hp, if_neg (hp ▸ hnd.1), if_pos (hp ▸ List.mem_cons_self), hp, hx]
        rfl
      · rw [if_neg hp]
        by_cases hmem : p ∈ l.map FileTableEntry.path
        · rw [if_pos hmem, if_pos (List.mem_cons_of_mem _ hmem)]
        · rw [if_neg hmem, if_neg fun h => (List.mem_cons.mp h).elim hp hmem]
    · intro e he
      rw [hlook, if_neg fun h : e.path = x.path => hnd.1 (h ▸ List.mem_map_of_mem he)]
      exact hl e (List.mem_cons_of_mem x he)

@[simp] theorem lookup_filetableRemovePeer {id : ℤ} : (filetableRemovePeer ft id).lookup p =
    (ft.lookup p).map (removePeerFromEntry id) := by
  unfold filetableRemovePeer
  rw [lookup_foldl_overwrite (f := removePeerFromEntry id) (fun _ => rfl)
    (fun e he => mem_entries.mp he) ft.nodup_entries]
  split_ifs with h
  · rfl
  · rw [← lookup_isSome, Option.not_isSome_iff_eq_none] at h
    rw [h]; rfl

/-- When `filetable_set_that_peer_has_file_chunk` returns, it has at most added the owner. -/
theorem filetableSetThatPeerHasFileChunk_ok
    (h : filetableSetThatPeerHasFileChunk ft p peer c = .ok ft') :
    ∃ e owners, ft.lookup p = some e ∧ 0 ≤ c ∧ e.chunks[c.toNat]? = some owners ∧
      ft' = if peer ∈ owners then ft
        else ft.overwrite { e with chunks := e.chunks.set c.toNat (owners ++ [peer]) } := by
  unfold filetableSetThatPeerHasFileChunk filetableGetPeersWhoHaveFileChunk at h
  cases hlook : ft.lookup p with
  | none => rw [hlook] at h; cases h
  | some e =>
    rw [hlook] at h
    dsimp only at h
    split_ifs at h with hlen hneg
    · cases h
    · cases h
    · cases howners : e.chunks[c.toNat]? with
      | none => rw [howners] at h; cases h
      | some owners =>
        rw [howners] at h
        refine ⟨e, owners, rfl, not_lt.mp hneg, howners, ?_⟩
        by_cases hmem : peer ∈ owners
        · rw [if_pos hmem]
          have h' : (if peer ∈ owners then Except.ok ft else _) = Except.ok ft' := h
          rw [if_pos hmem] at h'
          exact (Except.ok.inj h').symm
        · rw [if_neg hmem]
          have h' : (if peer ∈ owners then _ else Except.ok (ft.overwrite
            { e with chunks := e.chunks.set c.toNat (owners ++ [peer]) })) = Except.ok ft' := h
          rw [if_neg hmem] at h'
          exact (Except.ok.inj h').symm

@[simp] theorem lookup_filetableSetChunkyfile {file : Option ChunkyFile} {k : CString} :
    (filetableSetChunkyfile ft k file).lookup p =
      if p = k then (ft.lookup p).map fun e => { e with file := file } else ft.lookup p := by
  unfold filetableSetChunkyfile
  cases hlook : ft.lookup k with
  | none =>
    dsimp only
    split_ifs with hp
    · rw [hp, hlook]; rfl
    · rfl
  | some e =>
    have hpath := path_of_lookup hlook
    dsimp only
    rw [lookup_overwrite_of_lookup hlook (by exact hpath)]
    split_ifs with hp
    · rw [hp, hlook]; rfl
    · rfl

end DartSync
