import DartSync.FileTable.Lookup

/-!
# Properties of all entries

The operations of `FileTable.c` take out, replace or change single entries, so a property of
entries survives an operation when the entries that it makes have it.
-/

namespace DartSync

open KeyedList FileTable

variable {P Q : FileTableEntry → Prop} {ft ft' : FileTable} {fs : Folder} {p k : CString}
  {e e' : FileTableEntry} {peer : ℤ} {needsData : Bool} {rand : Rand}
  {items : List IteratorItem}

/-- Every entry of the table has the property. -/
def FileTable.All (P : FileTableEntry → Prop) (ft : FileTable) : Prop :=
  ∀ p e, ft.lookup p = some e → P e

namespace FileTable

theorem All.mono (h : ft.All P) (himp : ∀ e, P e → Q e) : ft.All Q := fun p e he =>
  himp e (h p e he)

theorem All.erase (h : ft.All P) : (ft.erase k).All P := by
  intro p e he
  rw [lookup_erase] at he
  split_ifs at he
  exact h p e he

theorem All.insert (h : ft.All P) (he : P e) : (ft.insert e).All P := by
  intro p e' he'
  rw [lookup_insert] at he'
  split_ifs at he'
  · exact Option.some.inj he' ▸ he
  · exact h p e' he'

theorem All.overwrite (h : ft.All P) (he : P e) : (ft.overwrite e).All P := by
  intro p e' he'
  by_cases hmem : (ft.lookup e.path).isSome
  · rw [lookup_overwrite hmem] at he'
    split_ifs at he'
    · exact Option.some.inj he' ▸ he
    · exact h p e' he'
  · rw [lookup_eq, entries_overwrite, replaceKey_of_notMem (lookup_isSome.not.mp hmem),
      ← lookup_eq] at he'
    exact h p e' he'

/-- `ft'` is `ft` with the entry `e` at `k`. -/
def IsUpdate (ft ft' : FileTable) (k : CString) (e : FileTableEntry) : Prop :=
  ∀ p, ft'.lookup p = if p = k then some e else ft.lookup p

theorem isUpdate_overwrite (he : ft.lookup k = some e) (hk : e'.path = k) :
    IsUpdate ft (ft.overwrite e') k e' := fun _ => lookup_overwrite_of_lookup he hk

theorem IsUpdate.trans {ft1 : FileTable} (h : IsUpdate ft ft1 k e) (h' : IsUpdate ft1 ft' k e') :
    IsUpdate ft ft' k e' := by
  intro p
  rw [h' p, h p]
  split_ifs <;> rfl

theorem IsUpdate.all_of_ne (h : IsUpdate ft ft' k e)
    (hall : ∀ p e, p ≠ k → ft.lookup p = some e → P e) (he : P e) : ft'.All P := by
  intro p e' he'
  rw [h p] at he'
  split_ifs at he' with hp
  · exact Option.some.inj he' ▸ he
  · exact hall p e' hp he'

theorem IsUpdate.all (h : IsUpdate ft ft' k e) (hall : ft.All P) (he : P e) : ft'.All P :=
  h.all_of_ne (fun p e _ => hall p e) he

end FileTable

theorem all_filetableNew : filetableNew.All P := by
  intro p e he
  rw [lookup_filetableNew] at he
  cases he

/-- What is left was there before. -/
theorem lookup_of_filetableRemoveFilesystem
    (h : (filetableRemoveFilesystem ft fs).lookup p = some e) : ft.lookup p = some e :=
  (lookup_foldl_erase.mp h).1

theorem all_filetableRemoveFilesystem (h : ft.All P) : (filetableRemoveFilesystem ft fs).All P :=
  fun p e he => h p e (lookup_of_filetableRemoveFilesystem he)

theorem all_foldl_addItem {st : FileTable × Rand} (h : st.1.All P)
    (hnew : ∀ item ∈ items, ∀ workQueue : List ℤ, 0 ≤ item.length →
      workQueue.Perm (if needsData then chunkNumbers (numChunksForSize item.length) else []) →
      P (newEntry item peer workQueue)) :
    (items.foldl (addItem peer needsData) st).1.All P := by
  induction items generalizing st with
  | nil => exact h
  | cons item items ih =>
    rw [List.foldl_cons]
    refine ih ?_ fun x hx => hnew x (List.mem_cons_of_mem item hx)
    by_cases hneg : item.length < 0
    · rw [addItem_of_neg hneg]
      exact h
    · obtain ⟨workQueue, rand, hadd, hperm⟩ :=
        addItem_of_nonneg peer needsData st (not_lt.mp hneg)
      rw [hadd]
      exact h.insert (hnew item List.mem_cons_self workQueue (not_lt.mp hneg) hperm)

theorem all_filetableAddFilesystem (h : ft.All P)
    (hnew : ∀ item ∈ filesystemIteratorRelative true fs, ∀ workQueue : List ℤ, 0 ≤ item.length →
      workQueue.Perm (if needsData then chunkNumbers (numChunksForSize item.length) else []) →
      P (newEntry item peer workQueue)) :
    (filetableAddFilesystem ft fs peer needsData rand).1.All P := by
  have hst : (ft, rand).1.All P := h
  exact all_foldl_addItem hst hnew

theorem all_filetableRemovePeer {id : ℤ} :
    (filetableRemovePeer ft id).All P ↔ ft.All fun e => P (removePeerFromEntry id e) := by
  constructor
  · intro h p e he
    exact h p _ (by rw [lookup_filetableRemovePeer, he]; rfl)
  · intro h p e he
    rw [lookup_filetableRemovePeer] at he
    obtain ⟨e0, he0, rfl⟩ := Option.map_eq_some_iff.mp he
    exact h p e0 he0

theorem all_filetableSetChunkyfile {file : Option ChunkyFile} (h : ft.All P)
    (hset : ∀ e, ft.lookup k = some e → P { e with file := file }) :
    (filetableSetChunkyfile ft k file).All P := by
  intro p e he
  rw [lookup_filetableSetChunkyfile] at he
  split_ifs at he with hp
  · obtain ⟨e0, he0, rfl⟩ := Option.map_eq_some_iff.mp he
    exact hset e0 (hp ▸ he0)
  · exact h p e he

theorem isUpdate_filetableSetChunkyfile {file : Option ChunkyFile} (he : ft.lookup k = some e) :
    IsUpdate ft (filetableSetChunkyfile ft k file) k { e with file := file } := by
  intro p
  rw [lookup_filetableSetChunkyfile]
  split_ifs with hp
  · rw [hp, he]; rfl
  · rfl

theorem all_filetableSetThatPeerHasFileChunk {c : ℤ}
    (hok : filetableSetThatPeerHasFileChunk ft k peer c = .ok ft') (h : ft.All P)
    (hset : ∀ e owners, ft.lookup k = some e → e.chunks[c.toNat]? = some owners →
      P { e with chunks := e.chunks.set c.toNat (owners ++ [peer]) }) : ft'.All P := by
  obtain ⟨e, owners, he, -, howners, rfl⟩ := filetableSetThatPeerHasFileChunk_ok hok
  split_ifs
  · exact h
  · exact h.overwrite (hset e owners he howners)

/-- The table has that chunk. -/
def FileTable.HasChunk (ft : FileTable) (path : CString) (chunk : ℤ) : Prop :=
  ∃ e, ft.lookup path = some e ∧ 0 ≤ chunk ∧ chunk < e.chunks.length

theorem filetableSetThatPeerHasFileChunk_isOk {c : ℤ} :
    (∃ ft', filetableSetThatPeerHasFileChunk ft k peer c = .ok ft') ↔
      ft.HasChunk k c := by
  constructor
  · rintro ⟨ft', h⟩
    obtain ⟨e, owners, he, hpos, howners, -⟩ := filetableSetThatPeerHasFileChunk_ok h
    have hlt := (List.getElem?_eq_some_iff.mp howners).1
    exact ⟨e, he, hpos, by omega⟩
  · rintro ⟨e, he, hpos, hlt⟩
    have hlt' : c.toNat < e.chunks.length := by omega
    unfold filetableSetThatPeerHasFileChunk filetableGetPeersWhoHaveFileChunk
    rw [he]
    dsimp only
    rw [if_neg (by omega), if_neg (by omega), List.getElem?_eq_getElem hlt']
    by_cases hmem : peer ∈ e.chunks[c.toNat]
    · exact ⟨ft, if_pos hmem⟩
    · exact ⟨_, if_neg hmem⟩

/-- What the table holds after work has been enqueued. -/
theorem lookup_filetableEnqueueWorkForFilesystem {st : FileTable × Rand}
    (h : filetableEnqueueWorkForFilesystem ft fs rand = .ok st) (he : st.1.lookup p = some e') :
    ∃ e, ft.lookup p = some e ∧ Enqueued (filesystemIteratorRelative true fs) p e e' := by
  obtain ⟨hnone, hsome⟩ := foldlM_enqueueWorkForItem_ok h p
  cases hlook : ft.lookup p with
  | none => rw [hnone.mpr hlook] at he; cases he
  | some e =>
    obtain ⟨e1, he1, henq⟩ := hsome e hlook
    rw [he] at he1
    cases he1
    exact ⟨e, rfl, henq⟩

/-- The work queue of a path gets the chunks of all its items. -/
theorem workQueue_foldlM_enqueueWorkForItem {st st' : FileTable × Rand}
    (h : items.foldlM enqueueWorkForItem st = .ok st') (he : st.1.lookup p = some e)
    (he' : st'.1.lookup p = some e') : e'.workQueue.Perm (e.workQueue ++
      (items.filter fun item => 0 ≤ item.length ∧ item.path = p).flatMap
        fun item => chunkNumbers (numChunksForSize item.length)) := by
  induction items generalizing st e with
  | nil =>
    cases h
    cases he.symm.trans he'
    rw [List.filter_nil, List.flatMap_nil, List.append_nil]
  | cons item items ih =>
    rw [List.foldlM_cons, bind_eq_ok] at h
    obtain ⟨st1, h1, h⟩ := h
    unfold enqueueWorkForItem at h1
    split_ifs at h1 with hneg
    · cases h1
      rw [List.filter_cons_of_neg (by simp [hneg])]
      exact ih h he
    · cases hlook : st.1.lookup item.path with
      | none => rw [hlook] at h1; cases h1
      | some entry =>
        rw [hlook] at h1
        cases h1
        have hupdate (workQueue : List ℤ) : IsUpdate st.1 (st.1.overwrite { entry with
            workQueue := workQueue }) item.path { entry with workQueue := workQueue } :=
          isUpdate_overwrite hlook (show entry.path = item.path from path_of_lookup hlook)
        by_cases hp : item.path = p
        · subst hp
          cases he.symm.trans hlook
          have hfirst := ih h ((hupdate _ item.path).trans (if_pos rfl))
          rw [List.filter_cons_of_pos (by simp; omega), List.flatMap_cons, ← List.append_assoc]
          exact hfirst.trans ((queueShuffle_perm _ _).append_right _)
        · rw [List.filter_cons_of_neg (by simp [hp])]
          exact ih h ((hupdate _ p).trans ((if_neg (Ne.symm hp)).trans he))

/-! ## Job ids -/

/-- What `filetable_find_and_remove_job_id` does when there is an entry. -/
theorem filetableFindAndRemoveJobId_ok {jobId removed : ℤ}
    (h : filetableFindAndRemoveJobId ft k jobId = .ok (removed, ft')) :
    ∃ e, ft.lookup k = some e ∧
      (removed = jobId ↔ jobId ∈ e.outstandingRequests ∨ jobId = 0) ∧
      IsUpdate ft ft' k { e with outstandingRequests := e.outstandingRequests.erase jobId } := by
  unfold filetableFindAndRemoveJobId at h
  cases hlook : ft.lookup k with
  | none => rw [hlook] at h; cases h
  | some e =>
    rw [hlook] at h
    obtain ⟨rfl, rfl⟩ := Prod.mk.inj (Except.ok.inj h)
    have hpath := path_of_lookup hlook
    refine ⟨e, rfl, ?_, isUpdate_overwrite hlook hpath⟩
    by_cases hmem : jobId ∈ e.outstandingRequests
    · simp [hmem]
    · simp only [hmem, if_false, false_or]
      exact eq_comm

theorem filetableFindAndRemoveJobId_isOk {jobId : ℤ} :
    (∃ r, filetableFindAndRemoveJobId ft k jobId = .ok r) ↔
      ∃ e, ft.lookup k = some e := by
  constructor
  · rintro ⟨⟨removed, ft'⟩, h⟩
    obtain ⟨e, he, -⟩ := filetableFindAndRemoveJobId_ok h
    exact ⟨e, he⟩
  · rintro ⟨e, he⟩
    unfold filetableFindAndRemoveJobId
    rw [he]
    exact ⟨_, rfl⟩

/-- A job id that is not outstanding is removed from nowhere. -/
theorem filetableFindAndRemoveJobId_of_notMem {jobId : ℤ} (he : ft.lookup k = some e)
    (hnot : jobId ∉ e.outstandingRequests) :
    filetableFindAndRemoveJobId ft k jobId = .ok (0, ft) := by
  unfold filetableFindAndRemoveJobId
  rw [he]
  dsimp only
  rw [if_neg hnot, List.erase_of_not_mem hnot]
  show Except.ok (0, ft.overwrite e) = _
  rw [overwrite_self (by rw [path_of_lookup he, he])]

theorem nextJobId_of_pos {st : JobState} (h : st.jobId ≠ 0) : st.nextJobId = st.jobId := if_neg h

theorem nextJobId_ne_zero {st : JobState} : st.nextJobId ≠ 0 := by
  unfold JobState.nextJobId
  split_ifs with h
  · exact one_ne_zero
  · exact h

/-- **Taking a job.** `filetableentry_get_job` hands out the first chunk of the work queue, to one
of its owners, or changes nothing. -/
theorem filetableentryGetJob_ok {maxPending : ℕ} {st st' : JobState} {job : Option (ℤ × ℤ × ℤ)}
    (h : filetableentryGetJob e maxPending st = .ok (job, e', st')) :
    (job = none ∧ e' = e ∧ st'.jobId = st.nextJobId) ∨
    ∃ c workQueue owners dest, job = some (c, dest, (st.nextJobId : ℤ)) ∧
      e.workQueue = c :: workQueue ∧
      0 ≤ c ∧ e.chunks[c.toNat]? = some owners ∧ dest ∈ owners ∧
      e' = { e with
        workQueue := workQueue
        outstandingRequests := e.outstandingRequests ++ [(st.nextJobId : ℤ)] } ∧
      st'.jobId = st.nextJobId + 1 := by
  unfold filetableentryGetJob at h
  cases hq : e.workQueue with
  | nil =>
    rw [hq] at h
    cases h
    exact Or.inl ⟨rfl, rfl, rfl⟩
  | cons c workQueue =>
    rw [hq] at h
    dsimp only at h
    split_ifs at h with hfull hneg
    · cases h
      exact Or.inl ⟨rfl, rfl, rfl⟩
    · cases howners : e.chunks[c.toNat]? with
      | none => rw [howners] at h; cases h
      | some owners =>
        rw [howners] at h
        dsimp only at h
        cases hdest : owners[st.rand 0 % owners.length]? with
        | none => rw [hdest] at h; cases h
        | some dest =>
          rw [hdest] at h
          cases h
          exact Or.inr ⟨c, workQueue, owners, dest, rfl, rfl, not_lt.mp hneg, howners,
            List.mem_of_getElem? hdest, rfl, rfl⟩

/-- The chunk has an owner. -/
def FileTableEntry.HasOwner (e : FileTableEntry) (c : ℤ) : Prop :=
  0 ≤ c ∧ ∃ owners, e.chunks[c.toNat]? = some owners ∧ owners ≠ []

/-- Every chunk in the work queue has an owner. -/
def FileTableEntry.Served (e : FileTableEntry) : Prop := ∀ c ∈ e.workQueue, e.HasOwner c

/-- No assertion fails while every queued chunk has an owner. -/
theorem filetableentryGetJob_isOk (he : e.Served) (maxPending : ℕ) (st : JobState) :
    ∃ r, filetableentryGetJob e maxPending st = .ok r := by
  unfold filetableentryGetJob
  cases hq : e.workQueue with
  | nil => exact ⟨_, rfl⟩
  | cons c workQueue =>
    obtain ⟨hc, owners, howners, hne⟩ := he c (by rw [hq]; exact List.mem_cons_self)
    dsimp only
    rw [howners]
    split_ifs with hfull hneg
    · exact ⟨_, rfl⟩
    · exact absurd hc (not_le.mpr hneg)
    · have hlt : st.rand 0 % owners.length < owners.length :=
        Nat.mod_lt _ (List.length_pos_iff.mpr hne)
      dsimp only
      rw [List.getElem?_eq_getElem hlt]
      exact ⟨_, rfl⟩

end DartSync
