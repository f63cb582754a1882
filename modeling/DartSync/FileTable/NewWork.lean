import DartSync.FileTable.OwnerMap
import DartSync.Library.Runs
import DartSync.Queue.Calls

/-!
# New work

`filetable_add_filesystem` shuffles the chunk numbers of a new file into its work queue, and
`filetableentry_get_job` hands them out. Between the calls ids are taken back in any order. What has
been handed out is the front of the work queue (`Drain.Inv`), so each chunk is handed out once.
-/

namespace DartSync

open FileTable Runs

variable {α : Type} {q : QueueMem α} {l : List α} {rand : Rand} {fs : Folder} {p : CString} {peer : ℤ}
  {items : List IteratorItem} {e e' : FileTableEntry}

/-! ## The shuffle in memory -/

namespace QueueMem

/-- The loop of `queue_shuffle`, from `i` down. -/
def queueShuffleFrom : ℕ → QueueMem α → Rand → Except Abort (QueueMem α × Rand)
  | 0, q, rand => .ok (q, rand)
  | i + 1, q, rand => do
    let q ← q.queueSwap (i + 1 : ℕ) (rand 0 % (i + 1) : ℕ)
    queueShuffleFrom i q fun n => rand (n + 1)

/-- `queue_shuffle` -/
def queueShuffle (q : QueueMem α) (rand : Rand) : Except Abort (QueueMem α × Rand) :=
  queueShuffleFrom (q.length.toNat - 1) q rand

end QueueMem

/-- The `work_queue` that `filetable_add_filesystem` makes for a file that needs data. -/
def newWorkQueue (fresh : Malloc ℤ) (numChunks : ℤ) (rand : Rand) :
    Except Abort (QueueMem ℤ × Rand) := do
  let workQueue ← (List.range numChunks.toNat).foldlM
    (fun workQueue (i : ℕ) => workQueue.queuePush fresh (i : ℤ)) (QueueMem.queueNew fresh)
  workQueue.queueShuffle rand

theorem length_queueSwap (l : List α) (i j : ℕ) : (queueSwap l i j).length = l.length :=
  (queueSwap_perm l i j).length_eq

/-- The swaps on the ring are those on the list. -/
theorem stores_queueShuffleFrom {i : ℕ} (h : Stores q l) (hi : i < l.length ∨ i = 0) :
    ∃ q', q.queueShuffleFrom i rand = .ok (q', (queueShuffleFrom i l rand).2) ∧
      Stores q' (queueShuffleFrom i l rand).1 := by
  induction i generalizing q l rand with
  | zero => exact ⟨q, rfl, h⟩
  | succ i ih =>
    have hlt : i + 1 < l.length := hi.resolve_right (Nat.succ_ne_zero i)
    have hrand : rand 0 % (i + 1) < l.length := (Nat.mod_lt _ (Nat.succ_pos i)).trans hlt
    obtain ⟨q1, hswap, h1⟩ := stores_queueSwap h hlt hrand
    obtain ⟨q', hrest, h'⟩ := @ih q1 _ (fun n => rand (n + 1)) h1
      (Or.inl (by rw [length_queueSwap]; omega))
    exact ⟨q', bind_eq_ok.mpr ⟨q1, hswap, hrest⟩, h'⟩

/-- `queue_shuffle` -/
theorem stores_queueShuffle (h : Stores q l) (rand : Rand) :
    ∃ q', q.queueShuffle rand = .ok (q', (queueShuffle l rand).2) ∧
      Stores q' (queueShuffle l rand).1 := by
  unfold QueueMem.queueShuffle queueShuffle
  rw [h.holds.length_eq, Int.toNat_natCast]
  exact stores_queueShuffleFrom h (by omega)

theorem stores_newWorkQueue (fresh : Malloc ℤ) (numChunks : ℤ) (rand : Rand) :
    ∃ q', newWorkQueue fresh numChunks rand =
        .ok (q', (queueShuffle (chunkNumbers numChunks) rand).2) ∧
      Stores q' (queueShuffle (chunkNumbers numChunks) rand).1 := by
  have hloop : ∀ n : ℕ, ∃ q1, (List.range n).foldlM
      (fun workQueue (i : ℕ) => workQueue.queuePush fresh (i : ℤ)) (QueueMem.queueNew fresh) = .ok q1 ∧
        Stores q1 ((List.range n).map Int.ofNat) := by
    intro n
    induction n with
    | zero => exact ⟨_, rfl, _, QueueMem.represents_queueNew fresh, rfl⟩
    | succ n ih =>
      obtain ⟨q1, hq1, h1⟩ := ih
      obtain ⟨q2, hpush, h2⟩ := stores_queuePush fresh (n : ℤ) h1
      refine ⟨q2, ?_, ?_⟩
      · rw [List.range_succ, List.foldlM_append]
        exact bind_eq_ok.mpr ⟨q1, hq1, bind_eq_ok.mpr ⟨q2, hpush, rfl⟩⟩
      · rw [List.range_succ, List.map_append]
        exact h2
  obtain ⟨q1, hq1, h1⟩ := hloop numChunks.toNat
  obtain ⟨q', hshuffle, h'⟩ := stores_queueShuffle h1 rand
  exact ⟨q', bind_eq_ok.mpr ⟨q1, hq1, hshuffle⟩, h'⟩

/-! ## The entry of a new file -/

theorem addItem_shuffled {item : IteratorItem} (peer : ℤ) (st : FileTable × Rand) (h : 0 ≤ item.length) :
    addItem peer true st item =
      (st.1.insert (newEntry item peer
        (queueShuffle (chunkNumbers (numChunksForSize item.length)) st.2).1),
      (queueShuffle (chunkNumbers (numChunksForSize item.length)) st.2).2) := by
  unfold addItem
  rw [if_neg (not_lt.mpr h), if_pos rfl]

/-- The entry that stands for a listed path has been made with the random numbers of its turn. -/
theorem exists_shuffled (st : FileTable × Rand) (h : ListsFile items p) :
    ∃ item ∈ items, ∃ r, 0 ≤ item.length ∧ item.path = p ∧
      (items.foldl (addItem peer true) st).1.lookup p = some (newEntry item peer
        (queueShuffle (chunkNumbers (numChunksForSize item.length)) r).1) := by
  induction items using List.reverseRecOn with
  | nil => exact absurd h.choose_spec.1 List.not_mem_nil
  | append_singleton items item ih =>
    rw [List.foldl_append, List.foldl_cons, List.foldl_nil]
    by_cases hitem : 0 ≤ item.length ∧ item.path = p
    · refine ⟨item, List.mem_append_right _ List.mem_cons_self,
        (items.foldl (addItem peer true) st).2, hitem.1, hitem.2, ?_⟩
      rw [addItem_shuffled peer _ hitem.1, lookup_insert]
      exact if_pos hitem.2.symm
    · have hbefore : ListsFile items p := by
        refine (listsFile_append.mp h).resolve_right fun hlast => ?_
        obtain ⟨x, hx, hlength, hpath⟩ := hlast
        rw [List.mem_singleton.mp hx] at hlength hpath
        exact hitem ⟨hlength, hpath⟩
      obtain ⟨x, hx, r, hlength, hpath, hlook⟩ := ih hbefore
      refine ⟨x, List.mem_append_left _ hx, r, hlength, hpath, ?_⟩
      rw [← hlook]
      by_cases hneg : item.length < 0
      · rw [addItem_of_neg hneg]
      · have hne : p ≠ item.path := fun hp => hitem ⟨not_lt.mp hneg, hp.symm⟩
        rw [addItem_shuffled peer _ (not_lt.mp hneg), lookup_insert]
        exact if_neg hne

/-! ## Draining a work queue -/

/-- The table while jobs on one file are taken, with the chunks handed out so far. -/
structure Drain where
  ft : FileTable
  jobs : JobState
  handedOut : List ℤ

inductive DrainCall
  | getJob (maxPending : ℕ)
  | findAndRemove (jobId : ℤ)

def DrainCall.isGetJob : DrainCall → Bool
  | .getJob _ => true
  | .findAndRemove _ => false

/-- With room and work there is a job. -/
theorem filetableentryGetJob_some {maxPending : ℕ} {st st' : JobState} {job : Option (ℤ × ℤ × ℤ)}
    {c : ℤ} {workQueue : List ℤ} (h : filetableentryGetJob e maxPending st = .ok (job, e', st'))
    (hq : e.workQueue = c :: workQueue) (hlt : e.outstandingRequests.length < maxPending) :
    ∃ dest, job = some (c, dest, (st.nextJobId : ℤ)) := by
  rcases filetableentryGetJob_ok h with ⟨rfl, rfl, -⟩ | ⟨c', w', owners, dest, rfl, hq', -⟩
  · unfold filetableentryGetJob at h
    rw [hq] at h
    dsimp only at h
    rw [if_neg (not_le.mpr hlt)] at h
    split_ifs at h
    split at h
    · cases h
    · split at h <;> cases h
  · cases hq.symm.trans hq'
    exact ⟨dest, rfl⟩

namespace Drain

def step (path : CString) (s : Drain) : DrainCall → Except Abort Drain
  | .getJob maxPending =>
    match s.ft.lookup path with
    | none => .error .nullPointer
    | some entry => do
      let (job, entry, jobs) ← filetableentryGetJob entry maxPending s.jobs
      return ⟨s.ft.overwrite entry, jobs, s.handedOut ++ job.toList.map fun job => job.1⟩
  | .findAndRemove jobId => do
    let (_, ft) ← filetableFindAndRemoveJobId s.ft path jobId
    return { s with ft := ft }

/-- A job is asked for when there is room for one more. -/
def HasRoom (path : CString) (s : Drain) : DrainCall → Prop
  | .getJob maxPending => ∃ e, s.ft.lookup path = some e ∧ e.outstandingRequests.length < maxPending
  | .findAndRemove _ => True

/-- What has been handed out and what is queued are the work queue of `e`, in order. -/
def Inv (path : CString) (e : FileTableEntry) (s : Drain) : Prop :=
  ∃ e', s.ft.lookup path = some e' ∧ e'.chunks = e.chunks ∧ e.workQueue = s.handedOut ++ e'.workQueue

variable {s t : Drain} {call : DrainCall} {calls : List DrainCall} {path : CString}

theorem step_getJob {maxPending : ℕ} {job : Option (ℤ × ℤ × ℤ)} {jobs : JobState}
    (hlook : s.ft.lookup path = some e)
    (hjob : filetableentryGetJob e maxPending s.jobs = .ok (job, e', jobs)) :
    s.step path (.getJob maxPending) = .ok ⟨s.ft.overwrite e', jobs,
      s.handedOut ++ job.toList.map fun job => job.1⟩ := by
  unfold Drain.step
  rw [hlook]
  exact bind_eq_ok.mpr ⟨_, hjob, rfl⟩

theorem step_findAndRemove {ft : FileTable} {jobId removed : ℤ}
    (hfind : filetableFindAndRemoveJobId s.ft path jobId = .ok (removed, ft)) :
    s.step path (.findAndRemove jobId) = .ok { s with ft := ft } := bind_eq_ok.mpr ⟨_, hfind, rfl⟩

theorem Inv.step (he : e.Served) (h : s.Inv path e) (call : DrainCall) :
    ∃ t, s.step path call = .ok t ∧ t.Inv path e := by
  obtain ⟨e', he', hchunks, hqueue⟩ := h
  cases call with
  | getJob maxPending =>
    have hserved : e'.Served := fun c hc => by
      unfold FileTableEntry.HasOwner
      rw [hchunks]
      exact he c (by rw [hqueue]; exact List.mem_append_right _ hc)
    obtain ⟨⟨job, e1, jobs⟩, hjob⟩ := filetableentryGetJob_isOk hserved maxPending s.jobs
    have hpath : e1.path = path := by
      have hold := path_of_lookup he'
      rcases filetableentryGetJob_ok hjob with ⟨-, rfl, -⟩ | ⟨_, _, _, _, -, -, -, -, -, rfl, -⟩ <;>
        exact hold
    refine ⟨_, step_getJob he' hjob, e1, (isUpdate_overwrite he' hpath path).trans (if_pos rfl), ?_⟩
    rcases filetableentryGetJob_ok hjob with ⟨rfl, rfl, -⟩ |
      ⟨c, workQueue, owners, dest, rfl, hq, -, -, -, rfl, -⟩
    · exact ⟨hchunks, hqueue.trans (congrArg (· ++ _) (List.append_nil _).symm)⟩
    · refine ⟨hchunks, hqueue.trans ?_⟩
      rw [hq]
      simp
  | findAndRemove jobId =>
    obtain ⟨⟨removed, ft⟩, hfind⟩ := filetableFindAndRemoveJobId_isOk.mpr ⟨e', he'⟩
    obtain ⟨e'', he'', -, hlook⟩ := filetableFindAndRemoveJobId_ok hfind
    cases he'.symm.trans he''
    exact ⟨_, step_findAndRemove hfind, _, (hlook path).trans (if_pos rfl), hchunks, hqueue⟩

theorem Inv.foldlM (he : e.Served) (h : s.Inv path e) (calls : List DrainCall) :
    ∃ t, calls.foldlM (Drain.step path) s = .ok t ∧ t.Inv path e := by
  induction calls generalizing s with
  | nil => exact ⟨s, rfl, h⟩
  | cons call calls ih =>
    obtain ⟨s1, hstep, h1⟩ := h.step he call
    obtain ⟨t, hrest, ht⟩ := ih h1
    exact ⟨t, by rw [List.foldlM_cons]; exact bind_eq_ok.mpr ⟨s1, hstep, hrest⟩, ht⟩

/-- With room, a call for a job hands one out while there is one. -/
theorem Inv.handedOut_length (h : s.Inv path e) (hroom : s.HasRoom path call)
    (hstep : s.step path call = .ok t) :
    min e.workQueue.length (s.handedOut.length + if call.isGetJob then 1 else 0) ≤
      t.handedOut.length := by
  obtain ⟨e', he', hchunks, hqueue⟩ := h
  cases call with
  | getJob maxPending =>
    obtain ⟨x, hx, hlt⟩ := hroom
    cases he'.symm.trans hx
    unfold Drain.step at hstep
    rw [he'] at hstep
    obtain ⟨⟨job, e1, jobs⟩, hjob, hret⟩ := bind_eq_ok.mp hstep
    cases hret
    rw [hqueue, List.length_append, List.length_append]
    cases hq : e'.workQueue with
    | nil => exact (min_le_left _ _).trans (by rw [List.length_nil]; omega)
    | cons c workQueue =>
      obtain ⟨dest, hsome⟩ := filetableentryGetJob_some hjob hq hlt
      rw [hsome]
      exact min_le_right _ _
  | findAndRemove jobId =>
    obtain ⟨⟨removed, ft⟩, -, hstep⟩ := bind_eq_ok.mp hstep
    cases hstep
    exact min_le_right _ _

/-- With room for each, a run hands out as many jobs as it asks for, while there are any. -/
theorem Inv.run_length (he : e.Served) (h : s.Inv path e)
    (hrun : Run (Drain.step path) (HasRoom path) s calls t) :
    t.Inv path e ∧ min e.workQueue.length (s.handedOut.length + calls.countP DrainCall.isGetJob) ≤
      t.handedOut.length := by
  induction hrun with
  | nil s => exact ⟨h, min_le_right _ _⟩
  | @cons s s1 t call calls hroom hstep _ ih =>
    obtain ⟨s2, hstep', h2⟩ := h.step he call
    cases hstep.symm.trans hstep'
    obtain ⟨ht, hlength⟩ := ih h2
    have hone := h.handedOut_length hroom hstep
    rw [List.countP_cons]
    refine ⟨ht, ?_⟩
    omega

/-- Everything that was queued has been handed out when nothing is left. -/
theorem Inv.handedOut_eq (h : s.Inv path e) (hlength : e.workQueue.length ≤ s.handedOut.length) :
    s.handedOut = e.workQueue := by
  obtain ⟨e', -, -, hqueue⟩ := h
  rw [hqueue, List.length_append] at hlength
  rw [hqueue, List.length_eq_zero_iff.mp (show e'.workQueue.length = 0 by omega), List.append_nil]

/-- A job after another, each id taken back before the next is asked for. -/
def inTurn (maxPending : ℕ) (jobId : ℕ) : ℕ → List DrainCall
  | 0 => []
  | n + 1 => .getJob maxPending :: .findAndRemove jobId :: inTurn maxPending (jobId + 1) n

/-- With room for one request, taking each id back makes room for the next. -/
theorem run_inTurn {maxPending n : ℕ} (hmax : 1 ≤ maxPending) (he : e.Served)
    (hlook : s.ft.lookup path = some e) (hreq : e.outstandingRequests = [])
    (hn : n ≤ e.workQueue.length) :
    ∃ t, Run (Drain.step path) (HasRoom path) s (inTurn maxPending s.jobs.nextJobId n) t := by
  induction n generalizing s e with
  | zero => exact ⟨s, .nil s⟩
  | succ n ih =>
    cases hq : e.workQueue with
    | nil => rw [hq] at hn; exact absurd hn (Nat.not_succ_le_zero n)
    | cons c workQueue =>
      obtain ⟨⟨job, e1, jobs⟩, hjob⟩ := filetableentryGetJob_isOk he maxPending s.jobs
      have hlt : e.outstandingRequests.length < maxPending := by rw [hreq]; exact hmax
      obtain ⟨dest, rfl⟩ := filetableentryGetJob_some hjob hq hlt
      rcases filetableentryGetJob_ok hjob with ⟨hnone, -⟩ |
        ⟨c', workQueue', owners, dest', -, hq', -, -, -, he1, hjobs⟩
      · cases hnone
      · have hnext : jobs.nextJobId = s.jobs.nextJobId + 1 := by
          rw [nextJobId_of_pos (by rw [hjobs]; exact Nat.succ_ne_zero _), hjobs]
        have hpath : e1.path = path := by
          have hold := path_of_lookup hlook
          rwa [he1]
        have hlook1 := (isUpdate_overwrite hlook hpath path).trans (if_pos rfl)
        obtain ⟨⟨removed, ft2⟩, hfind⟩ : ∃ r, filetableFindAndRemoveJobId (s.ft.overwrite e1) path
            s.jobs.nextJobId = .ok r := filetableFindAndRemoveJobId_isOk.mpr ⟨e1, hlook1⟩
        obtain ⟨e2, he2, -, hupdate⟩ := filetableFindAndRemoveJobId_ok hfind
        cases hlook1.symm.trans he2
        have hserved : e1.Served := fun k hk => by
          rw [he1] at hk ⊢
          exact he k (by rw [hq']; exact List.mem_cons_of_mem _ hk)
        have hfree : e1.outstandingRequests.erase s.jobs.nextJobId = [] := by
          rw [he1, hreq]
          simp
        have hleft : n ≤ e1.workQueue.length := by
          rw [hq', List.length_cons] at hn
          rw [he1]
          exact Nat.le_of_succ_le_succ hn
        have hlook2 := (hupdate path).trans (if_pos rfl)
        obtain ⟨t, hrun⟩ : ∃ t, Run (Drain.step path) (HasRoom path)
            ⟨ft2, jobs, s.handedOut ++ [c]⟩ (inTurn maxPending jobs.nextJobId n) t :=
          ih (by exact hserved) hlook2 hfree hleft
        rw [hnext] at hrun
        have hremove := step_findAndRemove (s := ⟨s.ft.overwrite e1, jobs, s.handedOut ++ [c]⟩) hfind
        exact ⟨t, .cons ⟨e, hlook, hlt⟩ (step_getJob hlook hjob) (.cons trivial hremove hrun)⟩

end Drain

/-- From `s` on no call fails; the chunks handed out are, with those still queued, all chunks, each
once; and a run that asks for as many jobs as there are chunks, with room for each, hands out all of
them. There are such runs. -/
structure HandsOutOnce (path : CString) (chunks : List ℤ) (s : Drain) : Prop where
  handled : ∀ calls : List DrainCall, ∃ t, calls.foldlM (Drain.step path) s = .ok t
  once : ∀ (calls : List DrainCall) (t : Drain), calls.foldlM (Drain.step path) s = .ok t →
    ∃ e, t.ft.lookup path = some e ∧ (t.handedOut ++ e.workQueue).Perm chunks
  all : ∀ calls t, Run (Drain.step path) (Drain.HasRoom path) s calls t →
    chunks.length ≤ calls.countP DrainCall.isGetJob → t.handedOut.Perm chunks
  drains : ∀ maxPending, 1 ≤ maxPending → ∃ t, Run (Drain.step path) (Drain.HasRoom path) s
    (Drain.inTurn maxPending s.jobs.nextJobId chunks.length) t ∧ t.handedOut.Perm chunks

theorem countP_inTurn (maxPending jobId n : ℕ) :
    (Drain.inTurn maxPending jobId n).countP DrainCall.isGetJob = n := by
  induction n generalizing jobId with
  | zero => rfl
  | succ n ih =>
    rw [Drain.inTurn, List.countP_cons_of_pos rfl, List.countP_cons_of_neg Bool.false_ne_true, ih]

/-- The jobs on an entry that waits for nothing. -/
theorem handsOutOnce {ft : FileTable} {chunks : List ℤ} (hlook : ft.lookup p = some e) (he : e.Served)
    (hreq : e.outstandingRequests = []) (hperm : e.workQueue.Perm chunks) (jobs : JobState) :
    HandsOutOnce p chunks ⟨ft, jobs, []⟩ := by
  have hinv : Drain.Inv p e ⟨ft, jobs, []⟩ := ⟨e, hlook, rfl, rfl⟩
  have hall : ∀ calls t, Run (Drain.step p) (Drain.HasRoom p) ⟨ft, jobs, []⟩ calls t →
      chunks.length ≤ calls.countP DrainCall.isGetJob → t.handedOut.Perm chunks := by
    intro calls t hrun hcount
    obtain ⟨ht, hlength⟩ := hinv.run_length he hrun
    rw [List.length_nil, Nat.zero_add, min_eq_left (hperm.length_eq.le.trans hcount)] at hlength
    rw [ht.handedOut_eq hlength]
    exact hperm
  refine ⟨fun calls => ?_, fun calls t hrun => ?_, hall, fun maxPending hmax => ?_⟩
  · obtain ⟨t, ht, -⟩ := hinv.foldlM he calls
    exact ⟨t, ht⟩
  · obtain ⟨t', ht', e', he', -, hqueue⟩ := hinv.foldlM he calls
    cases hrun.symm.trans ht'
    exact ⟨e', he', hqueue ▸ hperm⟩
  · obtain ⟨t, hrun⟩ := Drain.run_inTurn (s := ⟨ft, jobs, []⟩) hmax he hlook hreq hperm.length_eq.ge
    exact ⟨t, hrun, hall _ t hrun (countP_inTurn _ _ _).ge⟩

/-- **New work.** After `filetable_add_filesystem` with `NEED_DATA` the work queue of each file is a
permutation of its chunk numbers, which is what the shuffled ring in memory holds; nothing is
outstanding and each chunk has an owner. Draining it hands out each chunk once. -/
theorem newWork_covers (ft : FileTable) (fs : Folder) (peer : ℤ) (rand : Rand) (fresh : Malloc ℤ)
    (x : CString × UInt64) (hfs : fs.IsListing) (hx : x ∈ fileList .empty fs) :
    ∃ e, (filetableAddFilesystem ft fs peer true rand).1.lookup x.1 = some e ∧
      e.workQueue.Perm (chunkNumbers (numChunksForSize x.2.toNat)) ∧
      e.outstandingRequests = [] ∧
      (∀ c ∈ chunkNumbers (numChunksForSize x.2.toNat), e.HasOwner c) ∧
      (∃ r r' q, newWorkQueue fresh (numChunksForSize x.2.toNat) r = .ok (q, r') ∧
        Stores q e.workQueue) ∧
      ∀ jobs, HandsOutOnce x.1 (chunkNumbers (numChunksForSize x.2.toNat))
        ⟨(filetableAddFilesystem ft fs peer true rand).1, jobs, []⟩ := by
  obtain ⟨e, he, hfresh⟩ := lookup_filetableAddFilesystem_of_mem ft hfs peer true rand hx
  have hperm := hfresh.workQueue
  rw [if_pos rfl] at hperm
  have howner : ∀ c ∈ chunkNumbers (numChunksForSize x.2.toNat), e.HasOwner c := by
    intro c hc
    obtain ⟨hpos, hlt⟩ := mem_chunkNumbers.mp hc
    refine ⟨hpos, [peer], ?_, List.cons_ne_nil _ _⟩
    rw [hfresh.chunks, newChunks, List.getElem?_replicate, if_pos (by omega)]
  refine ⟨e, he, hperm, hfresh.outstandingRequests, howner, ?_, fun jobs => ?_⟩
  · have hshuffled : ∃ item ∈ filesystemIteratorRelative true fs, ∃ r, 0 ≤ item.length ∧
        item.path = x.1 ∧ (filetableAddFilesystem ft fs peer true rand).1.lookup x.1 =
          some (newEntry item peer
            (queueShuffle (chunkNumbers (numChunksForSize item.length)) r).1) :=
      exists_shuffled (ft, rand) ((listsFile_iff_mem hfs).mpr (List.mem_map_of_mem hx))
    obtain ⟨item, hitem, r, hlength, hpath, hlook⟩ := hshuffled
    rw [length_of_listed hfs hx hitem hlength hpath] at hlook
    cases he.symm.trans hlook
    obtain ⟨q, hq, hstores⟩ := stores_newWorkQueue fresh (numChunksForSize x.2.toNat) r
    exact ⟨r, _, q, hq, hstores⟩
  · have hserved : e.Served := fun c hc => howner c (hperm.mem_iff.mp hc)
    exact handsOutOnce he hserved hfresh.outstandingRequests hperm jobs

namespace NewWorkExample

/-- A file `a` of two chunks in the folder `d`. -/
def nested : Folder := ⟨.empty, [⟨.ofBytes [100], 0, 0, 1⟩],
  [⟨.ofBytes [100], [⟨.ofBytes [97], 500001, 5, 0⟩], []⟩]⟩

/-- The table after it has been added for peer 2. -/
def added : FileTable := (filetableAddFilesystem filetableNew nested 2 true fun n => n).1

end NewWorkExample

open NewWorkExample in
theorem newWork_covers_nested : ∃ e, added.lookup (.ofBytes [47, 100, 47, 97]) = some e ∧
    e.workQueue.Perm (chunkNumbers (numChunksForSize 500001)) ∧ e.outstandingRequests = [] ∧
    (∀ c ∈ chunkNumbers (numChunksForSize 500001), e.HasOwner c) ∧
    (∃ r r' q, newWorkQueue (fun _ _ => 77) (numChunksForSize 500001) r = .ok (q, r') ∧
      Stores q e.workQueue) ∧
    ∀ jobs, HandsOutOnce (.ofBytes [47, 100, 47, 97]) (chunkNumbers (numChunksForSize 500001))
      ⟨added, jobs, []⟩ :=
  newWork_covers filetableNew nested 2 (fun n => n) (fun _ _ => 77) (.ofBytes [47, 100, 47, 97], 500001)
    (by decide) (by decide)

end DartSync
