import DartSync.Client
import DartSync.FileTable.Entries
import DartSync.Library.Runs

/-!
# The work queue

`check_work_queue` turns queued chunks into jobs with ids that follow each other. It fails no
assertion while every queued chunk has an owner. `filetable_remove_peer` takes a peer out of the
owner lists and leaves the work queues alone, so a departure can leave a queued chunk without owner.
-/

namespace DartSync

open FileTable Runs

variable {c c' : Client} {ft ft' : FileTable} {st st' : JobState} {e e' e1 : FileTableEntry}
  {p : CString} {sent : List ClientMessage} {fuel : ℕ}

/-! ## Jobs -/

/-- A job: a chunk, the peer that is asked for it and the id. -/
structure Job where
  chunk : ℤ
  dest : ℤ
  jobId : ℤ

/-- The request that `check_work_queue` sends for a job on the file at `path`. -/
def Job.request (path : CString) (job : Job) : ClientMessage :=
  .chunkRequest job.dest path job.chunk job.jobId

/-- The ids follow each other from `start` on. -/
def Consecutive : ℕ → List ℤ → Prop
  | _, [] => True
  | start, id :: ids => id = start ∧ Consecutive (start + 1) ids

theorem Consecutive.append {start : ℕ} {ids ids' : List ℤ} (h : Consecutive start ids)
    (h' : Consecutive (start + ids.length) ids') : Consecutive start (ids ++ ids') := by
  induction ids generalizing start with
  | nil => exact h'
  | cons id ids ih =>
    refine ⟨h.1, ih h.2 ?_⟩
    rwa [Nat.add_assoc, Nat.add_comm 1]

theorem Consecutive.mem {start : ℕ} {ids : List ℤ} (h : Consecutive start ids) {id : ℤ}
    (hid : id ∈ ids) : start ≤ id ∧ id < start + ids.length := by
  induction ids generalizing start with
  | nil => cases hid
  | cons id' ids ih =>
    rw [List.length_cons]
    rcases List.mem_cons.mp hid with rfl | hid
    · have := h.1
      omega
    · have := ih h.2 hid
      omega

theorem Consecutive.nodup {start : ℕ} {ids : List ℤ} (h : Consecutive start ids) : ids.Nodup := by
  induction ids generalizing start with
  | nil => exact List.nodup_nil
  | cons id ids ih =>
    refine List.nodup_cons.mpr ⟨fun hid => ?_, ih h.2⟩
    have := h.2.mem hid
    have := h.1
    omega

/-- The jobs come from the front of the work queue, each for an owner of its chunk. -/
structure JobsTaken (e e' : FileTableEntry) (jobs : List Job) : Prop where
  path : e'.path = e.path
  file : e'.file = e.file
  chunks : e'.chunks = e.chunks
  workQueue : e.workQueue = jobs.map Job.chunk ++ e'.workQueue
  outstandingRequests : e'.outstandingRequests = e.outstandingRequests ++ jobs.map Job.jobId
  owner : ∀ job ∈ jobs, ∃ owners, e.chunks[job.chunk.toNat]? = some owners ∧ job.dest ∈ owners

theorem JobsTaken.refl (e : FileTableEntry) : JobsTaken e e [] :=
  ⟨rfl, rfl, rfl, rfl, by simp, nofun⟩

theorem JobsTaken.trans {jobs jobs' : List Job} (h : JobsTaken e e1 jobs)
    (h' : JobsTaken e1 e' jobs') : JobsTaken e e' (jobs ++ jobs') where
  path := h'.path.trans h.path
  file := h'.file.trans h.file
  chunks := h'.chunks.trans h.chunks
  workQueue := by rw [h.workQueue, h'.workQueue, List.map_append, List.append_assoc]
  outstandingRequests := by
    rw [h'.outstandingRequests, h.outstandingRequests, List.map_append, List.append_assoc]
  owner job hjob := by
    rcases List.mem_append.mp hjob with hjob | hjob
    · exact h.owner job hjob
    · rw [← h.chunks]
      exact h'.owner job hjob

theorem JobsTaken.served {jobs : List Job} (h : JobsTaken e e' jobs) (he : e.Served) :
    e'.Served := by
  intro k hk
  unfold FileTableEntry.HasOwner
  rw [h.chunks]
  exact he k (by rw [h.workQueue]; exact List.mem_append_right _ hk)

/-- One turn of the inner loop. -/
theorem jobsTaken_of_getJob {job : Option (ℤ × ℤ × ℤ)}
    (h : filetableentryGetJob e maxPendingRequests st = .ok (job, e', st')) :
    (job = none ∧ e' = e ∧ st'.nextJobId = st.nextJobId) ∨
    ∃ k dest, job = some (k, dest, (st.nextJobId : ℤ)) ∧ st'.nextJobId = st.nextJobId + 1 ∧
      JobsTaken e e' [⟨k, dest, st.nextJobId⟩] := by
  rcases filetableentryGetJob_ok h with ⟨rfl, rfl, hst⟩ |
    ⟨k, workQueue, owners, dest, rfl, hq, -, howners, hdest, rfl, hst⟩
  · exact Or.inl ⟨rfl, rfl, by rw [nextJobId_of_pos (by rw [hst]; exact nextJobId_ne_zero), hst]⟩
  · have hnext : st'.nextJobId = st.nextJobId + 1 := by
      rw [nextJobId_of_pos (by rw [hst]; exact Nat.succ_ne_zero _), hst]
    refine Or.inr ⟨k, dest, rfl, hnext, rfl, rfl, rfl, hq, rfl, fun job hjob => ?_⟩
    rw [List.mem_singleton.mp hjob]
    exact ⟨owners, howners, hdest⟩

/-- The inner loop. -/
theorem getJobs_ok (h : getJobs fuel e st = .ok (e', st', sent)) :
    ∃ jobs : List Job, JobsTaken e e' jobs ∧ sent = jobs.map (Job.request e.path) ∧
      Consecutive st.nextJobId (jobs.map Job.jobId) ∧
      st'.nextJobId = st.nextJobId + jobs.length := by
  induction fuel generalizing e st sent with
  | zero =>
    cases h
    exact ⟨[], .refl _, rfl, trivial, rfl⟩
  | succ fuel ih =>
    rw [getJobs] at h
    obtain ⟨⟨job, e1, st1⟩, hjob, hrest⟩ := bind_eq_ok.mp h
    rcases jobsTaken_of_getJob hjob with ⟨rfl, rfl, hnext⟩ | ⟨k, dest, rfl, hnext, htaken⟩
    · cases hrest
      exact ⟨[], .refl e', rfl, trivial, hnext⟩
    · obtain ⟨⟨e2, st2, sent2⟩, h2, hrest⟩ := bind_eq_ok.mp hrest
      cases hrest
      obtain ⟨jobs, hjobs, rfl, hids, hst⟩ := ih h2
      rw [hnext] at hids hst
      refine ⟨_ :: jobs, htaken.trans hjobs, ?_, ⟨rfl, hids⟩, ?_⟩
      · rw [List.map_cons, hjobs.path, htaken.path]
        rfl
      · rw [hst, List.length_cons, Nat.add_assoc, Nat.add_comm 1]

theorem getJobs_isOk (he : e.Served) (fuel : ℕ) (st : JobState) :
    ∃ r, getJobs fuel e st = .ok r := by
  induction fuel generalizing e st with
  | zero => exact ⟨_, rfl⟩
  | succ fuel ih =>
    rw [getJobs]
    obtain ⟨⟨job, e1, st1⟩, hjob⟩ := filetableentryGetJob_isOk he maxPendingRequests st
    rcases jobsTaken_of_getJob hjob with ⟨rfl, rfl, -⟩ | ⟨k, dest, rfl, -, htaken⟩
    · exact ⟨_, bind_eq_ok.mpr ⟨_, hjob, rfl⟩⟩
    · obtain ⟨⟨e2, st2, sent2⟩, h2⟩ := ih (htaken.served he) st1
      exact ⟨_, bind_eq_ok.mpr ⟨_, hjob, bind_eq_ok.mpr ⟨_, h2, rfl⟩⟩⟩

/-! ## All entries -/

/-- What `check_work_queue` does to a table: each request is for a job of the entry at its path. -/
structure WorkTaken (ft ft' : FileTable) (requests : List (CString × Job)) : Prop where
  lookup : ∀ p e', ft'.lookup p = some e' → ∃ e jobs, ft.lookup p = some e ∧ JobsTaken e e' jobs ∧
    ∀ job ∈ jobs, (p, job) ∈ requests
  owner : ∀ p job, (p, job) ∈ requests → ∃ e owners, ft.lookup p = some e ∧
    job.chunk ∈ e.workQueue ∧ e.chunks[job.chunk.toNat]? = some owners ∧ job.dest ∈ owners

theorem WorkTaken.refl (ft : FileTable) : WorkTaken ft ft [] :=
  ⟨fun _ e' he' => ⟨e', [], he', .refl e', nofun⟩, nofun⟩

theorem WorkTaken.trans {ft1 : FileTable} {requests requests' : List (CString × Job)}
    (h : WorkTaken ft ft1 requests) (h' : WorkTaken ft1 ft' requests') :
    WorkTaken ft ft' (requests ++ requests') where
  lookup p e' he' := by
    obtain ⟨e1, jobs', he1, htaken', hsent'⟩ := h'.lookup p e' he'
    obtain ⟨e, jobs, he, htaken, hsent⟩ := h.lookup p e1 he1
    refine ⟨e, jobs ++ jobs', he, htaken.trans htaken', fun job hjob => ?_⟩
    exact List.mem_append.mpr ((List.mem_append.mp hjob).imp (hsent job) (hsent' job))
  owner p job hjob := by
    rcases List.mem_append.mp hjob with hjob | hjob
    · exact h.owner p job hjob
    · obtain ⟨e1, owners, he1, hmem, howners, hdest⟩ := h'.owner p job hjob
      obtain ⟨e, jobs, he, htaken, -⟩ := h.lookup p e1 he1
      refine ⟨e, owners, he, ?_, htaken.chunks ▸ howners, hdest⟩
      rw [htaken.workQueue]
      exact List.mem_append_right _ hmem

/-- The turn of the outer loop for one entry. -/
theorem workTaken_overwrite {jobs : List Job} (he : ft.lookup e.path = some e)
    (h : JobsTaken e e' jobs) :
    WorkTaken ft (ft.overwrite e') (jobs.map fun job => (e.path, job)) where
  lookup p x hx := by
    rw [lookup_overwrite_of_lookup he h.path] at hx
    split_ifs at hx with hp
    · cases hx
      exact ⟨e, jobs, hp ▸ he, h, fun job hjob => hp ▸ List.mem_map_of_mem hjob⟩
    · exact ⟨x, [], hx, .refl x, nofun⟩
  owner p job hjob := by
    obtain ⟨job, hjob, heq⟩ := List.mem_map.mp hjob
    cases heq
    obtain ⟨owners, howners, hdest⟩ := h.owner job hjob
    refine ⟨e, owners, he, ?_, howners, hdest⟩
    rw [h.workQueue]
    exact List.mem_append_left _ (List.mem_map_of_mem hjob)

theorem foldlM_checkEntry_ok {l : List FileTableEntry} {sent' : List ClientMessage}
    (hl : ∀ e ∈ l, ft.lookup e.path = some e) (hnd : (l.map FileTableEntry.path).Nodup)
    (h : l.foldlM checkEntry (ft, st, sent) = .ok (ft', st', sent')) :
    ∃ requests, WorkTaken ft ft' requests ∧
      sent' = sent ++ requests.map (fun r => r.2.request r.1) ∧
      Consecutive st.nextJobId (requests.map fun r => r.2.jobId) ∧
      st'.nextJobId = st.nextJobId + requests.length := by
  induction l generalizing ft st sent with
  | nil =>
    cases h
    exact ⟨[], .refl _, by simp, trivial, rfl⟩
  | cons x l ih =>
    rw [List.foldlM_cons] at h
    obtain ⟨⟨ft1, st1, sent1⟩, h1, h⟩ := bind_eq_ok.mp h
    obtain ⟨⟨x', st2, sent2⟩, hjobs, h1⟩ := bind_eq_ok.mp h1
    cases h1
    obtain ⟨jobs, htaken, rfl, hids, hst⟩ := getJobs_ok hjobs
    have hx := hl x List.mem_cons_self
    rw [List.map_cons, List.nodup_cons] at hnd
    have hl' : ∀ e ∈ l, (ft.overwrite x').lookup e.path = some e := fun e he => by
      rw [lookup_overwrite_of_lookup hx htaken.path,
        if_neg fun hp : e.path = x.path => hnd.1 (hp ▸ List.mem_map_of_mem he)]
      exact hl e (List.mem_cons_of_mem x he)
    obtain ⟨requests, hwork, rfl, hids', hst'⟩ := ih hl' hnd.2 h
    refine ⟨_, (workTaken_overwrite hx htaken).trans hwork, ?_, ?_, ?_⟩
    · rw [List.map_append, List.map_map, List.append_assoc]
      rfl
    · rw [List.map_append, List.map_map]
      refine Consecutive.append hids ?_
      rw [List.length_map, ← hst]
      exact hids'
    · rw [hst', hst, List.length_append, List.length_map, Nat.add_assoc]

/-- **The work queue.** The requests of `check_work_queue` are for chunks it has taken from the work
queues, and their ids follow each other. -/
theorem checkWorkQueue_ok (h : checkWorkQueue c = .ok (c', sent)) :
    ∃ requests jobs, c' = { c with ft := c'.ft, jobs := jobs } ∧ WorkTaken c.ft c'.ft requests ∧
      sent = requests.map (fun r => r.2.request r.1) ∧
      Consecutive c.jobs.nextJobId (requests.map fun r => r.2.jobId) ∧
      jobs.nextJobId = c.jobs.nextJobId + requests.length := by
  obtain ⟨⟨ft', jobs, sent'⟩, hfold, h⟩ := bind_eq_ok.mp h
  cases h
  obtain ⟨requests, hwork, hsent, hids, hnext⟩ := foldlM_checkEntry_ok
    (fun e he => mem_entries.mp he) c.ft.nodup_entries hfold
  exact ⟨requests, jobs, rfl, hwork, by simpa using hsent, hids, hnext⟩

theorem checkWorkQueue_isOk (h : c.ft.All FileTableEntry.Served) :
    ∃ r, checkWorkQueue c = .ok r := by
  have hloop : ∀ l : List FileTableEntry, (∀ e ∈ l, e.Served) →
      ∀ st, ∃ r, l.foldlM checkEntry st = .ok r := by
    intro l
    induction l with
    | nil => exact fun _ st => ⟨st, rfl⟩
    | cons e l ih =>
      intro hl st
      obtain ⟨⟨e', jobs, sent⟩, hjobs⟩ :=
        getJobs_isOk (hl e List.mem_cons_self) (e.workQueue.length + 1) st.2.1
      obtain ⟨r, hr⟩ := ih (fun x hx => hl x (List.mem_cons_of_mem e hx))
        (st.1.overwrite e', jobs, st.2.2 ++ sent)
      exact ⟨r, by rw [List.foldlM_cons]; exact bind_eq_ok.mpr ⟨_, bind_eq_ok.mpr
        ⟨_, hjobs, rfl⟩, hr⟩⟩
  obtain ⟨r, hr⟩ := hloop c.ft.entries (fun e he => h _ e (mem_entries.mp he)) (c.ft, c.jobs, [])
  exact ⟨_, bind_eq_ok.mpr ⟨r, hr, rfl⟩⟩

end DartSync
