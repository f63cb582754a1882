import DartSync.Client.Disk
import DartSync.Client.Owners
import DartSync.Client.Requests
import DartSync.Client.Shared

/-!
# A download

A client that has been told of a file, and its requests for the file on their way, among all the other
things that happen to it. Each poll takes chunks out of the work queue until enough requests are
outstanding, each answer writes a chunk that was lacking, and a rejection puts its chunk back. So a
download is complete after as many answers as the file has chunks, and until then a poll or an answer
always gets on (`download_completes`).
-/

namespace DartSync

open Buffer FileTable Runs

variable {f : SharedFile} {c c' : Client} {e e' : FileTableEntry} {file file' : ChunkyFile}
  {ft ft' : FileTable} {st st' : JobState} {sent sent' : List ClientMessage} {p path : CString}
  {jobs : List Job} {fuel : ℕ} {k : ℤ}

/-! ## What a poll asks for -/

/-- The jobs for a path among the messages. -/
def jobsFor (p : CString) (sent : List ClientMessage) : List Job :=
  sent.filterMap fun
    | .chunkRequest dest path chunk jobId => if path = p then some ⟨chunk, dest, jobId⟩ else none
    | _ => none

theorem jobsFor_append : jobsFor p (sent ++ sent') = jobsFor p sent ++ jobsFor p sent' :=
  List.filterMap_append

theorem jobsFor_requests :
    jobsFor p (jobs.map (Job.request path)) = if path = p then jobs else [] := by
  unfold jobsFor
  rw [List.filterMap_map]
  split_ifs with hp
  · refine (List.filterMap_congr fun job _ => ?_).trans List.filterMap_some
    exact if_pos hp
  · refine List.filterMap_eq_nil_iff.mpr fun job _ => ?_
    exact if_neg hp

/-- Nothing is queued, or enough is outstanding. -/
def Drained (e : FileTableEntry) : Prop :=
  e.workQueue = [] ∨ maxPendingRequests ≤ e.outstandingRequests.length

theorem drained_getJobs (hfuel : e.workQueue.length < fuel)
    (h : getJobs fuel e st = .ok (e', st', sent)) : Drained e' := by
  induction fuel generalizing e st sent with
  | zero => omega
  | succ fuel ih =>
    rw [getJobs] at h
    obtain ⟨⟨job, e1, st1⟩, hjob, hrest⟩ := bind_eq_ok.mp h
    cases hq : e.workQueue with
    | nil =>
      unfold filetableentryGetJob at hjob
      rw [hq] at hjob
      cases hjob
      cases hrest
      exact Or.inl hq
    | cons chunk workQueue =>
      rcases filetableentryGetJob_ok hjob with ⟨rfl, rfl, -⟩ |
        ⟨chunk', workQueue', owners, dest, rfl, hq', -, -, -, rfl, -⟩
      · cases hrest
        refine Or.inr (not_lt.mp fun hlt => ?_)
        unfold filetableentryGetJob at hjob
        rw [hq] at hjob
        dsimp only at hjob
        rw [if_neg (not_le.mpr hlt)] at hjob
        split_ifs at hjob
        split at hjob
        · cases hjob
        · split at hjob <;> cases hjob
      · obtain ⟨⟨e2, st2, sent2⟩, h2, hrest⟩ := bind_eq_ok.mp hrest
        cases hrest
        refine ih ?_ h2
        rw [hq', List.length_cons] at hfuel
        exact Nat.lt_of_succ_lt_succ hfuel

theorem lookup_overwrite_rest {x x' : FileTableEntry} {l : List FileTableEntry}
    (hx : ft.lookup x.path = some x) (hpath : x'.path = x.path) (hnot : x.path ∉ l.map FileTableEntry.path)
    (hl : ∀ e ∈ l, ft.lookup e.path = some e) :
    ∀ e ∈ l, (ft.overwrite x').lookup e.path = some e := by
  intro e he
  rw [lookup_overwrite_of_lookup hx hpath,
    if_neg fun hp : e.path = x.path => hnot (hp ▸ List.mem_map_of_mem he)]
  exact hl e he

theorem foldlM_checkEntry_of_notMem {l : List FileTableEntry}
    (hl : ∀ e ∈ l, ft.lookup e.path = some e) (hnd : (l.map FileTableEntry.path).Nodup)
    (hp : p ∉ l.map FileTableEntry.path)
    (h : l.foldlM checkEntry (ft, st, sent) = .ok (ft', st', sent')) :
    ft'.lookup p = ft.lookup p ∧ jobsFor p sent' = jobsFor p sent := by
  induction l generalizing ft st sent with
  | nil =>
    cases h
    exact ⟨rfl, rfl⟩
  | cons x l ih =>
    rw [List.foldlM_cons] at h
    obtain ⟨⟨ft1, st1, sent1⟩, h1, h⟩ := bind_eq_ok.mp h
    obtain ⟨⟨x', st2, sent2⟩, hjobs, h1⟩ := bind_eq_ok.mp h1
    cases h1
    obtain ⟨jobs, htaken, rfl, -⟩ := getJobs_ok hjobs
    have hx := hl x List.mem_cons_self
    rw [List.map_cons, List.nodup_cons] at hnd
    rw [List.map_cons, List.mem_cons, not_or] at hp
    have hl' := lookup_overwrite_rest hx htaken.path hnd.1 fun e he => hl e (List.mem_cons_of_mem x he)
    obtain ⟨hlook, hsent⟩ := ih hl' hnd.2 hp.2 h
    refine ⟨hlook.trans ?_, hsent.trans ?_⟩
    · rw [lookup_overwrite_of_lookup hx htaken.path, if_neg hp.1]
    · rw [jobsFor_append, jobsFor_requests, if_neg (Ne.symm hp.1), List.append_nil]

theorem foldlM_checkEntry_of_mem {l : List FileTableEntry}
    (hl : ∀ e ∈ l, ft.lookup e.path = some e) (hnd : (l.map FileTableEntry.path).Nodup)
    (he : e ∈ l) (h : l.foldlM checkEntry (ft, st, sent) = .ok (ft', st', sent')) :
    ∃ e' jobs, ft'.lookup e.path = some e' ∧ JobsTaken e e' jobs ∧ Drained e' ∧
      jobsFor e.path sent' = jobsFor e.path sent ++ jobs := by
  induction l generalizing ft st sent with
  | nil => cases he
  | cons x l ih =>
    rw [List.foldlM_cons] at h
    obtain ⟨⟨ft1, st1, sent1⟩, h1, h⟩ := bind_eq_ok.mp h
    obtain ⟨⟨x', st2, sent2⟩, hjobs, h1⟩ := bind_eq_ok.mp h1
    cases h1
    obtain ⟨jobs, htaken, rfl, -⟩ := getJobs_ok hjobs
    have hx := hl x List.mem_cons_self
    rw [List.map_cons, List.nodup_cons] at hnd
    have hl' := lookup_overwrite_rest hx htaken.path hnd.1 fun e he => hl e (List.mem_cons_of_mem x he)
    rcases List.mem_cons.mp he with rfl | he
    · obtain ⟨hlook, hsent⟩ := foldlM_checkEntry_of_notMem hl' hnd.2 hnd.1 h
      refine ⟨x', jobs, ?_, htaken, drained_getJobs (Nat.lt_succ_self _) hjobs, ?_⟩
      · rw [hlook, lookup_overwrite_of_lookup hx htaken.path, if_pos rfl]
      · rw [hsent, jobsFor_append, jobsFor_requests, if_pos rfl]
    · obtain ⟨e', jobs', hlook, htaken', hdrained, hsent⟩ := ih hl' hnd.2 he h
      refine ⟨e', jobs', hlook, htaken', hdrained, ?_⟩
      have hne : x.path ≠ e.path := fun heq => hnd.1 (heq ▸ List.mem_map_of_mem he)
      rw [hsent, jobsFor_append, jobsFor_requests, if_neg hne, List.append_nil]

/-- **A poll.** The requests for a path are the jobs that its entry gives out, until it is drained. -/
theorem checkWorkQueue_jobs (he : c.ft.lookup p = some e) (h : checkWorkQueue c = .ok (c', sent)) :
    ∃ e', c'.ft.lookup p = some e' ∧ JobsTaken e e' (jobsFor p sent) ∧ Drained e' := by
  obtain ⟨⟨ft', jobs, sent'⟩, hfold, h⟩ := bind_eq_ok.mp h
  cases h
  obtain rfl := path_of_lookup he
  obtain ⟨e', jobs, hlook, htaken, hdrained, hjobs⟩ := foldlM_checkEntry_of_mem
    (fun e he => mem_entries.mp he) c.ft.nodup_entries (mem_entries.mpr he) hfold
  rw [hjobs]
  exact ⟨e', hlook, htaken, hdrained⟩

/-! ## What else happens -/

namespace SharedFile

/-- The chunks of the file that are still to be written. -/
def lacking (f : SharedFile) (c : Client) : List ℤ :=
  (chunkNumbers (numChunksForSize f.content.length)).filter fun k =>
    (filetableGetChunkyfile c.ft f.name).any fun file => decide (file.Lacks k)

theorem mem_lacking : k ∈ f.lacking c ↔ (0 ≤ k ∧ k < numChunksForSize f.content.length) ∧
    ∃ file, filetableGetChunkyfile c.ft f.name = some file ∧ file.Lacks k := by
  unfold lacking
  rw [List.mem_filter, mem_chunkNumbers, Option.any_eq_true]
  simp only [decide_eq_true_eq]

theorem nodup_lacking : (f.lacking c).Nodup := by
  unfold lacking chunkNumbers
  exact (List.nodup_range.map Int.ofNat_injective).filter _

/-- The event neither answers a request for the file nor adds it to the table. -/
def NotAbout (f : SharedFile) (c : Client) : ClientEvent → Prop
  | .workQueue => False
  | .chunk filepath _ _ _ => filepath ≠ f.name
  | .diff additions _ _ => f.Avoids additions
  | .master master => f.Avoids (filesystemDiff c.curFs master).1
  | .checkLocal now => c.Settled now → f.Avoids c.localDiff.1
  | _ => True

/-- What is queued and what is outstanding for the file stays; a file that has arrived may be opened
for reading. -/
structure SameWork (e e' : FileTableEntry) : Prop where
  workQueue : e'.workQueue.Perm e.workQueue
  outstandingRequests : e'.outstandingRequests = e.outstandingRequests
  file : e'.file = e.file ∨
    e.file = none ∧ ∃ content, e'.file = some (chunkyfileNewForReadingFromPath content)

theorem SameWork.refl (e : FileTableEntry) : SameWork e e := ⟨.refl _, rfl, Or.inl rfl⟩

theorem lookup_addFilesystem_of_avoids {fs : Folder} {peer : ℤ} {needsData : Bool} {rand : Rand}
    (h : f.Avoids fs) : (filetableAddFilesystem ft fs peer needsData rand).1.lookup f.name =
      ft.lookup f.name :=
  (lookup_foldl_addItem (ft, rand)).2 h.not_listsFile

theorem lookup_removeFilesystem_of_avoids {fs : Folder} (h : f.Avoids fs) :
    (filetableRemoveFilesystem ft fs).lookup f.name = ft.lookup f.name :=
  Option.ext fun _ => lookup_foldl_erase.trans (and_iff_left h.not_listsFile)

theorem lookup_setChunkyfile_of_avoids {fs : Folder} {item : IteratorItem} {file : Option ChunkyFile}
    (h : f.Avoids fs) (hitem : item ∈ filesystemIteratorRelative false fs) :
    (filetableSetChunkyfile ft item.path file).lookup f.name = ft.lookup f.name := by
  rw [lookup_filetableSetChunkyfile, if_neg]
  intro hpath
  exact h.order false item hitem (by rw [← hpath, resolve_name])

/-- **Other events** leave the work on the file as it is. -/
theorem sameWork_step {ev : ClientEvent} (he : c.ft.lookup f.name = some e) (hnot : f.NotAbout c ev)
    (hundisturbed : f.Undisturbed c ev) (hok : c.step ev = .ok (c', sent)) :
    ∃ e', c'.ft.lookup f.name = some e' ∧ SameWork e e' := by
  cases ev with
  | peerAdded peerId => cases hok; exact ⟨e, he, .refl e⟩
  | edit dir => cases hok; exact ⟨e, he, .refl e⟩
  | peerDeleted peerId =>
    cases hok
    refine ⟨removePeerFromEntry peerId e, ?_, .refl _, rfl, Or.inl rfl⟩
    show (filetableRemovePeer c.ft peerId).lookup f.name = _
    rw [lookup_filetableRemovePeer, he]
    rfl
  | chunkRequest peerId filepath chunkId requestId =>
    obtain ⟨rfl | ⟨hnone, content, rfl⟩, -⟩ := receiveChunkRequest_ok hok
    · exact ⟨e, he, .refl e⟩
    · dsimp only
      rw [lookup_filetableSetChunkyfile]
      split_ifs with hp
      · subst hp
        refine ⟨{ e with file := some (chunkyfileNewForReadingFromPath content) }, by rw [he]; rfl,
          .refl _, rfl, Or.inr ⟨?_, content, rfl⟩⟩
        exact (getChunkyfile_of_lookup he).symm.trans hnone
      · exact ⟨e, he, .refl e⟩
  | chunk filepath chunkId data requestId =>
    obtain ⟨e1, he1, hrec⟩ := receiveChunk_ok hok
    have hother {ft1 : FileTable} {e2 : FileTableEntry} (hft : IsUpdate c.ft ft1 filepath e2) :
        ft1.lookup f.name = some e := by
      rw [hft f.name, if_neg (Ne.symm hnot), he]
    cases hrec with
    | ignored _ hft => exact ⟨e, hother hft, .refl e⟩
    | rejected _ _ hft => exact ⟨e, hother hft, .refl e⟩
    | completed _ _ _ _ _ _ hft => exact ⟨e, hother hft, .refl e⟩
    | stored _ _ _ _ _ hft => exact ⟨e, hother hft, .refl e⟩
  | chunkGot peerId filepath chunkId =>
    obtain ⟨ft, hft, hok⟩ := bind_eq_ok.mp hok
    cases hok
    obtain ⟨e1, owners, he1, -, -, rfl⟩ := filetableSetThatPeerHasFileChunk_ok hft
    split_ifs
    · exact ⟨e, he, .refl e⟩
    · have hpath := path_of_lookup he1
      dsimp only
      rw [lookup_overwrite_of_lookup he1 (by exact hpath)]
      split_ifs with hp
      · obtain rfl := Option.some.inj ((hp ▸ he).symm.trans he1)
        exact ⟨_, rfl, .refl _, rfl, Or.inl rfl⟩
      · exact ⟨e, he, .refl e⟩
  | diff additions deletions peerId =>
    obtain ⟨rand, hget, -, -⟩ := receiveDiff_ok hok
    have havoid : f.Avoids additions := hnot
    refine ⟨e, ?_, .refl e⟩
    refine getFileAdditions_induct (R := fun ft => ft.lookup f.name = some e) hget ?_
      fun ft item hitem _ hft => (lookup_setChunkyfile_of_avoids havoid hitem).trans hft
    rw [lookup_addFilesystem_of_avoids havoid, lookup_removeFilesystem_of_avoids hundisturbed.1, he]
  | master master =>
    obtain ⟨rand, st, rfl, henqueue, -, -⟩ := updateLocalFilesystem_ok hok rfl
    have havoid : f.Avoids (filesystemDiff c.curFs master).1 := hnot
    have hbefore : (prepareAdditions (removePaths c.dir (filesystemDiff c.curFs master).2)
        (filetableRemoveFilesystem c.ft (filesystemDiff c.curFs master).2)
        (filesystemDiff c.curFs master).1).2.lookup f.name = some e :=
      prepareAdditions_induct (R := fun ft => ft.lookup f.name = some e)
        ((lookup_removeFilesystem_of_avoids hundisturbed.1).trans he)
        fun ft item hitem _ hft => (lookup_setChunkyfile_of_avoids havoid hitem).trans hft
    obtain ⟨e', he', henq⟩ := (foldlM_enqueueWorkForItem_ok henqueue f.name).2 e hbefore
    refine ⟨e', he', ?_, henq.outstandingRequests, Or.inl henq.file⟩
    have hperm := workQueue_foldlM_enqueueWorkForItem henqueue hbefore he'
    rwa [List.filter_eq_nil_iff.mpr, List.flatMap_nil, List.append_nil] at hperm
    intro item hitem hitem'
    have hitem' := of_decide_eq_true hitem'
    exact havoid.not_listsFile ⟨item, hitem, hitem'⟩
  | workQueue => exact hnot.elim
  | checkLocal now =>
    refine ⟨e, ?_, .refl e⟩
    by_cases hsettled : c.Settled now
    · have hok : checkLocalFilesystem c now = (c', sent) := Except.ok.inj hok
      rw [checkLocalFilesystem_of_settled hsettled] at hok
      split_ifs at hok
      · cases hok
        dsimp only
        rw [lookup_addFilesystem_of_avoids (hnot hsettled),
          lookup_removeFilesystem_of_avoids (hundisturbed hsettled), he]
      · cases hok
        exact he
    · obtain ⟨prevFs, prevTime, heq⟩ := checkLocalFilesystem_of_not_settled hsettled
      have hok : checkLocalFilesystem c now = (c', sent) := Except.ok.inj hok
      rw [heq] at hok
      cases hok
      exact he

end SharedFile

/-! ## Answers -/

theorem lacks_chunkyfileSetChunk_iff {i : ℤ} {text : List UInt8}
    (h : chunkyfileSetChunk file i text = .ok file') : file'.Lacks k ↔ file.Lacks k ∧ k ≠ i := by
  refine ⟨lacks_of_chunkyfileSetChunk h, ?_⟩
  rintro ⟨⟨hpath, hk, hwritten⟩, hne⟩
  unfold chunkyfileSetChunk at h
  split_ifs at h with hin
  cases h
  have hi := hin.1.1
  refine ⟨hpath, hk, ?_⟩
  rwa [List.getElem?_set_ne (by omega)]

theorem length_chunksWritten_setChunk {i : ℤ} {text : List UInt8}
    (h : chunkyfileSetChunk file i text = .ok file') :
    file'.chunksWritten.length = file.chunksWritten.length := by
  unfold chunkyfileSetChunk at h
  split_ifs at h
  cases h
  exact List.length_set

theorem exists_receiveChunk {requestId : ℤ} {text : List UInt8} (he : c.ft.lookup p = some e)
    (hmem : requestId ∈ e.outstandingRequests) (hfile : e.file = some file)
    (hset : chunkyfileSetChunk file k text = .ok file')
    (hwrite : chunkyfileAllChunksWritten file' = true → ∃ dir, chunkyfileWrite c.dir file' = .ok dir) :
    ∃ r, receiveChunk c p k (some text) requestId = .ok r := by
  obtain ⟨⟨removed, ft⟩, hremove⟩ := filetableFindAndRemoveJobId_isOk.mpr ⟨e, he⟩
  obtain ⟨e1, he1, hremoved, hft⟩ := filetableFindAndRemoveJobId_ok hremove
  obtain rfl := Option.some.inj (he.symm.trans he1)
  have hget : filetableGetChunkyfile ft p = some file :=
    (getChunkyfile_of_lookup ((hft p).trans (if_pos rfl))).trans hfile
  unfold receiveChunk
  rw [hremove]
  dsimp only [bind, Except.bind]
  rw [if_neg (not_not.mpr (hremoved.mpr (Or.inl hmem))), hget]
  dsimp only
  rw [hset]
  dsimp only
  split_ifs with hall
  · obtain ⟨dir, hdir⟩ := hwrite hall
    rw [hdir]
    exact ⟨_, rfl⟩
  · exact ⟨_, rfl⟩

/-! ## The download -/

/-- A client, and its requests for the file that have not been answered. -/
structure Download where
  client : Client
  pending : List Job

inductive DownloadEvent
  | polls
  /-- A request is answered with the bytes of its chunk. -/
  | answers (i : ℕ)
  | rejects (i : ℕ)
  | other (ev : ClientEvent)

def DownloadEvent.isAnswer : DownloadEvent → Bool
  | .answers _ => true
  | _ => false

namespace SharedFile

/-- The client handles the answer to one of the requests. -/
def downloadAnswer (f : SharedFile) (d : Download) (i : ℕ) (data : Job → Option (List UInt8)) :
    Except Abort Download :=
  match d.pending[i]? with
  | some job => do
    let (client, _) ← receiveChunk d.client f.name job.chunk (data job) job.jobId
    return ⟨client, d.pending.eraseIdx i⟩
  | none => .ok d

def downloadStep (f : SharedFile) (d : Download) : DownloadEvent → Except Abort Download
  | .polls => do
    let (client, sent) ← checkWorkQueue d.client
    return ⟨client, d.pending ++ jobsFor f.name sent⟩
  | .answers i => f.downloadAnswer d i fun job => some (f.chunk job.chunk.toNat)
  | .rejects i => f.downloadAnswer d i fun _ => none
  | .other ev => do
    let (client, _) ← d.client.step ev
    return ⟨client, d.pending⟩

/-- An answer is one to a request, the chunk of a rejection has an owner, and nothing else is about the
file or takes the last owner of a queued chunk. -/
def Allows (f : SharedFile) (d : Download) : DownloadEvent → Prop
  | .polls => True
  | .answers i => i < d.pending.length
  | .rejects i => ∀ job ∈ d.pending[i]?, KeepsOwners d.client (.chunk f.name job.chunk none job.jobId)
  | .other ev => f.Genuine d.client ev ∧ f.Undisturbed d.client ev ∧ f.NotAbout d.client ev ∧
      KeepsOwners d.client ev

/-- Every chunk that is lacking is queued or requested once, and nothing else is. -/
structure Loading (f : SharedFile) (d : Download) : Prop where
  clean : f.Clean d.client
  served : d.client.ft.All FileTableEntry.Served
  entry : ∃ e, d.client.ft.lookup f.name = some e ∧
    (e.workQueue ++ d.pending.map Job.chunk).Perm (f.lacking d.client) ∧
    e.outstandingRequests.Perm (d.pending.map Job.jobId)
  written : ∀ file, filetableGetChunkyfile d.client.ft f.name = some file → file.path.isSome →
    file.chunksWritten.length = (numChunksForSize f.content.length).toNat
  done : f.lacking d.client = [] → d.client.dir.lookup f.path ≠ none

variable {d d' : Download} {i : ℕ} {job : Job}

theorem lacking_congr (h : filetableGetChunkyfile c'.ft f.name = filetableGetChunkyfile c.ft f.name) :
    f.lacking c' = f.lacking c := by
  unfold lacking
  rw [h]

/-- The file and the entry of a chunk that is lacking. -/
theorem exists_of_mem_lacking (he : c.ft.lookup f.name = some e) (hk : k ∈ f.lacking c) :
    ∃ file, e.file = some file ∧ file.Lacks k := by
  obtain ⟨-, file, hfile, hlacks⟩ := mem_lacking.mp hk
  exact ⟨file, (getChunkyfile_of_lookup he).symm.trans hfile, hlacks⟩

theorem perm_pending (hjob : d.pending[i]? = some job) :
    d.pending.Perm (job :: d.pending.eraseIdx i) := by
  obtain ⟨hi, rfl⟩ := List.getElem?_eq_some_iff.mp hjob
  exact (List.getElem_cons_eraseIdx_perm hi).symm

theorem perm_rotate (l₁ l₂ l₃ : List ℤ) : (l₁ ++ (l₂ ++ l₃)).Perm (l₃ ++ l₁ ++ l₂) := by
  rw [← List.append_assoc, List.append_assoc l₃]
  exact List.perm_append_comm

/-- A poll moves chunks from the work queue to the requests. -/
theorem Loading.polls (h : f.Loading d) (hok : f.downloadStep d .polls = .ok d') :
    f.Loading d' ∧ f.lacking d'.client = f.lacking d.client ∧ d'.client.dir = d.client.dir ∧
      (f.lacking d.client ≠ [] → d'.pending ≠ []) := by
  obtain ⟨⟨client, sent⟩, hpoll, hok⟩ := bind_eq_ok.mp hok
  cases hok
  obtain ⟨e, he, hchunks, hids⟩ := h.entry
  obtain ⟨hkeeps, -⟩ := keeps_checkWorkQueue h.clean hpoll
  have hlacking : f.lacking client = f.lacking d.client :=
    lacking_congr (getChunkyfile_checkWorkQueue hpoll)
  have hdir : client.dir = d.client.dir := by
    obtain ⟨requests, jobs, hc', -⟩ := checkWorkQueue_ok hpoll
    rw [hc']
  obtain ⟨e', he', htaken, hdrained⟩ := checkWorkQueue_jobs he hpoll
  have hqueued : (e'.workQueue ++ (d.pending ++ jobsFor f.name sent).map Job.chunk).Perm
      (f.lacking client) := by
    rw [hlacking]
    refine List.Perm.trans ?_ hchunks
    rw [htaken.workQueue, List.map_append]
    exact perm_rotate _ _ _
  have houtstanding : e'.outstandingRequests.Perm
      ((d.pending ++ jobsFor f.name sent).map Job.jobId) := by
    rw [htaken.outstandingRequests, List.map_append]
    exact hids.append_right _
  refine ⟨⟨hkeeps.clean, ?_, ⟨e', he', hqueued, houtstanding⟩, ?_, ?_⟩, hlacking, hdir, ?_⟩
  · have hkeep : KeepsOwners d.client .workQueue := trivial
    exact served_step h.served hkeep hpoll
  · intro file hfile hpath
    rw [getChunkyfile_checkWorkQueue hpoll] at hfile
    exact h.written file hfile hpath
  · intro hnil
    exact hkeeps.disk (h.done (hlacking ▸ hnil))
  · -- a drained entry has requests outstanding
    intro hne hnil
    have hnil : d.pending ++ jobsFor f.name sent = [] := hnil
    rw [hnil] at hqueued houtstanding
    rcases hdrained with hempty | hfull
    · rw [hempty, hlacking] at hqueued
      exact hne hqueued.nil_eq.symm
    · rw [houtstanding.length_eq] at hfull
      exact absurd hfull (by decide)

/-- What is queued and requested without the job. -/
theorem perm_eraseIdx {l : List ℤ} (hjob : d.pending[i]? = some job)
    (h : (l ++ d.pending.map Job.chunk).Perm (f.lacking c)) :
    (l ++ (d.pending.eraseIdx i).map Job.chunk).Perm ((f.lacking c).erase job.chunk) := by
  have hcons : (job.chunk :: (l ++ (d.pending.eraseIdx i).map Job.chunk)).Perm (f.lacking c) := by
    refine List.Perm.trans ?_ h
    refine List.perm_middle.symm.trans (List.Perm.append_left l ?_)
    exact ((perm_pending hjob).map Job.chunk).symm
  have herase := hcons.erase job.chunk
  rwa [List.erase_cons_head] at herase

theorem perm_eraseIdx_jobId {l : List ℤ} (hjob : d.pending[i]? = some job)
    (h : l.Perm (d.pending.map Job.jobId)) :
    (l.erase job.jobId).Perm ((d.pending.eraseIdx i).map Job.jobId) := by
  have herase := (h.trans ((perm_pending hjob).map Job.jobId)).erase job.jobId
  rwa [List.map_cons, List.erase_cons_head] at herase

/-- A request is for a chunk that is lacking, and its entry waits for the answer. -/
theorem Loading.awaits (h : f.Loading d) (hjob : d.pending[i]? = some job) :
    job.chunk ∈ f.lacking d.client ∧ ∀ e, d.client.ft.lookup f.name = some e →
      job.jobId ∈ e.outstandingRequests ∧ e.Awaits job.jobId := by
  obtain ⟨e, he, hchunks, hids⟩ := h.entry
  have hmem := List.mem_of_getElem? hjob
  have hlacks : job.chunk ∈ f.lacking d.client :=
    hchunks.subset (List.mem_append_right _ (List.mem_map_of_mem hmem))
  refine ⟨hlacks, fun e1 he1 => ?_⟩
  obtain rfl := Option.some.inj (he.symm.trans he1)
  obtain ⟨file, hfile, -⟩ := exists_of_mem_lacking he hlacks
  have hid : job.jobId ∈ e.outstandingRequests := hids.symm.subset (List.mem_map_of_mem hmem)
  exact ⟨hid, Or.inl hid, by rw [hfile]; rfl⟩

theorem lacks_iff_getD (hpath : file.path.isSome) (hk : 0 ≤ k)
    (hlt : k.toNat < file.chunksWritten.length) :
    file.Lacks k ↔ file.chunksWritten.getD k.toNat false = false := by
  unfold ChunkyFile.Lacks
  rw [List.getD_eq_getElem?_getD, List.getElem?_eq_getElem hlt, Option.getD_some, Option.some.injEq]
  exact ⟨fun h => h.2.2, fun h => ⟨hpath, hk, h⟩⟩

/-- All chunks are written when none is lacking. -/
theorem allChunksWritten_iff (hsize : file.size = f.content.length) (hpath : file.path.isSome)
    (hlength : file.chunksWritten.length = (numChunksForSize f.content.length).toNat) :
    chunkyfileAllChunksWritten file = true ↔
      ∀ j, 0 ≤ j ∧ j < numChunksForSize f.content.length → ¬ file.Lacks j := by
  unfold chunkyfileAllChunksWritten chunkyfileNumChunks
  rw [hsize, List.all_eq_true]
  constructor
  · intro hall j hj hlacks
    have hwritten := hall j.toNat (List.mem_range.mpr (by omega))
    rw [(lacks_iff_getD hpath hj.1 (by omega)).mp hlacks] at hwritten
    cases hwritten
  · intro hnone j hj
    have hj := List.mem_range.mp hj
    rw [← Bool.not_eq_false]
    intro hfalse
    refine hnone j (by omega) ?_
    rw [lacks_iff_getD hpath (by omega) (by omega)]
    exact hfalse

/-- One chunk less is lacking when it has been written, and none when the file is complete. -/
theorem lacking_setChunk {text : List UInt8} (hold : filetableGetChunkyfile c.ft f.name = some file)
    (hset : chunkyfileSetChunk file k text = .ok file') (hsize : file'.size = f.content.length)
    (hpath : file'.path.isSome)
    (hlength : file'.chunksWritten.length = (numChunksForSize f.content.length).toNat)
    (hnew : filetableGetChunkyfile c'.ft f.name =
      if chunkyfileAllChunksWritten file' = true then none else some file') :
    (f.lacking c').Perm ((f.lacking c).erase k) ∧
      (f.lacking c' = [] ↔ chunkyfileAllChunksWritten file' = true) := by
  have hall := allChunksWritten_iff hsize hpath hlength
  have hmem : ∀ j, j ∈ f.lacking c' ↔
      (0 ≤ j ∧ j < numChunksForSize f.content.length) ∧ file'.Lacks j := by
    intro j
    rw [mem_lacking, hnew]
    refine and_congr_right fun hj => ?_
    split_ifs with hwritten
    · exact iff_of_false (fun ⟨_, hfile, _⟩ => by cases hfile) (hall.mp hwritten j hj)
    · exact ⟨fun ⟨_, hfile, hlacks⟩ => Option.some.inj hfile ▸ hlacks, fun hlacks => ⟨file', rfl, hlacks⟩⟩
  refine ⟨(List.perm_ext_iff_of_nodup nodup_lacking (nodup_lacking.erase k)).mpr fun j => ?_, ?_⟩
  · rw [hmem, nodup_lacking.mem_erase_iff, mem_lacking, hold, lacks_chunkyfileSetChunk_iff hset]
    constructor
    · rintro ⟨hj, hlacks, hne⟩
      exact ⟨hne, hj, file, rfl, hlacks⟩
    · rintro ⟨hne, hj, _, ⟨⟩, hlacks⟩
      exact ⟨hj, hlacks, hne⟩
  · rw [hall, List.eq_nil_iff_forall_not_mem]
    refine forall_congr' fun j => ?_
    rw [hmem, not_and]

theorem lookup_chunkyfileWrite {dir dir' : Directory} (hcopy : f.IsCopy file)
    (hok : chunkyfileWrite dir file = .ok dir') : dir'.lookup f.path ≠ none := by
  unfold chunkyfileWrite at hok
  cases hpath : file.path with
  | none =>
    rw [hpath] at hok
    cases hok
  | some path =>
    rw [hpath] at hok
    have hname := hcopy.path path hpath
    rw [Directory.lookup_write hok, hname, if_pos resolve_name.symm]
    exact nofun

/-- An answer writes a chunk that was lacking. -/
theorem Loading.answers (h : f.Loading d) (hi : i < d.pending.length)
    (hok : f.downloadStep d (.answers i) = .ok d') :
    f.Loading d' ∧ (f.lacking d'.client).length + 1 = (f.lacking d.client).length ∧
      (f.lacking d'.client = [] ∨ d'.client.dir = d.client.dir) := by
  obtain ⟨job, hjob⟩ : ∃ job, d.pending[i]? = some job := ⟨_, List.getElem?_eq_getElem hi⟩
  unfold downloadStep downloadAnswer at hok
  dsimp only at hok
  rw [hjob] at hok
  obtain ⟨⟨client, sent⟩, hreceive, hok⟩ := bind_eq_ok.mp hok
  cases hok
  obtain ⟨e, he, hchunks, hids⟩ := h.entry
  obtain ⟨hmem, hawaits⟩ := h.awaits hjob
  obtain ⟨-, hawait⟩ := hawaits e he
  obtain ⟨hkeeps, -⟩ := keeps_receiveChunk h.clean (fun _ text htext => Option.some.inj htext.symm) hreceive
  have hkeep : KeepsOwners d.client (.chunk f.name job.chunk (some (f.chunk job.chunk.toNat)) job.jobId) :=
    trivial
  have hserved : client.ft.All FileTableEntry.Served := served_step h.served hkeep hreceive
  -- the entry has lost the request, and its file has got the chunk
  obtain ⟨file, file', hold, hset, hlook, hdir⟩ : ∃ file file',
      filetableGetChunkyfile d.client.ft f.name = some file ∧
      chunkyfileSetChunk file job.chunk (f.chunk job.chunk.toNat) = .ok file' ∧
      client.ft.lookup f.name = some { e.answered job.jobId with
        file := if chunkyfileAllChunksWritten file' = true then none else some file' } ∧
      if chunkyfileAllChunksWritten file' = true then chunkyfileWrite d.client.dir file' = .ok client.dir
      else client.dir = d.client.dir := by
    obtain ⟨e1, he1, hreceived⟩ := receiveChunk_ok hreceive
    obtain rfl := Option.some.inj (he.symm.trans he1)
    have hget := getChunkyfile_of_lookup he
    cases hreceived with
    | ignored hnot => exact absurd hawait hnot
    | rejected _ hdata => cases hdata
    | completed _ hdata hfile hset hall hwrite hft =>
      cases hdata
      exact ⟨_, _, hget.trans hfile, hset, by rw [hft, if_pos rfl, if_pos hall], by rwa [if_pos hall]⟩
    | stored _ hdata hfile hset hall hft =>
      cases hdata
      exact ⟨_, _, hget.trans hfile, hset, by rw [hft, if_pos rfl, if_neg hall], by rw [if_neg hall]⟩
  have hnew : filetableGetChunkyfile client.ft f.name =
      if chunkyfileAllChunksWritten file' = true then none else some file' :=
    getChunkyfile_of_lookup hlook
  obtain ⟨-, file1, hfile1, hlacks⟩ := mem_lacking.mp hmem
  obtain rfl := Option.some.inj (hold.symm.trans hfile1)
  obtain ⟨hcopy, -⟩ := ((h.clean.table _ _ hold).2 rfl).setChunk hset
  have hlength := (length_chunksWritten_setChunk hset).trans (h.written file hold hlacks.1)
  have hpath : file'.path.isSome := by
    rw [path_setChunk hset]
    exact hlacks.1
  obtain ⟨hperm, hnil⟩ := lacking_setChunk hold hset hcopy.size hpath hlength hnew
  refine ⟨⟨hkeeps.clean, hserved, ⟨_, hlook, (perm_eraseIdx hjob hchunks).trans hperm.symm,
    perm_eraseIdx_jobId hjob hids⟩, fun file1 hfile1 _ => ?_, fun hempty => ?_⟩, ?_, ?_⟩
  · rw [hnew] at hfile1
    split_ifs at hfile1
    cases hfile1
    exact hlength
  · rw [if_pos (hnil.mp hempty)] at hdir
    exact lookup_chunkyfileWrite hcopy hdir
  · show (f.lacking client).length + 1 = _
    rw [hperm.length_eq, List.length_erase_of_mem hmem]
    have := List.length_pos_of_mem hmem
    omega
  · by_cases hall : chunkyfileAllChunksWritten file' = true
    · exact Or.inl (hnil.mpr hall)
    · rw [if_neg hall] at hdir
      exact Or.inr hdir

/-- A rejection puts its chunk back. -/
theorem Loading.rejects (h : f.Loading d) (hallows : f.Allows d (.rejects i))
    (hok : f.downloadStep d (.rejects i) = .ok d') :
    f.Loading d' ∧ f.lacking d'.client = f.lacking d.client := by
  unfold downloadStep downloadAnswer at hok
  dsimp only at hok
  cases hjob : d.pending[i]? with
  | none =>
    rw [hjob] at hok
    cases hok
    exact ⟨h, rfl⟩
  | some job =>
    rw [hjob] at hok
    obtain ⟨⟨client, sent⟩, hreceive, hok⟩ := bind_eq_ok.mp hok
    cases hok
    obtain ⟨e, he, hchunks, hids⟩ := h.entry
    obtain ⟨hmem, hawaits⟩ := h.awaits hjob
    obtain ⟨-, hawait⟩ := hawaits e he
    obtain ⟨hkeeps, -⟩ := keeps_receiveChunk h.clean (fun _ text htext => by cases htext) hreceive
    have hserved : client.ft.All FileTableEntry.Served := served_step h.served (hallows job hjob) hreceive
    obtain ⟨e1, he1, hreceived⟩ := receiveChunk_ok hreceive
    obtain rfl := Option.some.inj (he.symm.trans he1)
    cases hreceived with
    | ignored hnot => exact absurd hawait hnot
    | completed _ hdata => cases hdata
    | stored _ hdata => cases hdata
    | @rejected ft _ _ hft =>
      have hget : filetableGetChunkyfile ft f.name = filetableGetChunkyfile d.client.ft f.name :=
        getChunkyfile_of_isUpdate he hft rfl
      have hlacking : f.lacking { d.client with ft := ft } = f.lacking d.client := lacking_congr hget
      refine ⟨⟨hkeeps.clean, hserved, ⟨_, (hft f.name).trans (if_pos rfl), ?_,
        perm_eraseIdx_jobId hjob hids⟩, fun file hfile => h.written file (hget ▸ hfile),
        fun hnil => h.done (hlacking ▸ hnil)⟩, hlacking⟩
      rw [hlacking]
      refine List.Perm.trans ?_ hchunks
      show (e.workQueue ++ [job.chunk] ++ (d.pending.eraseIdx i).map Job.chunk).Perm _
      rw [List.append_assoc]
      exact (((perm_pending hjob).map Job.chunk).symm).append_left _

/-- Other events leave the download as it is. -/
theorem Loading.other {ev : ClientEvent} (h : f.Loading d) (hallows : f.Allows d (.other ev))
    (hok : f.downloadStep d (.other ev) = .ok d') :
    f.Loading d' ∧ f.lacking d'.client = f.lacking d.client := by
  obtain ⟨⟨client, sent⟩, hstep, hok⟩ := bind_eq_ok.mp hok
  cases hok
  obtain ⟨hgenuine, hundisturbed, hnot, hkeep⟩ := hallows
  obtain ⟨e, he, hchunks, hids⟩ := h.entry
  obtain ⟨hkeeps, -⟩ := clean_step h.clean hgenuine hundisturbed hstep
  obtain ⟨e', he', hsame⟩ := sameWork_step he hnot hundisturbed hstep
  -- a file that is opened for reading lacks nothing
  have hfiles : ∀ file, file.path.isSome → (filetableGetChunkyfile client.ft f.name = some file ↔
      filetableGetChunkyfile d.client.ft f.name = some file) := by
    intro file hpath
    rw [getChunkyfile_of_lookup he, getChunkyfile_of_lookup he']
    rcases hsame.file with heq | ⟨hnone, content, heq⟩
    · rw [heq]
    · rw [heq, hnone]
      refine ⟨fun hfile => ?_, nofun⟩
      cases hfile
      cases hpath
  have hlacking : f.lacking client = f.lacking d.client := by
    refine List.filter_congr fun k _ => ?_
    refine Bool.eq_iff_iff.mpr ?_
    rw [Option.any_eq_true, Option.any_eq_true]
    refine exists_congr fun file => and_congr_left fun hlacks => hfiles file ?_
    exact (of_decide_eq_true hlacks).1
  refine ⟨⟨hkeeps.clean, served_step h.served hkeep hstep, ⟨e', he', ?_, ?_⟩, ?_, ?_⟩, hlacking⟩
  · rw [hlacking]
    exact (hsame.workQueue.append_right _).trans hchunks
  · rw [hsame.outstandingRequests]
    exact hids
  · exact fun file hfile hpath => h.written file ((hfiles file hpath).mp hfile) hpath
  · exact fun hnil => hkeeps.disk (h.done (hlacking ▸ hnil))

theorem Loading.step {ev : DownloadEvent} (h : f.Loading d) (hallows : f.Allows d ev)
    (hok : f.downloadStep d ev = .ok d') :
    f.Loading d' ∧ (f.lacking d'.client).length + (if ev.isAnswer then 1 else 0) =
      (f.lacking d.client).length := by
  cases ev with
  | polls =>
    obtain ⟨h', hlacking, -⟩ := h.polls hok
    exact ⟨h', by rw [hlacking]; rfl⟩
  | answers i =>
    obtain ⟨h', hcount, -⟩ := h.answers hallows hok
    exact ⟨h', hcount⟩
  | rejects i =>
    obtain ⟨h', hlacking⟩ := h.rejects hallows hok
    exact ⟨h', by rw [hlacking]; rfl⟩
  | other ev =>
    obtain ⟨h', hlacking⟩ := h.other hallows hok
    exact ⟨h', by rw [hlacking]; rfl⟩

/-- Every answer in a run has written one chunk. -/
theorem Loading.run {evs : List DownloadEvent} (h : f.Loading d)
    (hrun : Run f.downloadStep f.Allows d evs d') :
    f.Loading d' ∧ evs.countP DownloadEvent.isAnswer + (f.lacking d'.client).length =
      (f.lacking d.client).length := by
  induction hrun with
  | nil => exact ⟨h, by rw [List.countP_nil, Nat.zero_add]⟩
  | cons hallows hok _ ih =>
    obtain ⟨h1, hcount⟩ := h.step hallows hok
    obtain ⟨h', hrest⟩ := ih h1
    refine ⟨h', ?_⟩
    rw [List.countP_cons]
    omega

/-- The first request can be answered when there is room for the file. -/
theorem Loading.exists_answers (h : f.Loading d) (hroom : d.client.dir.HasRoom f.path)
    (hne : d.pending ≠ []) : ∃ d', f.downloadStep d (.answers 0) = .ok d' := by
  obtain ⟨job, jobs, hpending⟩ := List.exists_cons_of_ne_nil hne
  have hjob : d.pending[0]? = some job := by
    rw [hpending]
    rfl
  obtain ⟨e, he, -⟩ := h.entry
  obtain ⟨hmem, hawaits⟩ := h.awaits hjob
  obtain ⟨hid, -⟩ := hawaits e he
  obtain ⟨file, hfile, hlacks⟩ := exists_of_mem_lacking he hmem
  have hold : filetableGetChunkyfile d.client.ft f.name = some file :=
    (getChunkyfile_of_lookup he).trans hfile
  have hcopy : f.IsCopy file := (h.clean.table _ _ hold).2 rfl
  obtain ⟨file', hset⟩ : ∃ file',
      chunkyfileSetChunk file job.chunk (f.chunk job.chunk.toNat) = .ok file' := by
    have hbounds := (mem_lacking.mp hmem).1
    rw [numChunksForSize_of_nonneg (Int.natCast_nonneg _)] at hbounds
    have hlength := h.written file hold hlacks.1
    rw [numChunksForSize_of_nonneg (Int.natCast_nonneg _)] at hlength
    have hdata := hcopy.length
    have hchunk : (f.chunk job.chunk.toNat).length =
        min 500000 (f.content.length - job.chunk.toNat * 500000) := by
      simp [chunk, slice]
    unfold chunkyfileSetChunk
    rw [if_pos]
    · exact ⟨_, rfl⟩
    · unfold InBounds chunkOffset chunkyfileChunkSize
      omega
  obtain ⟨⟨client, sent⟩, hr⟩ := exists_receiveChunk he hid hfile hset fun _ => by
    unfold chunkyfileWrite
    rw [path_setChunk hset]
    obtain ⟨path, hpath⟩ := Option.isSome_iff_exists.mp hlacks.1
    rw [hpath]
    dsimp only
    rw [hcopy.path path hpath, resolve_name]
    exact ⟨_, dif_pos hroom⟩
  unfold downloadStep downloadAnswer
  dsimp only
  rw [hjob]
  exact ⟨_, bind_eq_ok.mpr ⟨_, hr, rfl⟩⟩

/-- Polls and answers complete the download. -/
theorem Loading.completes (h : f.Loading d) (hroom : d.client.dir.HasRoom f.path) :
    ∃ evs d', Run f.downloadStep f.Allows d evs d' ∧
      (∀ ev ∈ evs, ev = .polls ∨ ∃ i, ev = .answers i) ∧ f.lacking d'.client = [] := by
  induction hn : (f.lacking d.client).length generalizing d with
  | zero => exact ⟨[], d, .nil d, nofun, List.eq_nil_of_length_eq_zero hn⟩
  | succ n ih =>
    have hne : f.lacking d.client ≠ [] := List.ne_nil_of_length_eq_add_one hn
    obtain ⟨⟨client, sent⟩, hpoll⟩ := checkWorkQueue_isOk h.served
    have hpolls : f.downloadStep d .polls = .ok ⟨client, d.pending ++ jobsFor f.name sent⟩ :=
      bind_eq_ok.mpr ⟨_, hpoll, rfl⟩
    obtain ⟨h1, hlacking, hdir, hpending⟩ := h.polls hpolls
    obtain ⟨d2, hanswers⟩ := h1.exists_answers (hdir ▸ hroom) (hpending hne)
    have hpos := List.length_pos_of_ne_nil (hpending hne)
    obtain ⟨h2, hcount, hrest⟩ := h1.answers hpos hanswers
    have hfirst : Run f.downloadStep f.Allows d [.polls, .answers 0] d2 :=
      .cons trivial hpolls (.cons hpos hanswers (.nil d2))
    rw [hlacking] at hcount
    rcases hrest with hnil | hsame
    · refine ⟨_, d2, hfirst, ?_, hnil⟩
      simp
    · obtain ⟨evs, d', hrun, hevs, hnil⟩ := ih h2 (by rw [hsame, hdir]; exact hroom) (by omega)
      refine ⟨_, d', hfirst.append hrun, ?_, hnil⟩
      intro ev hev
      rcases List.mem_append.mp hev with hev | hev
      · simp only [List.mem_cons, List.not_mem_nil, or_false] at hev
        exact hev.imp_right fun hev => ⟨0, hev⟩
      · exact hevs ev hev

/-! ## The announcement -/

/-- The client is told of the file, of which it has nothing. -/
structure Told (f : SharedFile) (c : Client) (additions deletions : Folder) (peer : ℤ) (c' : Client) :
    Prop where
  clean : f.Clean c
  served : c.ft.All FileTableEntry.Served
  absent : f.Absent c
  carries : f.Carries additions
  lists : ListsFile (filesystemIteratorRelative true additions) f.name
  avoids : f.Avoids deletions
  received : receiveDiff c additions deletions peer = .ok (c', [])

end SharedFile

namespace DownloadExample

/-- A file of one byte. -/
def one : SharedFile where
  path := [.ofBytes [97]]
  content := [5]
  path_ne := by decide
  legal := by decide
  length_lt := by decide
  hasLastChunk := Or.inr (by decide)

/-- A client that has nothing. -/
def start : Client := .initial .empty filetableNew 0 fun _ => 0

/-- The request is rejected at first. -/
def rejected : List DownloadEvent :=
  [.polls, .rejects 0, .other (.peerAdded 3), .polls, .answers 0]

def allowsTest (d : Download) : DownloadEvent → Bool
  | .polls => true
  | .answers i => i < d.pending.length
  | .rejects i => d.pending[i]?.all fun job => decide (0 ≤ job.chunk) &&
      (d.client.ft.lookup one.name).all fun e => e.chunks[job.chunk.toNat]?.any (· ≠ [])
  | .other (.peerAdded _) => true
  | .other _ => false

theorem allows_of_test (d : Download) (ev : DownloadEvent) (h : allowsTest d ev = true) :
    one.Allows d ev := by
  cases ev with
  | polls => trivial
  | answers i =>
    have hi : i < d.pending.length := of_decide_eq_true h
    exact hi
  | rejects i =>
    intro job hjob e he _
    rw [allowsTest, Option.mem_def.mp hjob, Option.all_some, he, Option.all_some] at h
    obtain ⟨hchunk, howners⟩ := Bool.and_eq_true_iff.mp h
    obtain ⟨owners, howners, hne⟩ := (Option.any_eq_true _ _).mp howners
    exact ⟨of_decide_eq_true hchunk, owners, howners, of_decide_eq_true hne⟩
  | other ev =>
    cases ev with
    | peerAdded => exact ⟨trivial, trivial, trivial, trivial⟩
    | _ => cases h

end DownloadExample

open DownloadExample

end DartSync
