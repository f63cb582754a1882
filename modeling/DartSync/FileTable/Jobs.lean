import DartSync.FileTable.Entries
import DartSync.Library.Runs
import DartSync.Queue
import Mathlib.Logic.Function.Basic

/-!
# Jobs

The calls that hand out jobs and take their ids back, in any order, with the calls that create and
destroy entries in between. `issued` records all ids handed out, `issuedBy` those handed out by the
entry that stands for a path now, and `accepted` those that `filetable_find_and_remove_job_id` has
found. Job ids are natural numbers here: there are fewer than 2^31 of them.
-/

namespace DartSync

open FileTable

variable {ft ft' : FileTable} {e e' : FileTableEntry} {p : CString} {maxPending : ℕ}

/-- A file table in use. -/
structure JobRun where
  ft : FileTable
  jobs : JobState
  issued : List ℤ
  issuedBy : CString → List ℤ
  accepted : List ℤ

inductive JobCall
  | getJob (path : CString)
  | findAndRemove (path : CString) (jobId : ℤ)
  | enqueue (path : CString) (chunk : ℤ)
  | add (fs : Folder) (peer : ℤ) (needsData : Bool)
  | remove (fs : Folder)

/-- The outstanding requests in their ring: `queue_remove` with `find_id` returns and leaves what
`filetable_find_and_remove_job_id` does. -/
theorem queueRemove_findId (q : Queue ℤ) (jobId : ℤ) (hq : q.toList = e.outstandingRequests) :
    (q.queueRemove fun id => jobId = id).1 =
        (if jobId ∈ e.outstandingRequests then some jobId else none) ∧
      (q.queueRemove fun id => jobId = id).2.toList = e.outstandingRequests.erase jobId := by
  have hremove := Queue.queueRemove_eq (q := q) fun id => decide (jobId = id)
  obtain ⟨hfind, hrest⟩ := Prod.mk.inj hremove
  rw [hfind, hrest, hq]
  constructor
  · show e.outstandingRequests.find? _ = _
    split_ifs with hmem
    · have hsome : (e.outstandingRequests.find? fun id => decide (jobId = id)).isSome :=
        List.find?_isSome.mpr ⟨jobId, hmem, by simp⟩
      obtain ⟨id, hid⟩ := Option.isSome_iff_exists.mp hsome
      have hfound := List.find?_some hid
      rw [hid, of_decide_eq_true hfound]
    · rw [List.find?_eq_none]
      intro id hid
      simpa using fun h : jobId = id => hmem (h ▸ hid)
  · rw [List.erase_eq_eraseP]
    congr 1

namespace JobRun

/-- The ids of the entries that stand after those of the files of `fs` have been destroyed. -/
def forget (s : JobRun) (fs : Folder) : CString → List ℤ := fun p =>
  if ListsFile (filesystemIteratorRelative true fs) p then [] else s.issuedBy p

def step (maxPending : ℕ) (s : JobRun) : JobCall → Except Abort JobRun
  | .getJob path =>
    match s.ft.lookup path with
    | none => .error .nullPointer
    | some entry => do
      let (job, entry, jobs) ← filetableentryGetJob entry maxPending s.jobs
      let ids := job.toList.map fun job => job.2.2
      return { s with
        ft := s.ft.overwrite entry
        jobs := jobs
        issued := ids ++ s.issued
        issuedBy := Function.update s.issuedBy path (ids ++ s.issuedBy path) }
  | .findAndRemove path jobId => do
    let (removed, ft) ← filetableFindAndRemoveJobId s.ft path jobId
    return { s with
      ft := ft
      accepted := if removed = 0 then s.accepted else removed :: s.accepted }
  | .enqueue path chunk => do
    let ft ← filetableEnqueueWorkRequest s.ft path chunk
    return { s with ft := ft }
  | .add fs peer needsData =>
    let (ft, rand) := filetableAddFilesystem s.ft fs peer needsData s.jobs.rand
    .ok { s with ft := ft, jobs := { s.jobs with rand := rand }, issuedBy := s.forget fs }
  | .remove fs =>
    .ok { s with ft := filetableRemoveFilesystem s.ft fs, issuedBy := s.forget fs }

def initial (ft : FileTable) (rand : Rand) : JobRun := ⟨ft, ⟨0, rand⟩, [], fun _ => [], []⟩

/-! ## The discipline -/

/-- A call on a path of the table; a job is asked for when every chunk in the work queue has an
owner. -/
def Allows (s : JobRun) : JobCall → Prop
  | .getJob path => ∃ e, s.ft.lookup path = some e ∧ e.Served
  | .findAndRemove path _ => (s.ft.lookup path).isSome
  | .enqueue path _ => (s.ft.lookup path).isSome
  | .add _ _ _ => True
  | .remove _ => True

/-- `filetable_find_and_remove_job_id` on a path of the table finds an id only if the entry that
stands there has issued it and it has not been found before. It takes out this id and keeps the
others in their order. Otherwise it returns NULL and changes nothing. -/
def FindsOwn (s : JobRun) (path : CString) (jobId : ℤ) : Prop :=
  ∀ e, s.ft.lookup path = some e →
    filetableFindAndRemoveJobId s.ft path jobId = .ok (0, s.ft) ∨
    jobId ≠ 0 ∧ jobId ∈ s.issuedBy path ∧ jobId ∉ s.accepted ∧
      ∃ ft' l r, filetableFindAndRemoveJobId s.ft path jobId = .ok (jobId, ft') ∧
        e.outstandingRequests = l ++ jobId :: r ∧ jobId ∉ l ++ r ∧
        IsUpdate s.ft ft' path { e with outstandingRequests := l ++ r }

/-- No entry waits for too many jobs; no id is outstanding twice, issued twice or accepted twice; an
entry accepts its own ids only; and no call fails. -/
structure Disciplined (maxPending : ℕ) (s : JobRun) : Prop where
  bounded : s.ft.All fun e => e.outstandingRequests.length ≤ maxPending
  outstanding : (s.ft.entries.flatMap FileTableEntry.outstandingRequests).Nodup
  issued : s.issued.Nodup
  accepted : s.accepted.Nodup
  findsOwn : ∀ path jobId, s.FindsOwn path jobId
  handled : ∀ call, s.Allows call → ∃ t, s.step maxPending call = .ok t

/-- What an entry waits for: its own ids, at most `maxPending` of them, each once and none that has
been accepted. -/
structure Waits (maxPending : ℕ) (issuedBy accepted : List ℤ) (e : FileTableEntry) : Prop where
  bounded : e.outstandingRequests.length ≤ maxPending
  nodup : e.outstandingRequests.Nodup
  own : ∀ id ∈ e.outstandingRequests, id ∈ issuedBy
  pending : ∀ id ∈ e.outstandingRequests, id ∉ accepted

/-- The invariant: every id is smaller than the next one, and belongs to one path. -/
structure Inv (maxPending : ℕ) (s : JobRun) : Prop where
  entries : ∀ p e, s.ft.lookup p = some e → Waits maxPending (s.issuedBy p) s.accepted e
  apart : ∀ p q id, id ∈ s.issuedBy p → id ∈ s.issuedBy q → p = q
  known : ∀ p id, id ∈ s.issuedBy p → id ∈ s.issued
  range : ∀ id ∈ s.issued, 1 ≤ id ∧ id < s.jobs.nextJobId
  issued : s.issued.Nodup
  accepted : s.accepted.Nodup
  acceptedIssued : ∀ id ∈ s.accepted, id ∈ s.issued

variable {s t : JobRun} {rand : Rand} {fs : Folder} {path : CString} {jobId : ℤ}

theorem inv_initial (hft : ft.All fun e => e.outstandingRequests = []) :
    (initial ft rand).Inv maxPending where
  entries p e he := by
    have hnil := hft p e he
    constructor <;> simp [hnil]
  apart _ _ _ h := absurd h List.not_mem_nil
  known _ _ h := absurd h List.not_mem_nil
  range _ h := absurd h List.not_mem_nil
  issued := List.nodup_nil
  accepted := List.nodup_nil
  acceptedIssued _ h := absurd h List.not_mem_nil

/-! ## Steps -/

/-- An entry that waits for nothing, as every new entry does. -/
theorem waits_of_nil {issuedBy accepted : List ℤ} (h : e.outstandingRequests = []) :
    Waits maxPending issuedBy accepted e := by
  constructor <;> simp [h]

/-- What taking a job does to the ids: at most one, the next, is added at the end. -/
theorem filetableentryGetJob_ids {st st' : JobState} {job : Option (ℤ × ℤ × ℤ)}
    (h : filetableentryGetJob e maxPending st = .ok (job, e', st')) :
    e'.path = e.path ∧ ((job.toList.map (fun job => job.2.2) = [] ∧
        e'.outstandingRequests = e.outstandingRequests ∧ st'.nextJobId = st.nextJobId) ∨
      (job.toList.map (fun job => job.2.2) = [(st.nextJobId : ℤ)] ∧
        e'.outstandingRequests = e.outstandingRequests ++ [(st.nextJobId : ℤ)] ∧
        e.outstandingRequests.length < maxPending ∧ st'.nextJobId = st.nextJobId + 1)) := by
  have hfull : maxPending ≤ e.outstandingRequests.length → job = none := by
    intro hle
    unfold filetableentryGetJob at h
    cases hq : e.workQueue with
    | nil =>
      rw [hq] at h
      cases h
      rfl
    | cons c workQueue =>
      rw [hq] at h
      dsimp only at h
      rw [if_pos hle] at h
      cases h
      rfl
  rcases filetableentryGetJob_ok h with ⟨rfl, rfl, hst⟩ |
    ⟨c, workQueue, owners, dest, rfl, -, -, -, -, rfl, hst⟩
  · refine ⟨rfl, Or.inl ⟨rfl, rfl, ?_⟩⟩
    rw [nextJobId_of_pos (by rw [hst]; exact nextJobId_ne_zero), hst]
  · refine ⟨rfl, Or.inr ⟨rfl, rfl, ?_, ?_⟩⟩
    · by_contra hlt
      cases hfull (not_lt.mp hlt)
    · rw [nextJobId_of_pos (by rw [hst]; exact Nat.succ_ne_zero _), hst]

/-- The next id has not been issued. -/
theorem Inv.next_not_mem (hs : s.Inv maxPending) : (s.jobs.nextJobId : ℤ) ∉ s.issued := fun h =>
  lt_irrefl _ (hs.range _ h).2

/-- An entry waits for one more id, which is new. -/
theorem Waits.issue {issuedBy accepted : List ℤ} {id : ℤ} (h : Waits maxPending issuedBy accepted e)
    (hreq : e'.outstandingRequests = e.outstandingRequests ++ [id])
    (hlt : e.outstandingRequests.length < maxPending) (hnew : id ∉ issuedBy) (hacc : id ∉ accepted) :
    Waits maxPending ([id] ++ issuedBy) accepted e' where
  bounded := by
    rw [hreq, List.length_append]
    exact hlt
  nodup := by
    rw [hreq]
    exact List.nodup_append_comm.mp
      (List.nodup_cons.mpr ⟨fun hmem => hnew (h.own id hmem), h.nodup⟩)
  own id' hid := by
    rw [hreq, List.mem_append] at hid
    exact List.mem_append.mpr (hid.symm.imp (fun hid => hid) (h.own id'))
  pending id' hid := by
    rw [hreq, List.mem_append, List.mem_singleton] at hid
    rcases hid with hid | rfl
    · exact h.pending id' hid
    · exact hacc

theorem mem_update_issuedBy {q : CString} {next id : ℤ} :
    id ∈ Function.update s.issuedBy path ([next] ++ s.issuedBy path) q ↔
      id ∈ s.issuedBy q ∨ q = path ∧ id = next := by
  by_cases hq : q = path
  · subst hq
    simp [or_comm]
  · simp [hq]

theorem Inv.getJob (hs : s.Inv maxPending) (he : s.ft.lookup path = some e) {jobs : JobState}
    {job : Option (ℤ × ℤ × ℤ)}
    (h : filetableentryGetJob e maxPending s.jobs = .ok (job, e', jobs)) :
    Inv maxPending { s with
      ft := s.ft.overwrite e'
      jobs := jobs
      issued := job.toList.map (fun job => job.2.2) ++ s.issued
      issuedBy := Function.update s.issuedBy path
        (job.toList.map (fun job => job.2.2) ++ s.issuedBy path) } := by
  obtain ⟨hpath, ⟨hids, hreq, hnext⟩ | ⟨hids, hreq, hlt, hnext⟩⟩ := filetableentryGetJob_ids h
  all_goals
    rw [path_of_lookup he] at hpath
    have hlook := isUpdate_overwrite he hpath
    have hwaits := hs.entries path e he
    rw [hids]
  · -- no job
    rw [List.nil_append, List.nil_append, Function.update_eq_self]
    refine { hs with entries := fun p x hx => ?_, range := fun id hid => ?_ }
    · rw [hlook] at hx
      split_ifs at hx with hp
      · cases hx
        subst hp
        exact ⟨hreq ▸ hwaits.bounded, hreq ▸ hwaits.nodup, hreq ▸ hwaits.own, hreq ▸ hwaits.pending⟩
      · exact hs.entries p x hx
    · show 1 ≤ id ∧ id < (jobs.nextJobId : ℤ)
      rw [hnext]
      exact hs.range id hid
  · -- the job with the next id
    have hfresh := hs.next_not_mem
    have hnot : ∀ q, (s.jobs.nextJobId : ℤ) ∉ s.issuedBy q := fun q hq => hfresh (hs.known q _ hq)
    refine ⟨fun p x hx => ?_, fun p q id hp hq => ?_, fun p id hid => ?_, fun id hid => ?_,
      List.nodup_cons.mpr ⟨hfresh, hs.issued⟩, hs.accepted,
      fun id hid => List.mem_cons_of_mem _ (hs.acceptedIssued id hid)⟩
    · rw [hlook] at hx
      split_ifs at hx with hp
      · cases hx
        subst hp
        dsimp only
        rw [Function.update_self]
        exact hwaits.issue hreq hlt (hnot p) fun hacc => hfresh (hs.acceptedIssued _ hacc)
      · have hother := hs.entries p x hx
        refine { hother with own := fun id hid => ?_ }
        exact mem_update_issuedBy.mpr (Or.inl (hother.own id hid))
    · rcases mem_update_issuedBy.mp hp with hp' | ⟨hp', rfl⟩
      · rcases mem_update_issuedBy.mp hq with hq' | ⟨-, rfl⟩
        · exact hs.apart p q id hp' hq'
        · exact (hnot p hp').elim
      · rcases mem_update_issuedBy.mp hq with hq' | ⟨hq', -⟩
        · exact (hnot q hq').elim
        · exact hp'.trans hq'.symm
    · rcases mem_update_issuedBy.mp hid with hid | ⟨-, rfl⟩
      · exact List.mem_cons_of_mem _ (hs.known p id hid)
      · exact List.mem_cons_self
    · show 1 ≤ id ∧ id < (jobs.nextJobId : ℤ)
      have hpos : 1 ≤ s.jobs.nextJobId := Nat.one_le_iff_ne_zero.mpr nextJobId_ne_zero
      rcases List.mem_cons.mp hid with rfl | hid
      · omega
      · have := hs.range id hid
        omega

/-- What the call finds, in a table that keeps the invariant. -/
theorem Inv.findsOwn (hs : s.Inv maxPending) : s.FindsOwn path jobId := by
  intro e he
  have hwaits := hs.entries path e he
  have hpath := path_of_lookup he
  by_cases hmem : jobId ∈ e.outstandingRequests
  · have hown := hwaits.own jobId hmem
    have hpos := (hs.range jobId (hs.known path jobId hown)).1
    obtain ⟨l, r, hsplit⟩ := List.append_of_mem hmem
    have hnd := hwaits.nodup
    rw [hsplit, List.nodup_middle, List.nodup_cons] at hnd
    have herase : e.outstandingRequests.erase jobId = l ++ r := by
      rw [hsplit, List.erase_append_right _ fun h => hnd.1 (List.mem_append_left r h),
        List.erase_cons_head]
    refine Or.inr ⟨by omega, hown, hwaits.pending jobId hmem, _, l, r, ?_, hsplit, hnd.1,
      isUpdate_overwrite he hpath⟩
    unfold filetableFindAndRemoveJobId
    rw [he]
    dsimp only
    rw [if_pos hmem, herase]
  · exact Or.inl (filetableFindAndRemoveJobId_of_notMem he hmem)

theorem Inv.findAndRemove (hs : s.Inv maxPending) {removed : ℤ}
    (h : filetableFindAndRemoveJobId s.ft path jobId = .ok (removed, ft')) :
    Inv maxPending { s with
      ft := ft'
      accepted := if removed = 0 then s.accepted else removed :: s.accepted } := by
  obtain ⟨e, he⟩ := filetableFindAndRemoveJobId_isOk.mp ⟨_, h⟩
  rcases hs.findsOwn e he with hnone | ⟨hne, hown, hnot, ft1, l, r, hfind, hsplit, hmem, hlook⟩
  · cases h.symm.trans hnone
    exact hs
  · cases h.symm.trans hfind
    rw [if_neg hne]
    have hwaits := hs.entries path e he
    refine { hs with
      entries := fun p x hx => ?_
      accepted := List.nodup_cons.mpr ⟨hnot, hs.accepted⟩
      acceptedIssued := fun id hid => ?_ }
    · rw [hlook] at hx
      split_ifs at hx with hp
      · cases hx
        subst hp
        have hsub : (l ++ r).Sublist e.outstandingRequests := by
          rw [hsplit]
          exact (List.Sublist.refl l).append (List.sublist_cons_self _ r)
        refine ⟨hsub.length_le.trans hwaits.bounded, hwaits.nodup.sublist hsub,
          fun id hid => hwaits.own id (hsub.subset hid), fun id hid hacc => ?_⟩
        rcases List.mem_cons.mp hacc with rfl | hacc
        · exact hmem hid
        · exact hwaits.pending id (hsub.subset hid) hacc
      · have hother := hs.entries p x hx
        refine { hother with pending := fun id hid hacc => ?_ }
        rcases List.mem_cons.mp hacc with rfl | hacc
        · exact hp (hs.apart p path _ (hother.own _ hid) hown)
        · exact hother.pending id hid hacc
    · rcases List.mem_cons.mp hid with rfl | hid
      · exact hs.known path _ hown
      · exact hs.acceptedIssued id hid

/-- Entries that have not changed, or wait for nothing. -/
theorem Inv.forget (hs : s.Inv maxPending) {jobs : JobState} (hjobs : jobs.jobId = s.jobs.jobId)
    (hlook : ∀ p e, ft'.lookup p = some e → e.outstandingRequests = [] ∨
      s.ft.lookup p = some e ∧ ¬ ListsFile (filesystemIteratorRelative true fs) p) :
    Inv maxPending { s with ft := ft', jobs := jobs, issuedBy := s.forget fs } := by
  have hsub : ∀ p id, id ∈ s.forget fs p → id ∈ s.issuedBy p := fun p id hid => by
    unfold JobRun.forget at hid
    split_ifs at hid
    · cases hid
    · exact hid
  refine { hs with
    entries := fun p e he => ?_
    apart := fun p q id hp hq => hs.apart p q id (hsub p id hp) (hsub q id hq)
    known := fun p id hid => hs.known p id (hsub p id hid)
    range := fun id hid => ?_ }
  · rcases hlook p e he with hnil | ⟨he, hnot⟩
    · exact waits_of_nil hnil
    · have hkeep : s.forget fs p = s.issuedBy p := if_neg hnot
      show Waits maxPending (s.forget fs p) s.accepted e
      rw [hkeep]
      exact hs.entries p e he
  · have hnext : jobs.nextJobId = s.jobs.nextJobId := by
      unfold JobState.nextJobId
      rw [hjobs]
    show 1 ≤ id ∧ id < (jobs.nextJobId : ℤ)
    rw [hnext]
    exact hs.range id hid

theorem Inv.step {call : JobCall} (hs : s.Inv maxPending) (h : s.step maxPending call = .ok t) :
    t.Inv maxPending := by
  cases call with
  | getJob path =>
    have h : (match s.ft.lookup path with
      | none => _
      | some entry => _) = _ := h
    cases he : s.ft.lookup path with
    | none => rw [he] at h; cases h
    | some e =>
      rw [he] at h
      obtain ⟨⟨job, e', jobs⟩, hjob, h⟩ := bind_eq_ok.mp h
      cases h
      exact hs.getJob he hjob
  | findAndRemove path jobId =>
    obtain ⟨⟨removed, ft'⟩, hfind, h⟩ := bind_eq_ok.mp h
    cases h
    exact hs.findAndRemove hfind
  | enqueue path chunk =>
    obtain ⟨ft', hft, h⟩ := bind_eq_ok.mp h
    cases h
    unfold filetableEnqueueWorkRequest at hft
    cases he : s.ft.lookup path with
    | none => rw [he] at hft; cases hft
    | some e =>
      rw [he] at hft
      cases hft
      have hpath := path_of_lookup he
      have hlook : IsUpdate s.ft _ path { e with workQueue := e.workQueue ++ [chunk] } :=
        isUpdate_overwrite he hpath
      refine { hs with entries := fun p x hx => ?_ }
      rw [hlook] at hx
      split_ifs at hx with hp
      · cases hx
        subst hp
        exact { hs.entries p e he with }
      · exact hs.entries p x hx
  | add fs peer needsData =>
    cases h
    refine hs.forget rfl fun p e he => ?_
    by_cases hlist : ListsFile (filesystemIteratorRelative true fs) p
    · obtain ⟨e', he', hnew⟩ := (lookup_foldl_addItem (s.ft, s.jobs.rand)).1 hlist
      cases he.symm.trans he'
      obtain ⟨item, -, workQueue, -, -, rfl, -⟩ := hnew
      exact Or.inl rfl
    · have hsame : ((filesystemIteratorRelative true fs).foldl (addItem peer needsData)
          (s.ft, s.jobs.rand)).1.lookup p = s.ft.lookup p := (lookup_foldl_addItem _).2 hlist
      exact Or.inr ⟨hsame.symm.trans he, hlist⟩
  | remove fs =>
    cases h
    exact hs.forget rfl fun p e he => Or.inr (lookup_foldl_erase.mp he)

/-! ## Runs -/

theorem Inv.outstanding (hs : s.Inv maxPending) :
    (s.ft.entries.flatMap FileTableEntry.outstandingRequests).Nodup := by
  have hpaths := s.ft.nodup_entries
  rw [List.Nodup, List.pairwise_map] at hpaths
  refine List.nodup_flatMap.mpr ⟨fun e he => (hs.entries _ e (mem_entries.mp he)).nodup, ?_⟩
  refine hpaths.imp_of_mem fun {e e'} he he' hne id hid hid' => hne ?_
  exact hs.apart _ _ id ((hs.entries _ e (mem_entries.mp he)).own id hid)
    ((hs.entries _ e' (mem_entries.mp he')).own id hid')

theorem Inv.handled {call : JobCall} (h : s.Allows call) : ∃ t, s.step maxPending call = .ok t := by
  cases call with
  | getJob path =>
    obtain ⟨e, he, hserved⟩ := h
    obtain ⟨r, hr⟩ := filetableentryGetJob_isOk hserved maxPending s.jobs
    unfold JobRun.step
    dsimp only
    rw [he]
    exact ⟨_, bind_eq_ok.mpr ⟨r, hr, rfl⟩⟩
  | findAndRemove path jobId =>
    obtain ⟨e, he⟩ := Option.isSome_iff_exists.mp h
    obtain ⟨r, hr⟩ := filetableFindAndRemoveJobId_isOk.mpr ⟨e, he⟩
    exact ⟨_, bind_eq_ok.mpr ⟨r, hr, rfl⟩⟩
  | enqueue path chunk =>
    obtain ⟨e, he⟩ := Option.isSome_iff_exists.mp h
    have hft : ∃ ft', filetableEnqueueWorkRequest s.ft path chunk = .ok ft' := by
      unfold filetableEnqueueWorkRequest
      rw [he]
      exact ⟨_, rfl⟩
    obtain ⟨ft', hft⟩ := hft
    exact ⟨_, bind_eq_ok.mpr ⟨ft', hft, rfl⟩⟩
  | add fs peer needsData => exact ⟨_, rfl⟩
  | remove fs => exact ⟨_, rfl⟩

end JobRun

open Runs

/-- **Jobs.** However the calls follow each other, no entry waits for more than `maxPending` jobs, no
id is outstanding or issued twice, and an id is found at most once, by the entry that issued it. -/
theorem jobs_disciplined {rand : Rand} {calls : List JobCall} {s : JobRun}
    (hft : ft.All fun e => e.outstandingRequests = [])
    (h : Run (JobRun.step maxPending) JobRun.Allows (.initial ft rand) calls s) :
    s.Disciplined maxPending := by
  have hs : s.Inv maxPending :=
    h.invariant (fun _ _ _ hs _ ht => hs.step ht) (JobRun.inv_initial hft)
  exact ⟨fun p e he => (hs.entries p e he).bounded, hs.outstanding, hs.issued, hs.accepted,
    fun _ _ => hs.findsOwn, fun _ => JobRun.Inv.handled⟩

namespace JobsExample

/-- A file `a` of one byte. -/
def withFile : Folder := ⟨.empty, [⟨.ofBytes [97], 1, 1, 0⟩], []⟩

/-- The file is requested, replaced by another version and requested again; the answer to the second
request is accepted. -/
def calls : List JobCall :=
  [.add withFile 2 true, .getJob (.ofBytes [47, 97]), .add withFile 3 true,
    .getJob (.ofBytes [47, 97]), .findAndRemove (.ofBytes [47, 97]) 1,
    .findAndRemove (.ofBytes [47, 97]) 2]

/-- A test for `JobRun.Allows`. -/
def allowsTest (s : JobRun) : JobCall → Bool
  | .getJob path => (s.ft.lookup path).any fun e =>
      e.workQueue.all fun c => decide (0 ≤ c) && (e.chunks[c.toNat]?).any fun owners => !owners.isEmpty
  | .findAndRemove path _ => (s.ft.lookup path).isSome
  | .enqueue path _ => (s.ft.lookup path).isSome
  | _ => true

theorem allows_of_test (s : JobRun) (call : JobCall) (h : allowsTest s call = true) :
    s.Allows call := by
  cases call with
  | getJob path =>
    obtain ⟨e, he, hall⟩ := (Option.any_eq_true _ _).mp h
    refine ⟨e, he, fun c hc => ?_⟩
    have hc := List.all_eq_true.mp hall c hc
    rw [Bool.and_eq_true, decide_eq_true_eq] at hc
    obtain ⟨owners, howners, hne⟩ := (Option.any_eq_true _ _).mp hc.2
    exact ⟨hc.1, owners, howners, by simpa using hne⟩
  | findAndRemove path jobId => exact h
  | enqueue path chunk => exact h
  | _ => trivial

end JobsExample

open JobsExample

theorem jobs_disciplined_after_replacement :
    ∃ s, Run (JobRun.step 1) JobRun.Allows (.initial filetableNew fun _ => 0) calls s ∧
      s.accepted = [2] ∧ s.Disciplined 1 := by
  have hrun : (runIf (JobRun.step 1) allowsTest (.initial filetableNew fun _ => 0) calls).any
      (fun s => s.accepted = [2]) = true := by decide +kernel
  obtain ⟨s, hs, hacc⟩ := (Option.any_eq_true _ _).mp hrun
  have hs := run_of_runIf allows_of_test hs
  exact ⟨s, hs, of_decide_eq_true hacc, jobs_disciplined all_filetableNew hs⟩

end DartSync
