import DartSync.Client.Adopt
import DartSync.Client.OnDisk
import DartSync.Client.Owners

/-!
# Idle clients

A client whose user edits nothing sends an update in one case only: a settled check comes while the
client is owed files of the last master, and reports them as deleted. The debt ends when `cur_fs` is
set from the directory, after a diff, a chunk or a settled check.
-/

namespace DartSync

open Runs Directory

variable {c c' : Client} {ev : ClientEvent} {sent sent' : List ClientMessage} {owed : Folder}
  {es : List ClientEvent}

/-! ## Updates -/

/-- No update with additions or deletions is sent. -/
def NoChange (sent : List ClientMessage) : Prop :=
  ∀ additions deletions, .updatedFiles additions deletions ∈ sent →
    ¬ checkFileSystem additions = true ∧ ¬ checkFileSystem deletions = true

theorem noChange_append : NoChange (sent ++ sent') ↔ NoChange sent ∧ NoChange sent' := by
  constructor
  · exact fun h => ⟨fun a d hmem => h a d (List.mem_append_left _ hmem),
      fun a d hmem => h a d (List.mem_append_right _ hmem)⟩
  · exact fun h a d hmem => (List.mem_append.mp hmem).elim (h.1 a d) (h.2 a d)

theorem NoUpdate.noChange (h : NoUpdate sent) : NoChange sent :=
  fun additions deletions hmem => absurd hmem (h additions deletions)

/-- The event is a check that finds the directory settled. -/
def Client.settles (c : Client) : ClientEvent → Bool
  | .checkLocal now => decide (c.Settled now)
  | _ => false

/-- The files that the client is owed after an event. -/
def Client.owedAfter (c : Client) (owed : Folder) (ev : ClientEvent) : Folder :=
  match ev with
  | .master m => (filesystemDiff c.dir.filesystemNew m).1
  | ev => if c.resnapshots ev || c.settles ev then emptyFilesystem else owed

/-- The user edits nothing, and the masters are such as snapshots make and take no hidden file
away. -/
def IsIdle (c : Client) : ClientEvent → Prop
  | .edit _ => False
  | .master m => IsMaster m ∧ CanRemove c m
  | _ => True

theorem owedAfter_of_ne_master (h : ∀ m, ev ≠ .master m) : c.owedAfter owed ev =
    if c.resnapshots ev || c.settles ev then emptyFilesystem else owed := by
  cases ev with
  | master m => exact absurd rfl (h m)
  | _ => rfl

namespace OnDisk

/-- A settled check finds the files that the client is owed, as deletions. -/
theorem localDiff (h : OnDisk c owed) : ¬ checkFileSystem c.localDiff.1 = true ∧
    (checkFileSystem c.localDiff.2 = true ↔ hasFiles owed = true) := by
  have hcur := h.tidy.wellFormed.distinct
  have hdir := (wellFormed_filesystemNew c.dir).distinct
  unfold Client.localDiff
  constructor
  · rw [checkFileSystem_iff_entries (distinct_additions hdir), (isDiff_additions hcur hdir).entries_eq]
    rintro ⟨x, hx, hnot⟩
    exact hnot (h.announced hx)
  · rw [checkFileSystem_iff_entries (distinct_deletions hcur), (isDiff_deletions hcur hdir).entries_eq,
      hasFiles_iff h.distinct]
    exact exists_congr h.missing

/-- Without a debt `cur_fs` is what the directory has. -/
theorem of_not_hasFiles (h : OnDisk c owed) (hnone : ¬ hasFiles owed = true) :
    OnDisk c emptyFilesystem where
  tidy := h.tidy
  visible := h.visible
  distinct := wellFormed_emptyFilesystem.distinct
  announced := h.announced
  missing x := by
    rw [h.missing]
    exact iff_of_false (fun hx => hnone ((hasFiles_iff h.distinct).mpr ⟨x, hx⟩))
      fun hx => Folder.not_mem_entries_of_isEmpty rfl x hx.1

/-- What one event does. -/
theorem step (h : OnDisk c owed) (hidle : IsIdle c ev) (hstep : FilesStep c ev c' sent) :
    OnDisk c' (c.owedAfter owed ev) ∧
      (NoChange sent ↔ ¬ (c.settles ev = true ∧ hasFiles owed = true)) := by
  cases hstep with
  | unchanged hsnap hmaster _ hcheck hdir hcur hno =>
    have h' : ∀ {owed'}, OnDisk c owed' → OnDisk c' owed' := fun h => ⟨by rw [hcur]; exact h.tidy,
      by rw [hcur]; exact h.visible, h.distinct, by rw [hcur, hdir]; exact h.announced,
      by rw [hcur, hdir]; exact h.missing⟩
    rw [owedAfter_of_ne_master hmaster, Bool.eq_false_iff.mpr hsnap, Bool.false_or]
    by_cases hsettles : c.settles ev = true
    · obtain ⟨now, rfl, hsettled⟩ : ∃ now, ev = .checkLocal now ∧ c.Settled now := by
        cases ev with
        | checkLocal now => exact ⟨now, rfl, of_decide_eq_true hsettles⟩
        | _ => cases hsettles
      have hnone : ¬ hasFiles owed = true := fun hfiles =>
        (hcheck now rfl hsettled).2 (h.localDiff.2.mpr hfiles)
      rw [if_pos hsettles]
      exact ⟨h' (h.of_not_hasFiles hnone), iff_of_true hno.noChange fun hboth => hnone hboth.2⟩
    · rw [if_neg hsettles]
      exact ⟨h' h, iff_of_true hno.noChange fun hboth => hsettles hboth.1⟩
  | resnapshot hsnap hcur hno =>
    have hmaster : ∀ m, ev ≠ .master m := by rintro m rfl; cases hsnap
    have hsettles : ¬ c.settles ev = true := by
      cases ev with
      | checkLocal now => cases hsnap
      | _ => nofun
    rw [owedAfter_of_ne_master hmaster, hsnap, Bool.true_or, if_pos rfl]
    exact ⟨onDisk_of_snapshot hcur, iff_of_true hno.noChange fun hboth => hsettles hboth.1⟩
  | adopted hdir hcur hno =>
    exact ⟨h.adopted hidle.1 hidle.2 hdir hcur,
      iff_of_true hno.noChange fun hboth => Bool.false_ne_true hboth.1⟩
  | @reported now _ hsettled hfound hdir hcur =>
    have hsettles : c.settles (.checkLocal now) = true := decide_eq_true hsettled
    have hfiles := h.localDiff.2.mp (hfound.resolve_left h.localDiff.1)
    refine ⟨?_, iff_of_false (fun hno => ?_) (not_not.mpr ⟨hsettles, hfiles⟩)⟩
    · rw [show c.owedAfter owed (.checkLocal now) = emptyFilesystem from if_pos hsettles]
      exact onDisk_of_snapshot (hcur.trans (by rw [hdir]))
    · exact (hno _ _ List.mem_cons_self).2 (h.localDiff.2.mpr hfiles)
  | edited => exact hidle.elim

end OnDisk

/-! ## Runs -/

/-- A client with the files it is owed, whether a settled check has come while it was owed some, and
what it has sent. -/
structure IdleRun where
  client : Client
  owed : Folder
  early : Bool
  sent : List ClientMessage

def IdleRun.start (c : Client) : IdleRun := ⟨c, emptyFilesystem, false, []⟩

def IdleRun.step (s : IdleRun) (ev : ClientEvent) : Except Abort IdleRun := do
  let (client, sent) ← s.client.step ev
  return {
    client := client
    owed := s.client.owedAfter s.owed ev
    early := s.early || (s.client.settles ev && hasFiles s.owed)
    sent := s.sent ++ sent }

variable {s : IdleRun}

/-- **Idle clients.** In every run without edits, a client has sent no update with additions or
deletions exactly when no settled check has come while it was owed files of the last master. -/
theorem idle_noChange_iff {dir : Directory} {ft : FileTable} {now : UInt64} {rand : Rand}
    (h : Run IdleRun.step (fun s => IsIdle s.client) (.start (.initial dir ft now rand)) es s) :
    NoChange s.sent ↔ s.early = false := by
  refine (h.invariant (I := fun s => OnDisk s.client s.owed ∧ (NoChange s.sent ↔ s.early = false))
    (fun s ev t hs hidle ht => ?_) ⟨onDisk_of_snapshot rfl, iff_of_true ?_ rfl⟩).2
  · obtain ⟨⟨client, sent⟩, hstep, ht⟩ := bind_eq_ok.mp ht
    cases ht
    obtain ⟨hin, hno⟩ := hs.1.step hidle (filesStep hstep)
    refine ⟨hin, ?_⟩
    rw [noChange_append, hs.2, hno, Bool.or_eq_false_iff, Bool.and_eq_false_iff, not_and_or,
      Bool.not_eq_true, Bool.not_eq_true]
  · exact noUpdate_nil.noChange

/-! ## A check before the file has come -/

namespace IdleExample

open AdoptExample

/-- A client with an empty directory and the table of a tracker that has one file. -/
def start : IdleRun := .start (.initial .empty table 0 fun _ => 0)

/-- A test for `IsIdle`, in a directory without hidden files. -/
def idleTest (s : IdleRun) : ClientEvent → Bool
  | .edit _ => false
  | .master m =>
    decide (m.WellFormed ∧ m.Named) &&
      (entryList false m).all (fun x =>
        decide ((∀ n ∈ diskPath x, ¬ IsHidden n) ∧ (x.2.isFolder = 0 → x.2.IsPlain))) &&
      s.client.dir.nodes.all fun y => decide (∀ n ∈ y.1, ¬ IsHidden n)
  | _ => true

theorem isIdle_of_test (s : IdleRun) (ev : ClientEvent) (h : idleTest s ev = true) :
    IsIdle s.client ev := by
  cases ev with
  | edit dir => cases h
  | master m =>
    rw [idleTest, Bool.and_eq_true, Bool.and_eq_true, List.all_eq_true, List.all_eq_true] at h
    obtain ⟨⟨htidy, hentries⟩, hnodes⟩ := h
    obtain ⟨hwf, hnamed⟩ := of_decide_eq_true htidy
    have hmaster : ∀ x ∈ m.view.entries, (∀ n ∈ diskPath x, ¬ IsHidden n) ∧
        (x.2.isFolder = 0 → x.2.IsPlain) := fun x hx =>
      of_decide_eq_true (hentries x ((mem_entryList false hwf.distinct).mpr hx))
    refine ⟨⟨⟨hwf, legalPaths_of_named hnamed⟩, fun x hx => (hmaster x hx).1,
      fun x hx => (hmaster x hx).2⟩, fun x _ n hn => ?_⟩
    obtain ⟨node, hnode⟩ := Option.ne_none_iff_exists'.mp hn
    exact of_decide_eq_true (hnodes _ (lookup_eq_some.mp hnode)) n
      (List.mem_append_right _ List.mem_cons_self)
  | _ => trivial

end IdleExample

open IdleExample

theorem idle_noChange_after_master :
    ∃ s, Run IdleRun.step (fun s => IsIdle s.client) start
        [.master AdoptExample.master, .checkLocal 6000000] s ∧
      (NoChange s.sent ↔ s.early = false) := by
  have hrun : (runIf IdleRun.step idleTest start
      [.master AdoptExample.master, .checkLocal 6000000]).isSome = true := by decide +kernel
  obtain ⟨s, hs⟩ := Option.isSome_iff_exists.mp hrun
  have hs := run_of_runIf isIdle_of_test hs
  exact ⟨s, hs, idle_noChange_iff hs⟩

/-- The file of the master has not come when the second check finds the directory settled. -/
theorem idle_client_deletes_file :
    ∃ s, Run IdleRun.step (fun s => IsIdle s.client) start
        [.master AdoptExample.master, .checkLocal 6000000, .checkLocal 12000000] s ∧
      ¬ NoChange s.sent := by
  have hrun : (runIf IdleRun.step idleTest start
      [.master AdoptExample.master, .checkLocal 6000000, .checkLocal 12000000]).any (fun s =>
        s.sent.any fun msg => match msg with
          | .updatedFiles _ deletions => checkFileSystem deletions
          | _ => false) = true := by decide +kernel
  obtain ⟨s, hs, hsent⟩ := (Option.any_eq_true _ _).mp hrun
  refine ⟨s, run_of_runIf isIdle_of_test hs, fun hno => ?_⟩
  obtain ⟨msg, hmsg, hdel⟩ := List.any_eq_true.mp hsent
  cases msg with
  | updatedFiles additions deletions => exact (hno additions deletions hmsg).2 hdel
  | _ => cases hdel

end DartSync
