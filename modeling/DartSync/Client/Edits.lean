import DartSync.Client.Files
import DartSync.Client.Owners

/-!
# Edits by the user

Between an edit and the settled check that reports it, the difference between `cur_fs` and the
directory is all that the client knows of the edit. A diff, or a chunk of any file, sets `cur_fs` to a
snapshot that has the edit already, and then no check finds it. As long as neither comes in between,
the edit is reported.
-/

namespace DartSync

open KeyedList Runs

variable {c : Client} {ev : ClientEvent} {sent sent' : List ClientMessage} {fs m : Folder}
  {q : List CString} {n : CString} {e : File} {es es' : List ClientEvent}

/-- What a tree lists under a name in the folder at `q`. -/
def listedAt (fs : Folder) (q : List CString) (n : CString) : Option File :=
  (fs.node q).bind fun d => findKey File.name n d.files

theorem listedAt_eq_some (hfs : fs.WellFormed) :
    listedAt fs q n = some e ↔ (q, e) ∈ fs.view.entries ∧ e.name = n := by
  unfold listedAt
  rw [Option.bind_eq_some_iff]
  constructor
  · rintro ⟨d, hd, he⟩
    exact ⟨⟨d, hd, mem_of_findKey he⟩, key_of_findKey he⟩
  · rintro ⟨⟨d, hd, he⟩, rfl⟩
    refine ⟨d, hd, findKey_of_mem ?_ he⟩
    cases hfs.node hd
    assumption

/-- A snapshot lists under a name what lies at its path. -/
theorem listedAt_filesystemNew {dir dir' : Directory}
    (h : dir'.lookup (q ++ [n]) = dir.lookup (q ++ [n])) :
    listedAt dir'.filesystemNew q n = listedAt dir.filesystemNew q n := by
  refine Option.ext fun e => ?_
  show _ = some e ↔ _ = some e
  rw [listedAt_eq_some dir'.wellFormed_filesystemNew, listedAt_eq_some dir.wellFormed_filesystemNew,
    Directory.mem_entries_filesystemNew, Directory.mem_entries_filesystemNew]
  refine and_congr_left fun hname => ?_
  rw [hname, h]

/-! ## Edits -/

/-- A change at one path: the entry that `cur_fs` has there, and the one that the directory has. -/
structure Edit where
  folder : List CString
  name : CString
  before : Option File
  after : Option File

/-- The edit that turns the directory of a client into `edited`, at one path. -/
def Edit.of (c : Client) (edited : Directory) (folder : List CString) (name : CString) : Edit where
  folder := folder
  name := name
  before := listedAt c.curFs folder name
  after := listedAt edited.filesystemNew folder name

namespace Edit

variable {ed : Edit}

/-- The update contains the edit: it adds the new entry and deletes the old one. -/
def Shows (ed : Edit) (update : Folder × Folder) : Prop :=
  ed.before ≠ ed.after → (∀ e, ed.after = some e → (ed.folder, e) ∈ update.1.view.entries) ∧
    ∀ e, ed.before = some e → (ed.folder, e) ∈ update.2.view.entries

/-- An update that contains the edit has been sent. -/
def Reported (ed : Edit) (sent : List ClientMessage) : Prop :=
  ∃ additions deletions, .updatedFiles additions deletions ∈ sent ∧ ed.Shows (additions, deletions)

theorem Reported.append (h : ed.Reported sent) (sent' : List ClientMessage) :
    ed.Reported (sent ++ sent') := by
  obtain ⟨additions, deletions, hmem, hshows⟩ := h
  exact ⟨additions, deletions, List.mem_append_left _ hmem, hshows⟩

theorem shows_filesystemDiff (hcur : fs.WellFormed) (hm : m.WellFormed)
    (hbefore : listedAt fs ed.folder ed.name = ed.before)
    (hafter : listedAt m ed.folder ed.name = ed.after) : ed.Shows (filesystemDiff fs m) := by
  intro hne
  have hadd := (isDiff_additions hcur.distinct hm.distinct).entries_eq
  have hdel := (isDiff_deletions hcur.distinct hm.distinct).entries_eq
  constructor
  · intro e he
    obtain ⟨hmem, hname⟩ := (listedAt_eq_some hm).mp (hafter.trans he)
    rw [hadd]
    refine ⟨hmem, fun hin => hne ?_⟩
    rw [he, ← hbefore]
    exact (listedAt_eq_some hcur).mpr ⟨hin, hname⟩
  · intro e he
    obtain ⟨hmem, hname⟩ := (listedAt_eq_some hcur).mp (hbefore.trans he)
    rw [hdel]
    refine ⟨hmem, fun hin => hne ?_⟩
    rw [he, ← hafter]
    exact ((listedAt_eq_some hm).mpr ⟨hin, hname⟩).symm

/-- A tree has no difference to itself that would show an edit. -/
theorem not_shows_self (hfs : fs.WellFormed) (hne : ed.before ≠ ed.after) :
    ¬ ed.Shows (filesystemDiff fs fs) := by
  intro h
  obtain ⟨hafter, hbefore⟩ := h hne
  have hadd := (isDiff_additions hfs.distinct hfs.distinct).entries_eq
  have hdel := (isDiff_deletions hfs.distinct hfs.distinct).entries_eq
  rw [hadd, Set.sdiff_self] at hafter
  rw [hdel, Set.sdiff_self] at hbefore
  refine hne (Option.ext fun e => ⟨fun he => ?_, fun he => ?_⟩)
  exacts [(hbefore e he).elim, (hafter e he).elim]

end Edit

/-! ## Runs after an edit -/

/-- A client, and what it has sent since the edit. -/
structure EditRun where
  client : Client
  sent : List ClientMessage

def EditRun.step (s : EditRun) (ev : ClientEvent) : Except Abort EditRun := do
  let (client, sent) ← s.client.step ev
  return ⟨client, s.sent ++ sent⟩

variable {s t : EditRun} {ed : Edit}

theorem EditRun.step_ok (h : s.step ev = .ok t) :
    ∃ sent, FilesStep s.client ev t.client sent ∧ t.sent = s.sent ++ sent := by
  obtain ⟨⟨client, sent⟩, hstep, h⟩ := bind_eq_ok.mp h
  cases h
  exact ⟨sent, filesStep hstep, rfl⟩

/-- The path of the edit is left alone: the user changes other paths only, and a master has there
what `cur_fs` has. -/
def Edit.LeftAlone (ed : Edit) (c : Client) : ClientEvent → Prop
  | .edit dir => listedAt dir.filesystemNew ed.folder ed.name =
      listedAt c.dir.filesystemNew ed.folder ed.name
  | .master m => (m.WellFormed ∧ m.Named) ∧
      listedAt m ed.folder ed.name = listedAt c.curFs ed.folder ed.name
  | _ => True

/-- Until the edit has been reported, its path is left alone and the client takes no fresh snapshot
for `cur_fs`. -/
def Edit.Keeps (ed : Edit) (s : EditRun) (ev : ClientEvent) : Prop :=
  ed.Reported s.sent ∨ ed.LeftAlone s.client ev ∧ ¬ s.client.resnapshots ev = true

/-- The edit is still open: `cur_fs` has the old entry and the directory the new one. -/
structure Edit.Open (ed : Edit) (c : Client) : Prop where
  tidy : IsTidy c.curFs
  before : listedAt c.curFs ed.folder ed.name = ed.before
  after : listedAt c.dir.filesystemNew ed.folder ed.name = ed.after

theorem Edit.Open.shows (h : ed.Open c) : ed.Shows c.localDiff :=
  shows_filesystemDiff h.tidy.wellFormed c.dir.wellFormed_filesystemNew h.before h.after

/-- One event before the edit has been reported. -/
theorem Edit.Open.step (h : ed.Open c) (halone : ed.LeftAlone c ev)
    (hsnap : ¬ c.resnapshots ev = true) {c' : Client} (hstep : FilesStep c ev c' sent) :
    ed.Open c' ∨ ed.Reported sent := by
  cases hstep with
  | unchanged _ _ _ _ hdir hcur =>
    exact Or.inl ⟨by rw [hcur]; exact h.tidy, by rw [hcur]; exact h.before,
      by rw [hdir]; exact h.after⟩
  | resnapshot hyes => exact absurd hyes hsnap
  | @adopted m _ _ hdir hcur =>
    obtain ⟨⟨hwf, hnamed⟩, hsame⟩ := halone
    have hm : IsTidy m := ⟨hwf, legalPaths_of_named hnamed⟩
    refine Or.inl ⟨by rwa [hcur], by rw [hcur, hsame]; exact h.before, ?_⟩
    rw [hdir, ← h.after]
    refine listedAt_filesystemNew (lookup_adoptedDir_of_same h.tidy hm ?_)
    rintro ⟨q, e⟩ hpath
    obtain ⟨rfl, hname⟩ := List.append_inj' hpath rfl
    have hname : e.name = ed.name := by simpa using hname
    have hcurAt := listedAt_eq_some (q := ed.folder) (n := ed.name) (e := e) h.tidy.wellFormed
    have hmAt := listedAt_eq_some (q := ed.folder) (n := ed.name) (e := e) hwf
    rw [hsame, hcurAt] at hmAt
    exact ⟨fun hx => (hmAt.mp ⟨hx, hname⟩).1, fun hx => (hmAt.mpr ⟨hx, hname⟩).1⟩
  | reported => exact Or.inr ⟨_, _, List.mem_cons_self, h.shows⟩
  | edited => exact Or.inl ⟨h.tidy, h.before, halone.trans h.after⟩

/-- A snapshot that is taken for `cur_fs` hides every edit that has not been reported. -/
theorem Edit.reported_of_resnapshot (hsnap : s.client.resnapshots ev = true) (ht : s.step ev = .ok t)
    (hprop : ed.Reported t.sent ∨ ed.Shows t.client.localDiff) :
    ed.Reported s.sent ∨ ed.before = ed.after := by
  obtain ⟨sent, hstep, hsent⟩ := EditRun.step_ok ht
  obtain ⟨client, tsent⟩ := t
  cases hstep with
  | unchanged hno => exact absurd hsnap hno
  | adopted => cases hsnap
  | reported => cases hsnap
  | edited => cases hsnap
  | resnapshot _ hcur hno =>
    rcases hprop with ⟨additions, deletions, hmem, hshows⟩ | hshows
    · rw [hsent, List.mem_append] at hmem
      exact Or.inl ⟨additions, deletions, hmem.resolve_right (hno _ _), hshows⟩
    · refine Or.inr (by_contra fun hne => ?_)
      unfold Client.localDiff at hshows
      rw [hcur] at hshows
      exact Edit.not_shows_self (Directory.wellFormed_filesystemNew _) hne hshows

/-- **Edits.** After any run with tidy masters the user makes an edit. In every run that goes on from
there and in which no snapshot is taken for `cur_fs` before the edit has been reported, the edit has
been reported or is in the difference of the directory to `cur_fs`; and a snapshot taken before that
loses it. -/
theorem edit_reported_or_shown {dir edited : Directory} {ft : FileTable} {now : UInt64} {rand : Rand}
    (h : Run Client.stepState MastersTidy (.initial dir ft now rand) es c)
    (hed : ed = Edit.of c edited q n)
    (h' : Run EditRun.step ed.Keeps ⟨{ c with dir := edited }, []⟩ es' s) :
    (ed.Reported s.sent ∨ ed.Shows s.client.localDiff) ∧
    ∀ ev t, s.client.resnapshots ev = true → s.step ev = .ok t →
      ed.Reported t.sent ∨ ed.Shows t.client.localDiff → ed.Reported s.sent ∨ ed.before = ed.after := by
  have htidy : IsTidy c.curFs := by
    refine h.invariant (I := fun c => IsTidy c.curFs) (fun s ev t hs hm ht => ?_)
      (isTidy_filesystemNew dir)
    obtain ⟨sent, ht⟩ := Client.stepState_ok ht
    exact isTidy_step hs hm (filesStep ht)
  have hopen : ed.Reported s.sent ∨ ed.Open s.client := by
    refine h'.invariant (I := fun s => ed.Reported s.sent ∨ ed.Open s.client)
      (fun s ev t hs hkeep ht => ?_) (Or.inr ?_)
    · obtain ⟨sent, hstep, hsent⟩ := EditRun.step_ok ht
      rw [hsent]
      rcases hs with hs | hs
      · exact Or.inl (hs.append sent)
      · rcases hkeep with hrep | ⟨halone, hsnap⟩
        · exact Or.inl (hrep.append sent)
        · rcases hs.step halone hsnap hstep with hopen | hrep
          · exact Or.inr hopen
          · obtain ⟨additions, deletions, hmem, hshows⟩ := hrep
            exact Or.inl ⟨additions, deletions, List.mem_append_right _ hmem, hshows⟩
    · subst hed
      exact ⟨htidy, rfl, rfl⟩
  exact ⟨hopen.imp id Edit.Open.shows, fun ev t => Edit.reported_of_resnapshot⟩

/-! ## A diff after an edit -/

namespace EditsExample

/-- A client with an empty directory. -/
def start : Client := .initial .empty filetableNew 0 fun _ => 0

/-- The directory with a file `c`. -/
def edited : Directory := Directory.empty.insert [.ofBytes [99]] (.file [1] 1) (by decide)

/-- The edit that makes the file. -/
def makeFile : Edit := .of start edited [] (.ofBytes [99])

/-- The client after the edit. -/
def afterEdit : EditRun := ⟨{ start with dir := edited }, []⟩

/-- A tree with a file `b`. -/
def otherFile : Folder := ⟨.empty, [⟨.ofBytes [98], 1, 1, 0⟩], []⟩

def isCheck (_ : EditRun) : ClientEvent → Bool
  | .checkLocal _ => true
  | _ => false

theorem keeps_of_isCheck (s : EditRun) (ev : ClientEvent) (h : isCheck s ev = true) :
    makeFile.Keeps s ev := by
  cases ev with
  | checkLocal now => exact Or.inr ⟨trivial, nofun⟩
  | _ => cases h

end EditsExample

open EditsExample

theorem edit_reported_after_checks :
    ∃ s, Run EditRun.step makeFile.Keeps afterEdit [.checkLocal 6000000, .checkLocal 12000000] s ∧
      (makeFile.Reported s.sent ∨ makeFile.Shows s.client.localDiff) ∧
      ∀ ev t, s.client.resnapshots ev = true → s.step ev = .ok t →
        makeFile.Reported t.sent ∨ makeFile.Shows t.client.localDiff →
          makeFile.Reported s.sent ∨ makeFile.before = makeFile.after := by
  have hrun : (runIf EditRun.step isCheck afterEdit
      [.checkLocal 6000000, .checkLocal 12000000]).isSome = true := by decide +kernel
  obtain ⟨s, hs⟩ := Option.isSome_iff_exists.mp hrun
  have hs := run_of_runIf keeps_of_isCheck hs
  exact ⟨s, hs, edit_reported_or_shown (.nil start) rfl hs⟩

/-- A diff that adds the file `b` comes before the edit of `c` has been reported. -/
theorem edit_lost_by_diff :
    ∃ s, Run EditRun.step (fun _ _ => True) afterEdit [.diff otherFile emptyFilesystem 2] s ∧
      ¬ (makeFile.Reported s.sent ∨ makeFile.Shows s.client.localDiff) := by
  have hok : (afterEdit.step (.diff otherFile emptyFilesystem 2)).isOk = true := by decide +kernel
  obtain ⟨s, hs⟩ : ∃ s, afterEdit.step (.diff otherFile emptyFilesystem 2) = .ok s := by
    cases h : afterEdit.step (.diff otherFile emptyFilesystem 2) with
    | error a => rw [h] at hok; cases hok
    | ok s => exact ⟨s, rfl⟩
  refine ⟨s, .cons trivial hs (.nil s), fun hprop => ?_⟩
  rcases Edit.reported_of_resnapshot rfl hs hprop with ⟨_, _, hmem, -⟩ | heq
  · cases hmem
  · exact absurd heq (by decide +kernel)

end DartSync
