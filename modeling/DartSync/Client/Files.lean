import DartSync.Client.Disk
import DartSync.Client.WorkQueue

/-!
# The directory and the announced tree

What the handling of an event does to the directory and to `cur_fs`: a diff or a chunk that is
accepted sets `cur_fs` to a fresh snapshot, a master sets it to the master, a settled check to the
snapshot that it reports, and nothing else changes it.
-/

namespace DartSync

variable {c c' : Client} {ev : ClientEvent} {sent : List ClientMessage} {dir : Directory}
  {p q : List CString} {n : CString} {e : File} {m : Folder}

/-! ## Steps -/

/-- No file system update is sent. -/
def NoUpdate (sent : List ClientMessage) : Prop :=
  ∀ additions deletions, .updatedFiles additions deletions ∉ sent

/-- The event makes the client take a fresh snapshot for `cur_fs`. -/
def Client.resnapshots (c : Client) : ClientEvent → Bool
  | .diff _ _ _ => true
  | .chunk filepath _ (some _) requestId =>
    (c.ft.lookup filepath).any fun e => decide (e.Awaits requestId)
  | _ => false

/-- The directory after a master has been adopted. -/
def Client.adoptedDir (c : Client) (master : Folder) : Directory :=
  makeFolders (removePaths c.dir (filesystemDiff c.curFs master).2) (filesystemDiff c.curFs master).1

/-- What an event does to the directory and to `cur_fs`, and which updates it sends. -/
inductive FilesStep (c : Client) : ClientEvent → Client → List ClientMessage → Prop
  | unchanged {ev : ClientEvent} {c' : Client} {sent : List ClientMessage} :
      ¬ c.resnapshots ev = true → (∀ m, ev ≠ .master m) → (∀ dir, ev ≠ .edit dir) →
      (∀ now, ev = .checkLocal now → c.Settled now →
        ¬ checkFileSystem c.localDiff.1 = true ∧ ¬ checkFileSystem c.localDiff.2 = true) →
      c'.dir = c.dir → c'.curFs = c.curFs → NoUpdate sent → FilesStep c ev c' sent
  | resnapshot {ev : ClientEvent} {c' : Client} {sent : List ClientMessage} :
      c.resnapshots ev = true → c'.curFs = c'.dir.filesystemNew → NoUpdate sent →
      FilesStep c ev c' sent
  | adopted {m : Folder} {c' : Client} {sent : List ClientMessage} :
      c'.dir = c.adoptedDir m → c'.curFs = m → NoUpdate sent → FilesStep c (.master m) c' sent
  | reported {now : UInt64} {c' : Client} : c.Settled now →
      checkFileSystem c.localDiff.1 = true ∨ checkFileSystem c.localDiff.2 = true →
      c'.dir = c.dir → c'.curFs = c.dir.filesystemNew →
      FilesStep c (.checkLocal now) c' [.updatedFiles c.localDiff.1 c.localDiff.2]
  | edited {dir : Directory} : FilesStep c (.edit dir) { c with dir := dir } []

theorem noUpdate_nil : NoUpdate [] := fun _ _ => List.not_mem_nil

theorem noUpdate_announceFiles : NoUpdate (announceFiles m) := by
  intro additions deletions hmem
  obtain ⟨item, -, hmem⟩ := List.mem_flatMap.mp hmem
  split_ifs at hmem
  · cases hmem
  · obtain ⟨k, -, h⟩ := List.mem_map.mp hmem
    cases h

theorem filesStep_chunk {filepath : CString} {chunkId requestId : ℤ} {data : Option (List UInt8)}
    (h : receiveChunk c filepath chunkId data requestId = .ok (c', sent)) :
    FilesStep c (.chunk filepath chunkId data requestId) c' sent := by
  obtain ⟨e, he, hrec⟩ := receiveChunk_ok h
  have hsnap : c.resnapshots (.chunk filepath chunkId data requestId) = true ↔
      data.isSome ∧ e.Awaits requestId := by
    cases data with
    | none => simp [Client.resnapshots]
    | some chunk => simp [Client.resnapshots, he]
  cases hrec with
  | ignored hnot =>
    exact .unchanged (fun h => hnot (hsnap.mp h).2) nofun nofun nofun rfl rfl noUpdate_nil
  | rejected _ hdata =>
    exact .unchanged (fun h => by simpa [hdata] using (hsnap.mp h).1) nofun nofun nofun rfl rfl
      noUpdate_nil
  | completed hawait hdata =>
    exact .resnapshot (hsnap.mpr ⟨by rw [hdata]; rfl, hawait⟩) rfl
      fun _ _ h => nomatch List.mem_singleton.mp h
  | stored hawait hdata =>
    exact .resnapshot (hsnap.mpr ⟨by rw [hdata]; rfl, hawait⟩) rfl
      fun _ _ h => nomatch List.mem_singleton.mp h

theorem filesStep_checkLocal (now : UInt64) : FilesStep c (.checkLocal now)
    (checkLocalFilesystem c now).1 (checkLocalFilesystem c now).2 := by
  by_cases hsettled : c.Settled now
  · rw [checkLocalFilesystem_of_settled hsettled]
    by_cases hfound : checkFileSystem c.localDiff.1 = true ∨ checkFileSystem c.localDiff.2 = true
    · rw [if_pos (by rwa [Bool.or_eq_true])]
      exact .reported hsettled hfound rfl rfl
    · rw [if_neg (by rwa [Bool.or_eq_true])]
      exact .unchanged nofun nofun nofun (fun _ _ _ => not_or.mp hfound) rfl rfl noUpdate_nil
  · obtain ⟨prevFs, prevTime, heq⟩ := checkLocalFilesystem_of_not_settled hsettled
    rw [heq]
    refine .unchanged nofun nofun nofun (fun now' h hs => ?_) rfl rfl noUpdate_nil
    cases h
    exact absurd hs hsettled

/-- Every step is of one of these kinds. -/
theorem filesStep (h : c.step ev = .ok (c', sent)) : FilesStep c ev c' sent := by
  cases ev with
  | peerAdded peerId =>
    cases h
    exact .unchanged nofun nofun nofun nofun rfl rfl noUpdate_nil
  | peerDeleted peerId =>
    cases h
    exact .unchanged nofun nofun nofun nofun rfl rfl noUpdate_nil
  | chunkRequest peerId filepath chunkId requestId =>
    obtain ⟨rfl | ⟨-, content, rfl⟩, hsent⟩ := receiveChunkRequest_ok h
    all_goals
      refine .unchanged nofun nofun nofun nofun rfl rfl fun _ _ hmem => ?_
      rcases hsent with ⟨text, rfl⟩ | rfl <;> cases List.mem_singleton.mp hmem
  | chunk filepath chunkId data requestId => exact filesStep_chunk h
  | chunkGot peerId filepath chunkId =>
    obtain ⟨ft, -, h⟩ := bind_eq_ok.mp h
    cases h
    exact .unchanged nofun nofun nofun nofun rfl rfl noUpdate_nil
  | diff additions deletions peerId =>
    obtain ⟨rand, -, hc', rfl⟩ := receiveDiff_ok h
    exact .resnapshot rfl (by rw [hc']) noUpdate_nil
  | master m =>
    obtain ⟨rand, st, rfl, -, hc', rfl⟩ := updateLocalFilesystem_ok h rfl
    refine .adopted ?_ (by rw [hc']) noUpdate_announceFiles
    rw [hc', prepareAdditions_fst]
    rfl
  | workQueue =>
    obtain ⟨requests, jobs, hc', -, rfl, -⟩ := checkWorkQueue_ok h
    refine .unchanged nofun nofun nofun nofun (by rw [hc']) (by rw [hc']) fun _ _ hmem => ?_
    obtain ⟨r, -, h⟩ := List.mem_map.mp hmem
    cases h
  | checkLocal now =>
    have hstep := filesStep_checkLocal (c := c) now
    rwa [show checkLocalFilesystem c now = (c', sent) from Except.ok.inj h] at hstep
  | edit dir =>
    cases h
    exact .edited

/-! ## Tidy trees -/

/-- A tree without double names and with legal names. -/
structure IsTidy (fs : Folder) : Prop where
  wellFormed : fs.WellFormed
  legal : LegalPaths fs

theorem isTidy_filesystemNew (dir : Directory) : IsTidy dir.filesystemNew where
  wellFormed := dir.wellFormed_filesystemNew
  legal := by
    rintro ⟨q, e⟩ he
    obtain ⟨node, hnode, -⟩ :=
      Option.map_eq_some_iff.mp (Directory.mem_entries_filesystemNew.mp he).2
    exact Directory.isName_of_lookup hnode

/-- The masters that arrive are tidy. -/
def MastersTidy (_ : Client) : ClientEvent → Prop
  | .master m => m.WellFormed ∧ m.Named
  | _ => True

theorem isTidy_step (h : IsTidy c.curFs) (hm : MastersTidy c ev) (hok : FilesStep c ev c' sent) :
    IsTidy c'.curFs := by
  cases hok with
  | unchanged _ _ _ _ _ hcur => rwa [hcur]
  | resnapshot _ hcur => rw [hcur]; exact isTidy_filesystemNew _
  | adopted _ hcur => rw [hcur]; exact ⟨hm.1, legalPaths_of_named hm.2⟩
  | reported _ _ _ hcur => rw [hcur]; exact isTidy_filesystemNew _
  | edited => exact h

/-! ## The diff to a master -/

section Master

variable (hcur : IsTidy c.curFs) (hm : IsTidy m)
include hcur hm

theorem entries_additions : (filesystemDiff c.curFs m).1.view.entries =
    m.view.entries \ c.curFs.view.entries :=
  (isDiff_additions hcur.wellFormed.distinct hm.wellFormed.distinct).entries_eq

theorem entries_deletions : (filesystemDiff c.curFs m).2.view.entries =
    c.curFs.view.entries \ m.view.entries :=
  (isDiff_deletions hcur.wellFormed.distinct hm.wellFormed.distinct).entries_eq

theorem legalPaths_additions : LegalPaths (filesystemDiff c.curFs m).1 := by
  intro x hx
  rw [entries_additions hcur hm] at hx
  exact hm.legal x hx.1

theorem legalPaths_deletions : LegalPaths (filesystemDiff c.curFs m).2 := by
  intro x hx
  rw [entries_deletions hcur hm] at hx
  exact hcur.legal x hx.1

/-- Adoption touches no path at which the client and the master have the same. -/
theorem lookup_adoptedDir_of_same
    (h : ∀ x, diskPath x = p → (x ∈ c.curFs.view.entries ↔ x ∈ m.view.entries)) :
    (c.adoptedDir m).lookup p = c.dir.lookup p := by
  have hadd : (filesystemDiff c.curFs m).1.Distinct := distinct_additions hm.wellFormed.distinct
  have hdel : (filesystemDiff c.curFs m).2.Distinct := distinct_deletions hcur.wellFormed.distinct
  unfold Client.adoptedDir
  rw [lookup_makeFolders_of_ne fun item hitem _ =>
      resolve_ne_of_mem hadd (legalPaths_additions hcur hm) (fun x hx hxp => ?_) item hitem,
    lookup_removePaths_of_ne
      (resolve_ne_of_mem hdel (legalPaths_deletions hcur hm) fun x hx hxp => ?_)]
  · rw [entries_deletions hcur hm] at hx
    exact hx.2 ((h x hxp).mp hx.1)
  · rw [entries_additions hcur hm] at hx
    exact hx.2 ((h x hxp).mpr hx.1)

end Master

end DartSync
