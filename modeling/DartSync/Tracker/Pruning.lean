import DartSync.FileTable.Lookup
import DartSync.Tracker

/-!
# Pruning

`prune_filesystem` collects the paths of the entries with an unowned chunk and then removes each of
them from the master and from the table. `Pruned` is what the master and the table look like after
some of the paths; one turn of the loop adds a path to them (`Pruned.prunePath`).
-/

namespace DartSync

open FileTable

/-- Some chunk of the file at `p` has no owner. -/
def HasUnownedChunk (ft : FileTable) (p : CString) : Prop :=
  ∃ fte, ft.lookup p = some fte ∧ [] ∈ fte.chunks

/-- The entry is a file with a path in `paths`. -/
def IsFileAt (paths : List CString) (q : List CString) (e : File) : Prop :=
  e.isFolder = 0 ∧ entryPath q e ∈ paths

instance (paths : List CString) (q : List CString) : DecidablePred (IsFileAt paths q) := fun _ =>
  inferInstanceAs (Decidable (_ ∧ _))

/-- `st` is the tree `fs` and the table `ft` without the files at `paths`. -/
structure Pruned (fs : Folder) (ft : FileTable) (paths : List CString) (st : Folder × FileTable) :
    Prop where
  wellFormed : st.1.WellFormed
  nodes : ∀ q, q ∈ st.1.view.nodes ↔ q ∈ fs.view.nodes
  name : ∀ q d d', fs.node q = some d → st.1.node q = some d' → d'.name = d.name
  files : ∀ q d d', fs.node q = some d → st.1.node q = some d' →
    d'.files = d.files.filter fun e => ¬ IsFileAt paths q e
  folders : ∀ q d d', fs.node q = some d → st.1.node q = some d' →
    d'.folders.map Folder.name = d.folders.map Folder.name
  lookup : ∀ p, st.2.lookup p = if p ∈ paths then none else ft.lookup p

variable {fs : Folder} {ft : FileTable} {paths rest : List CString} {st : Folder × FileTable}
  {p : CString} {q : List CString} {e : File}

theorem mem_filesToPrune : p ∈ filesToPrune ft ↔ HasUnownedChunk ft p := by
  unfold filesToPrune
  rw [List.mem_map]
  constructor
  · rintro ⟨fte, hfte, rfl⟩
    obtain ⟨hmem, hany⟩ := List.mem_filter.mp hfte
    obtain ⟨owners, howners, hempty⟩ := List.any_eq_true.mp hany
    exact ⟨fte, mem_entries.mp hmem, List.isEmpty_iff.mp hempty ▸ howners⟩
  · rintro ⟨fte, hfte, hmem⟩
    obtain rfl := path_of_lookup hfte
    exact ⟨fte, List.mem_filter.mpr ⟨mem_entries.mpr hfte, List.any_eq_true.mpr ⟨[], hmem, rfl⟩⟩, rfl⟩

theorem nodup_filesToPrune : (filesToPrune ft).Nodup :=
  ft.nodup_entries.sublist (List.filter_sublist.map _)

theorem Pruned.refl (hfs : fs.WellFormed) : Pruned fs ft [] (fs, ft) where
  wellFormed := hfs
  nodes _ := Iff.rfl
  name q d d' hd hd' := by rw [Option.some.inj (hd.symm.trans hd')]
  files q d d' hd hd' := by
    obtain rfl := Option.some.inj (hd.symm.trans hd')
    simp [IsFileAt]
  folders q d d' hd hd' := by rw [Option.some.inj (hd.symm.trans hd')]
  lookup p := by simp

theorem Pruned.exists_node {d' : Folder} (h : Pruned fs ft paths st) (hd' : st.1.node q = some d') :
    ∃ d, fs.node q = some d :=
  Option.isSome_iff_exists.mp ((h.nodes q).mp (Option.isSome_iff_exists.mpr ⟨d', hd'⟩))

/-- The entries that are left. -/
theorem Pruned.mem_entries (h : Pruned fs ft paths st) :
    (q, e) ∈ st.1.view.entries ↔ (q, e) ∈ fs.view.entries ∧ ¬ IsFileAt paths q e := by
  constructor
  · rintro ⟨d', hd', he⟩
    obtain ⟨d, hd⟩ := h.exists_node hd'
    rw [h.files q d d' hd hd', List.mem_filter, decide_eq_true_eq] at he
    exact ⟨⟨d, hd, he.1⟩, he.2⟩
  · rintro ⟨⟨d, hd, he⟩, hnot⟩
    obtain ⟨d', hd'⟩ := Option.isSome_iff_exists.mp
      ((h.nodes q).mpr (Option.isSome_iff_exists.mpr ⟨d, hd⟩))
    refine ⟨d', hd', ?_⟩
    rw [h.files q d d' hd hd', List.mem_filter, decide_eq_true_eq]
    exact ⟨he, hnot⟩

/-- Tree and table still name the same files. -/
theorem Pruned.keys (h : Pruned fs ft paths st)
    (hkeys : ∀ p, (ft.lookup p).isSome ↔ p ∈ filePaths fs) (p : CString) :
    (st.2.lookup p).isSome ↔ p ∈ filePaths st.1 := by
  have hleft : p ∈ filePaths st.1 ↔ p ∈ filePaths fs ∧ p ∉ paths := by
    constructor
    · rintro ⟨q, e, he, hfile, rfl⟩
      obtain ⟨he, hnot⟩ := h.mem_entries.mp he
      exact ⟨⟨q, e, he, hfile, rfl⟩, fun hp => hnot ⟨hfile, hp⟩⟩
    · rintro ⟨⟨q, e, he, hfile, rfl⟩, hp⟩
      exact ⟨q, e, h.mem_entries.mpr ⟨he, fun hat => hp hat.2⟩, hfile, rfl⟩
  rw [h.lookup, hleft, ← hkeys]
  by_cases hp : p ∈ paths
  · simp [hp]
  · simp [hp]

/-- The path of an entry is its own. -/
theorem entryPath_eq_iff {q' : List CString} {x : File} (hfs : fs.WellFormed) (hnamed : fs.Named)
    (hx : (q', x) ∈ fs.view.entries) (he : (q, e) ∈ fs.view.entries) :
    entryPath q' x = entryPath q e ↔ q' = q ∧ x = e := by
  obtain ⟨hq', hx'⟩ := hnamed.of_mem_entries hx
  obtain ⟨hq, hn⟩ := hnamed.of_mem_entries he
  constructor
  · intro hpath
    obtain ⟨rfl, hname⟩ := entryPath_inj hq' hx' hq hn hpath
    exact ⟨rfl, hfs.view.unique q' x e hx he hname⟩
  · rintro ⟨rfl, rfl⟩
    rfl

/-- One more path is one more file. -/
theorem isFileAt_append_singleton {q' : List CString} {x : File} (hfs : fs.WellFormed)
    (hnamed : fs.Named) (hx : (q', x) ∈ fs.view.entries) (he : (q, e) ∈ fs.view.entries)
    (hfile : e.isFolder = 0) :
    IsFileAt (paths ++ [entryPath q e]) q' x ↔ IsFileAt paths q' x ∨ (q' = q ∧ x = e) := by
  unfold IsFileAt
  rw [List.mem_append, List.mem_singleton, entryPath_eq_iff hfs hnamed hx he]
  constructor
  · rintro ⟨hxfile, hpath | hsame⟩
    exacts [Or.inl ⟨hxfile, hpath⟩, Or.inr hsame]
  · rintro (⟨hxfile, hpath⟩ | ⟨rfl, rfl⟩)
    exacts [⟨hxfile, Or.inl hpath⟩, ⟨hfile, Or.inr ⟨rfl, rfl⟩⟩]

/-- One turn of the loop: the file is found, and no other is touched. -/
theorem Pruned.prunePath (h : Pruned fs ft paths st) (hfs : fs.WellFormed) (hnamed : fs.Named)
    (hkeys : ∀ p, (ft.lookup p).isSome ↔ p ∈ filePaths fs) (hp : (ft.lookup p).isSome)
    (hnew : p ∉ paths) : ∃ st', prunePath st p = .ok st' ∧ Pruned fs ft (paths ++ [p]) st' := by
  obtain ⟨q, e, he, hfile, rfl⟩ := (hkeys p).mp hp
  obtain ⟨hq, hn⟩ := hnamed.of_mem_entries he
  have he' : (q, e) ∈ st.1.view.entries := h.mem_entries.mpr ⟨he, fun hat => hnew hat.2⟩
  obtain ⟨r, hr, hwell, hwithout⟩ := filesystemRemoveFileAtPath_of_mem h.wellFormed hq hn he'
  -- a file takes no folder with it
  have hnone : ∀ q', ¬ GoesWith q e q' := fun q' hgoes => hgoes.1 hfile
  have hnode {q' : List CString} {d' : Folder} (hd' : r.node q' = some d') : ∃ d, st.1.node q' = some d :=
    Option.isSome_iff_exists.mp ((hwithout.nodes q').mp (Option.isSome_iff_exists.mpr ⟨d', hd'⟩)).1
  refine ⟨(r, filetableRemoveFile st.2 (entryPath q e)), ?_, hwell, fun q' => ?_,
    fun q' d d' hd hd' => ?_, fun q' d d' hd hd' => ?_, fun q' d d' hd hd' => ?_, fun p => ?_⟩
  · unfold DartSync.prunePath
    rw [hr]
    rfl
  · rw [hwithout.nodes, h.nodes]
    exact and_iff_left (hnone q')
  · obtain ⟨c, hc⟩ := hnode hd'
    rw [hwithout.name q' c d' hc hd', h.name q' d c hd hc]
  · obtain ⟨c, hc⟩ := hnode hd'
    have hleft : d'.files = c.files.filter fun x => ¬ (q' = q ∧ x = e) := by
      rw [hwithout.files q' c d' hc hd']
      by_cases hqq : q' = q
      · simp [hqq]
      · simp [hqq]
    rw [hleft, h.files q' d c hd hc, List.filter_filter]
    refine List.filter_congr fun x hx => ?_
    rw [← Bool.decide_and, decide_eq_decide, isFileAt_append_singleton hfs hnamed ⟨d, hd, hx⟩ he hfile,
      not_or, and_comm]
  · obtain ⟨c, hc⟩ := hnode hd'
    rw [hwithout.folders q' c d' hc hd', if_neg fun hpath => hpath.2 hfile, h.folders q' d c hd hc]
  · unfold filetableRemoveFile
    rw [lookup_erase, h.lookup]
    by_cases hp : p = entryPath q e
    · simp [hp]
    · simp [hp]

/-- The loop over the paths. -/
theorem Pruned.prunePaths (h : Pruned fs ft paths st) (hfs : fs.WellFormed) (hnamed : fs.Named)
    (hkeys : ∀ p, (ft.lookup p).isSome ↔ p ∈ filePaths fs)
    (hrest : ∀ p ∈ rest, (ft.lookup p).isSome) (hnd : (paths ++ rest).Nodup) :
    ∃ st', rest.foldlM DartSync.prunePath st = .ok st' ∧ Pruned fs ft (paths ++ rest) st' := by
  induction rest generalizing paths st with
  | nil => exact ⟨st, rfl, by simpa using h⟩
  | cons p rest ih =>
    have hnew : p ∉ paths := fun hp =>
      (List.nodup_append.mp hnd).2.2 p hp p List.mem_cons_self rfl
    obtain ⟨st', hst, h'⟩ := h.prunePath hfs hnamed hkeys (hrest p List.mem_cons_self) hnew
    rw [← List.singleton_append, ← List.append_assoc] at hnd ⊢
    obtain ⟨st'', hloop, h''⟩ := ih h' (fun p hp => hrest p (List.mem_cons_of_mem _ hp)) hnd
    exact ⟨st'', bind_eq_ok.mpr ⟨st', hst, hloop⟩, h''⟩

/-- **Pruning.** Where the keys of the table are the paths of the files of the master, exactly the
files with an unowned chunk go from both, and the master is sent to every peer if there is one. -/
theorem pruneFilesystem_exact (t : Tracker) (hfs : t.fs.WellFormed) (hnamed : t.fs.Named)
    (hkeys : ∀ p, (t.filetable.lookup p).isSome ↔ p ∈ filePaths t.fs) :
    ∃ paths fs ft sent, pruneFilesystem t.fs t.filetable t.peerTable = .ok (fs, ft, sent) ∧
      (∀ p, p ∈ paths ↔ HasUnownedChunk t.filetable p) ∧
      Pruned t.fs t.filetable paths (fs, ft) ∧
      (∀ p, (ft.lookup p).isSome ↔ p ∈ filePaths fs) ∧
      sent = if paths = [] then [] else
        (t.peerTable.peerIDs.filter fun id => id ≠ -1).map fun id => (id, .master fs) := by
  have hrest : ∀ p ∈ filesToPrune t.filetable, (t.filetable.lookup p).isSome := fun p hp => by
    obtain ⟨fte, hfte, -⟩ := mem_filesToPrune.mp hp
    exact Option.isSome_iff_exists.mpr ⟨fte, hfte⟩
  obtain ⟨st, hst, hpruned⟩ :=
    (Pruned.refl hfs).prunePaths hfs hnamed hkeys hrest (by simpa using nodup_filesToPrune)
  rw [List.nil_append] at hpruned
  refine ⟨filesToPrune t.filetable, st.1, st.2, _, bind_eq_ok.mpr ⟨st, hst, rfl⟩,
    fun p => mem_filesToPrune, hpruned, hpruned.keys hkeys, ?_⟩
  exact if_congr List.isEmpty_iff rfl rfl

namespace PruningExample

/-- A file `y` of one chunk. -/
def tree : Folder := ⟨.empty, [⟨.ofBytes [121], 1, 2, 0⟩], []⟩

/-- The only owner of the chunk has left. -/
def tracker : Tracker where
  fs := tree
  filetable := filetableRemovePeer (filetableAddFilesystem filetableNew tree 1 false fun _ => 0).1 1
  peerTable := addPeerToTable createPeerTable 2

end PruningExample

open PruningExample

theorem pruneFilesystem_exact_of_lost_owner : ∃ paths fs ft sent,
    pruneFilesystem tracker.fs tracker.filetable tracker.peerTable = .ok (fs, ft, sent) ∧
      (∀ p, p ∈ paths ↔ HasUnownedChunk tracker.filetable p) ∧
      Pruned tracker.fs tracker.filetable paths (fs, ft) ∧
      (∀ p, (ft.lookup p).isSome ↔ p ∈ filePaths fs) ∧
      sent = if paths = [] then [] else
        (tracker.peerTable.peerIDs.filter fun id => id ≠ -1).map fun id => (id, .master fs) := by
  have htree : tree.WellFormed := by decide
  have hkeys (p : CString) : (tracker.filetable.lookup p).isSome ↔ p ∈ filePaths tree := by
    unfold tracker
    dsimp only
    rw [lookup_filetableRemovePeer, Option.isSome_map, lookup_filetableAddFilesystem_isSome htree.distinct,
      ← isFilePath_iff_mem_filePaths (Folder.isPlain_of_test (by decide))]
    simp
  exact pruneFilesystem_exact tracker htree (by decide) hkeys

end DartSync
