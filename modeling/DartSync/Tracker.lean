import DartSync.FileSystem.Patch
import DartSync.FileSystem.RemovePath
import DartSync.FileTable.Lookup

/-!
# The tracker

`tracker.c`: the master file system, the master file table and the peer table, and what the main
loop does with each kind of message. A step of the model is the handling of one message; the loop
may take them in any order.
-/

namespace DartSync

/-! ## Peer table -/

/-- `peer_table`, with `peerTableSize` slots; a free slot holds -1. -/
structure PeerTable where
  numberOfEntries : ℤ
  peerIDs : List ℤ

/-- `createPeerTable` -/
def createPeerTable : PeerTable := ⟨0, List.replicate 16 (-1)⟩

/-- `containsPeer`. Only the first `numberOfEntries` slots are searched. -/
def containsPeer (peerTable : PeerTable) (peerID : ℤ) : Bool :=
  decide (1 ≤ peerID) && (peerTable.peerIDs.take peerTable.numberOfEntries.toNat).contains peerID

/-- The loop of `addPeerToTable`, which stops at the peer or at a free slot. -/
def addPeerToSlot (peerID : ℤ) : List ℤ → Option (List ℤ)
  | [] => none
  | slot :: slots =>
    if slot = peerID then some (slot :: slots)
    else if slot = -1 then some (peerID :: slots)
    else (addPeerToSlot peerID slots).map (slot :: ·)

/-- `addPeerToTable`. When all slots are full their number is doubled. -/
def addPeerToTable (peerTable : PeerTable) (peerID : ℤ) : PeerTable where
  numberOfEntries := peerTable.numberOfEntries + 1
  peerIDs := match addPeerToSlot peerID peerTable.peerIDs with
    | some slots => slots
    | none => peerTable.peerIDs ++ peerID :: List.replicate (peerTable.peerIDs.length - 1) (-1)

/-- `removePeerFromTable`. For a peer that is not in the table it reads one slot too many. -/
def removePeerFromTable (peerTable : PeerTable) (peerID : ℤ) : Except Abort PeerTable :=
  match peerTable.peerIDs.findIdx? (fun slot => slot = peerID) with
  | some i => .ok ⟨peerTable.numberOfEntries - 1, peerTable.peerIDs.set i (-1)⟩
  | none => .error .outOfBounds

/-! ## Broadcasts -/

/-- What the tracker sends to a client. -/
inductive TrackerMessage
  | peerAdded (peerID : ℤ)
  | peerRemoved (peerID : ℤ)
  | fsUpdate (originator : ℤ) (additions deletions : Folder)
  | gotChunk (owner : ℤ) (file : CString) (chunk : ℤ)
  | master (fs : Folder)
  | masterFiletable (filetable : FileTable)

/-- The loop of the broadcasts: to every peer in the table but one. -/
def broadcast (peerTable : PeerTable) (butTo : ℤ) (message : TrackerMessage) :
    List (ℤ × TrackerMessage) :=
  (peerTable.peerIDs.filter fun id => id ≠ -1 ∧ id ≠ butTo ∧ id ≠ 0).map fun id => (id, message)

/-- `newPeerBroadcast` -/
def newPeerBroadcast (peerTable : PeerTable) (newPeerID : ℤ) : List (ℤ × TrackerMessage) :=
  broadcast peerTable newPeerID (.peerAdded newPeerID)

/-- `lostPeerBroadcast` -/
def lostPeerBroadcast (peerTable : PeerTable) (lostPeerID : ℤ) : List (ℤ × TrackerMessage) :=
  broadcast peerTable lostPeerID (.peerRemoved lostPeerID)

/-- `filesystemUpdateBroadcast` -/
def filesystemUpdateBroadcast (peerTable : PeerTable) (additions deletions : Folder)
    (originator : ℤ) : List (ℤ × TrackerMessage) :=
  broadcast peerTable originator (.fsUpdate originator additions deletions)

/-- `clientGotBroadcast` -/
def clientGotBroadcast (peerTable : PeerTable) (fileGot : CString) (chunkGot peerGotId : ℤ) :
    List (ℤ × TrackerMessage) :=
  broadcast peerTable peerGotId (.gotChunk peerGotId fileGot chunkGot)

/-! ## The state and its steps -/

/-- The globals `fs`, `filetable` and `peerTable`. -/
structure Tracker where
  fs : Folder
  filetable : FileTable
  peerTable : PeerTable

/-- The globals when the main loop starts. -/
def Tracker.initial : Tracker where
  fs := emptyFilesystem
  filetable := (filetableAddFilesystem filetableNew emptyFilesystem 0 false fun _ => 0).1
  peerTable := createPeerTable

/-- `updateNetwork` -/
def updateNetwork (t : Tracker) (updatePusher : ℤ) (additions deletions : Folder) :
    Except Abort (Tracker × List (ℤ × TrackerMessage)) := do
  let fs ← filesystemPlusEquals (filesystemMinusEquals t.fs deletions) additions
  let filetable := filetableRemoveFilesystem t.filetable deletions
  let filetable := (filetableAddFilesystem filetable additions updatePusher false fun _ => 0).1
  return ({ t with fs := fs, filetable := filetable },
    filesystemUpdateBroadcast t.peerTable additions deletions updatePusher)

/-- The paths that `prune_filesystem` collects: those of the files with an unowned chunk. -/
def filesToPrune (filetable : FileTable) : List CString :=
  (filetable.entries.filter fun fte => fte.chunks.any List.isEmpty).map FileTableEntry.path

/-- One turn of the second loop of `prune_filesystem`. -/
def prunePath (st : Folder × FileTable) (prunePath : CString) : Except Abort (Folder × FileTable) := do
  let fs ← filesystemRemoveFileAtPath st.1 prunePath
  return (fs, filetableRemoveFile st.2 prunePath)

/-- `prune_filesystem` -/
def pruneFilesystem (fs : Folder) (filetable : FileTable) (peerTable : PeerTable) :
    Except Abort (Folder × FileTable × List (ℤ × TrackerMessage)) := do
  let paths := filesToPrune filetable
  let st ← paths.foldlM prunePath (fs, filetable)
  let sent := if paths.isEmpty then []
    else (peerTable.peerIDs.filter fun id => id ≠ -1).map fun id => (id, .master st.1)
  return (st.1, st.2, sent)

/-- A message in one of the queues that the main loop polls. -/
inductive TrackerEvent
  | newClient (peerID : ℤ)
  | masterRequest (peerID : ℤ)
  | lostClient (peerID : ℤ)
  | clientGot (fileGot : CString) (chunkGot peerGotId : ℤ)
  | clientUpdate (clientID : ℤ) (additions deletions : Folder)

/-- The handling of one message, with what is sent. -/
def Tracker.step (t : Tracker) : TrackerEvent → Except Abort (Tracker × List (ℤ × TrackerMessage))
  | .newClient peerID =>
    let peerTable := addPeerToTable t.peerTable peerID
    .ok ({ t with peerTable := peerTable }, newPeerBroadcast peerTable peerID)
  | .masterRequest peerID =>
    .ok (t, [(peerID, .master t.fs), (peerID, .masterFiletable t.filetable)])
  | .lostClient peerID => do
    let peerTable ← removePeerFromTable t.peerTable peerID
    let filetable := filetableRemovePeer t.filetable peerID
    let (fs, filetable, sent) ← pruneFilesystem t.fs filetable peerTable
    return (⟨fs, filetable, peerTable⟩, lostPeerBroadcast peerTable peerID ++ sent)
  | .clientGot fileGot chunkGot peerGotId =>
    if containsPeer t.peerTable peerGotId then do
      let filetable ← filetableSetThatPeerHasFileChunk t.filetable fileGot peerGotId chunkGot
      return ({ t with filetable := filetable },
        clientGotBroadcast t.peerTable fileGot chunkGot peerGotId)
    else .ok (t, [])
  | .clientUpdate clientID additions deletions => updateNetwork t clientID additions deletions

/-! ## What a step does -/

theorem updateNetwork_eq_ok {tr tr' : Tracker} {sent : List (ℤ × TrackerMessage)} {id : ℤ}
    {additions deletions : Folder} :
    updateNetwork tr id additions deletions = .ok (tr', sent) ↔
      ∃ fs, patch tr.fs additions deletions = .ok fs ∧
        tr' = { tr with
          fs := fs
          filetable := (filetableAddFilesystem (filetableRemoveFilesystem tr.filetable deletions)
            additions id false fun _ => 0).1 } ∧
        sent = filesystemUpdateBroadcast tr.peerTable additions deletions id := by
  unfold updateNetwork
  rw [bind_eq_ok]
  refine exists_congr fun fs => and_congr_right fun _ => ?_
  show Except.ok _ = Except.ok (tr', sent) ↔ _
  rw [Except.ok.injEq, Prod.mk.injEq]
  exact and_congr eq_comm eq_comm

/-- Pruning only takes entries out. -/
theorem lookup_of_pruneFilesystem {fs fs' : Folder} {ft ft' : FileTable} {peerTable : PeerTable}
    {sent : List (ℤ × TrackerMessage)} {p : CString} {e : FileTableEntry}
    (h : pruneFilesystem fs ft peerTable = .ok (fs', ft', sent)) (he : ft'.lookup p = some e) :
    ft.lookup p = some e := by
  have hloop : ∀ (paths : List CString) (st st' : Folder × FileTable),
      paths.foldlM prunePath st = .ok st' → st'.2.lookup p = some e → st.2.lookup p = some e := by
    intro paths
    induction paths with
    | nil =>
      intro st st' hok he
      cases hok
      exact he
    | cons path paths ih =>
      intro st st' hok he
      rw [List.foldlM_cons] at hok
      obtain ⟨st1, h1, hok⟩ := bind_eq_ok.mp hok
      obtain ⟨fs1, -, h1⟩ := bind_eq_ok.mp h1
      cases h1
      have he := ih _ _ hok he
      rw [filetableRemoveFile, FileTable.lookup_erase] at he
      split_ifs at he
      exact he
  obtain ⟨st, hst, h⟩ := bind_eq_ok.mp h
  cases h
  exact hloop _ _ _ hst he

/-- What the handling of a message does to the tracker, and what is sent. -/
inductive TrackerStep (t : Tracker) :
    TrackerEvent → Tracker → List (ℤ × TrackerMessage) → Prop
  | joined {peerID : ℤ} : TrackerStep t (.newClient peerID)
      { t with peerTable := addPeerToTable t.peerTable peerID }
      (newPeerBroadcast (addPeerToTable t.peerTable peerID) peerID)
  | requested {peerID : ℤ} : TrackerStep t (.masterRequest peerID) t
      [(peerID, .master t.fs), (peerID, .masterFiletable t.filetable)]
  | left {peerID : ℤ} {peerTable : PeerTable} {fs : Folder} {ft : FileTable}
      {sent : List (ℤ × TrackerMessage)} : removePeerFromTable t.peerTable peerID = .ok peerTable →
      pruneFilesystem t.fs (filetableRemovePeer t.filetable peerID) peerTable = .ok (fs, ft, sent) →
      TrackerStep t (.lostClient peerID) ⟨fs, ft, peerTable⟩
        (lostPeerBroadcast peerTable peerID ++ sent)
  | dropped {file : CString} {chunk peerID : ℤ} : containsPeer t.peerTable peerID = false →
      TrackerStep t (.clientGot file chunk peerID) t []
  | got {file : CString} {chunk peerID : ℤ} {ft : FileTable} :
      containsPeer t.peerTable peerID = true →
      filetableSetThatPeerHasFileChunk t.filetable file peerID chunk = .ok ft →
      TrackerStep t (.clientGot file chunk peerID) { t with filetable := ft }
        (clientGotBroadcast t.peerTable file chunk peerID)
  | updated {clientID : ℤ} {additions deletions fs : Folder} :
      patch t.fs additions deletions = .ok fs →
      TrackerStep t (.clientUpdate clientID additions deletions)
        { t with
          fs := fs
          filetable := (filetableAddFilesystem (filetableRemoveFilesystem t.filetable deletions)
            additions clientID false fun _ => 0).1 }
        (filesystemUpdateBroadcast t.peerTable additions deletions clientID)

theorem trackerStep {t t' : Tracker} {ev : TrackerEvent} {sent : List (ℤ × TrackerMessage)}
    (h : t.step ev = .ok (t', sent)) : TrackerStep t ev t' sent := by
  cases ev with
  | newClient peerID =>
    cases h
    exact .joined
  | masterRequest peerID =>
    cases h
    exact .requested
  | lostClient peerID =>
    obtain ⟨peerTable, hpt, h⟩ := bind_eq_ok.mp h
    obtain ⟨⟨fs, ft, pruned⟩, hprune, h⟩ := bind_eq_ok.mp h
    cases h
    exact .left hpt hprune
  | clientGot file chunk peerID =>
    have h : (if containsPeer t.peerTable peerID then _ else _) = Except.ok (t', sent) := h
    split_ifs at h with hpeer
    · obtain ⟨ft, hft, h⟩ := bind_eq_ok.mp h
      cases h
      exact .got hpeer hft
    · cases h
      exact .dropped (by simpa using hpeer)
  | clientUpdate clientID additions deletions =>
    obtain ⟨fs, hfs, rfl, rfl⟩ := updateNetwork_eq_ok.mp h
    exact .updated hfs

/-! ## Runs against earlier masters -/

/-- A tracker and the master trees it has had, the current one first. -/
structure TrackerRun where
  tracker : Tracker
  masters : List Folder

/-- What reaches the tracker in a run. An update is made by a client that has adopted the master
`age` changes ago and edited it. -/
inductive RunEvent
  | update (clientID : ℤ) (age : ℕ) (edited : Folder)
  | got (fileGot : CString) (chunkGot peerGotId : ℤ)
  | joins (peerID : ℤ)
  | requests (peerID : ℤ)
  | leaves (peerID : ℤ)

/-- The master that the client of an update had adopted. -/
def TrackerRun.base (s : TrackerRun) (age : ℕ) : Folder := s.masters.getD age s.tracker.fs

/-- The message that the tracker receives. -/
def TrackerRun.message (s : TrackerRun) : RunEvent → TrackerEvent
  | .update clientID age edited => .clientUpdate clientID (filesystemDiff (s.base age) edited).1
      (filesystemDiff (s.base age) edited).2
  | .got fileGot chunkGot peerGotId => .clientGot fileGot chunkGot peerGotId
  | .joins peerID => .newClient peerID
  | .requests peerID => .masterRequest peerID
  | .leaves peerID => .lostClient peerID

def TrackerRun.step (s : TrackerRun) (e : RunEvent) : Except Abort TrackerRun := do
  let (tracker, _) ← s.tracker.step (s.message e)
  return ⟨tracker, tracker.fs :: s.masters⟩

def TrackerRun.initial : TrackerRun := ⟨.initial, [emptyFilesystem]⟩

variable {s t : TrackerRun} {e : RunEvent}

theorem TrackerRun.step_eq_ok : s.step e = .ok t ↔
    ∃ tracker sent, s.tracker.step (s.message e) = .ok (tracker, sent) ∧
      t = ⟨tracker, tracker.fs :: s.masters⟩ := by
  unfold TrackerRun.step
  rw [bind_eq_ok]
  constructor
  · rintro ⟨⟨tracker, sent⟩, h, ht⟩
    exact ⟨tracker, sent, h, (Except.ok.inj ht).symm⟩
  · rintro ⟨tracker, sent, h, rfl⟩
    exact ⟨(tracker, sent), h, rfl⟩

/-- The current master is among the masters. -/
theorem TrackerRun.base_mem (h : s.tracker.fs ∈ s.masters) (age : ℕ) : s.base age ∈ s.masters := by
  unfold TrackerRun.base
  rw [List.getD_eq_getElem?_getD]
  cases hb : s.masters[age]? with
  | none => exact h
  | some b => exact List.mem_of_getElem? hb

end DartSync
