import DartSync.Client.Chunks
import DartSync.Client.Files
import DartSync.Library.Runs
import DartSync.Tracker

/-!
# Owners and versions

The tracker, any number of clients and the messages between them, with a record of the versions of
each file: every local change that a client announces makes a new version of the files that it adds,
and a table describes, for each of its files, the version that was added last. An acquisition carries
a path and a chunk number but no version, and travels apart from the updates, so it can be handled
when the table describes another version than the one whose chunk was obtained. If no acquisition is
handled at such a time, then every owner in every table has obtained the chunk in the version that
the table describes (`ownersSound_of_inTime`).
-/

namespace DartSync

open FileTable Runs

/-! ## Versions -/

/-- A version of each file, where one is known. -/
abbrev Versions := CString → Option ℕ

/-- The versions after the files of a tree have got newer ones. -/
def Versions.override (versions : Versions) (fs : Folder) (newer : Versions) : Versions := fun file =>
  if ListsFile (filesystemIteratorRelative true fs) file then newer file else versions file

/-- How a client comes by chunks. -/
inductive Fact
  /-- The client has made that version of the files of the tree. -/
  | authored (peer : ℤ) (fs : Folder) (version : ℕ)
  /-- The client has accepted a chunk with the bytes of that version. -/
  | obtained (peer : ℤ) (file : CString) (chunk : ℤ) (version : ℕ)

/-- The version of the chunk that the client has by this. -/
def Fact.version (peer : ℤ) (file : CString) (chunk : ℤ) : Fact → Option ℕ
  | .authored author fs version =>
    if author = peer ∧ ListsFile (filesystemIteratorRelative true fs) file then some version else none
  | .obtained owner path k version =>
    if owner = peer ∧ path = file ∧ k = chunk then some version else none

/-- The client has obtained or authored the chunk in that version. -/
def HasObtained (history : List Fact) (peer : ℤ) (file : CString) (chunk : ℤ) (version : ℕ) : Prop :=
  ∃ fact ∈ history, fact.version peer file chunk = some version

instance (history : List Fact) (peer : ℤ) (file : CString) (chunk : ℤ) (version : ℕ) :
    Decidable (HasObtained history peer file chunk version) :=
  inferInstanceAs (Decidable (∃ _ ∈ _, _))

/-- The version of the chunk that the client came by last. -/
def lastVersion (history : List Fact) (peer : ℤ) (file : CString) (chunk : ℤ) : Option ℕ :=
  history.findSome? (Fact.version peer file chunk)

/-! ## The system -/

/-- The tracker, the clients by their ids, and the messages on their way with the versions that they
are about. The history has the newest fact first. -/
structure System where
  tracker : Tracker
  trackerVersions : Versions
  clients : ℤ → Client
  clientVersions : ℤ → Versions
  history : List Fact
  toTracker : List (TrackerEvent × Versions)
  toClients : List (ℤ × TrackerMessage × Versions)

inductive SystemEvent
  | joins (peer : ℤ)
  | requests (peer : ℤ)
  | leaves (peer : ℤ)
  /-- The tracker handles one of the messages on their way to it. -/
  | tracks (i : ℕ)
  /-- A client handles one of the messages on their way to the clients. -/
  | delivers (i : ℕ)
  /-- A client handles another event; `bytes` is the version of the bytes of a chunk, if they are
  those of a version at all. -/
  | client (peer : ℤ) (ev : ClientEvent) (bytes : Option ℕ)

/-- The files of an update. -/
def TrackerEvent.added : TrackerEvent → Folder
  | .clientUpdate _ additions _ => additions
  | _ => emptyFilesystem

/-- What a client comes by when it sends these messages. -/
def newFacts (peer : ℤ) (version : ℕ) (bytes : Option ℕ) (sent : List ClientMessage) : List Fact :=
  sent.flatMap fun
    | .chunkGot file chunk => (bytes.map (.obtained peer file chunk)).toList
    | .updatedFiles additions _ => [.authored peer additions version]
    | _ => []

/-- A message to the tracker. An acquisition is about the version that the client has. -/
def stamp (peer : ℤ) (version : ℕ) (history : List Fact) : ClientMessage → Option (TrackerEvent × Versions)
  | .chunkGot file chunk => some (.clientGot file chunk peer, fun path => lastVersion history peer path chunk)
  | .updatedFiles additions deletions =>
    some (.clientUpdate peer additions deletions, fun _ => some version)
  | _ => none

namespace System

/-- The tracker handles a message that is about these versions. -/
def trackerStep (s : System) (ev : TrackerEvent) (newer : Versions) : Except Abort System := do
  let (tracker, sent) ← s.tracker.step ev
  return { s with
    tracker := tracker
    trackerVersions := s.trackerVersions.override ev.added newer
    toClients := s.toClients ++ sent.map fun x => (x.1, x.2, newer) }

/-- A client handles an event that is about these versions. -/
def clientStep (s : System) (peer : ℤ) (ev : ClientEvent) (newer : Versions) (bytes : Option ℕ) :
    Except Abort System := do
  let (client, sent) ← (s.clients peer).step ev
  let history := newFacts peer s.history.length bytes sent ++ s.history
  return { s with
    clients := Function.update s.clients peer client
    clientVersions := Function.update s.clientVersions peer
      ((s.clientVersions peer).override ((s.clients peer).added ev) newer)
    history := history
    toTracker := s.toTracker ++ sent.filterMap (stamp peer s.history.length history) }

/-- A client handles a message of the tracker. -/
def receive (s : System) (peer : ℤ) (newer : Versions) : TrackerMessage → Except Abort System
  | .peerAdded id => s.clientStep peer (.peerAdded id) newer none
  | .peerRemoved id => s.clientStep peer (.peerDeleted id) newer none
  | .fsUpdate originator additions deletions =>
    s.clientStep peer (.diff additions deletions originator) newer none
  | .gotChunk owner file chunk => s.clientStep peer (.chunkGot owner file chunk) newer none
  | .master fs => s.clientStep peer (.master fs) newer none
  | .masterFiletable ft => .ok { s with
      clients := Function.update s.clients peer { s.clients peer with ft := ft }
      clientVersions := Function.update s.clientVersions peer newer }

def step (s : System) : SystemEvent → Except Abort System
  | .joins peer => s.trackerStep (.newClient peer) s.trackerVersions
  | .requests peer => s.trackerStep (.masterRequest peer) s.trackerVersions
  | .leaves peer => s.trackerStep (.lostClient peer) s.trackerVersions
  | .tracks i =>
    match s.toTracker[i]? with
    | some (ev, newer) => { s with toTracker := s.toTracker.eraseIdx i }.trackerStep ev newer
    | none => .ok s
  | .delivers i =>
    match s.toClients[i]? with
    | some (peer, message, newer) =>
      { s with toClients := s.toClients.eraseIdx i }.receive peer newer message
    | none => .ok s
  | .client peer ev bytes => s.clientStep peer ev (fun _ => some s.history.length) bytes

/-- The tracker has started and no client has announced anything. -/
def initial (dirs : ℤ → Directory) (now : UInt64) (rand : Rand) : System where
  tracker := .initial
  trackerVersions _ := none
  clients peer := .initial (dirs peer) filetableNew now rand
  clientVersions _ _ := none
  history := []
  toTracker := []
  toClients := []

/-- The events of a client that are no messages of the tracker. -/
def IsOwn : ClientEvent → Prop
  | .diff _ _ _ | .master _ | .chunkGot _ _ _ => False
  | _ => True

/-- Ids are positive, and what the tracker sends comes from the tracker. -/
def Legal (s : System) : SystemEvent → Prop
  | .client peer ev _ => 1 ≤ peer ∧ IsOwn ev
  | .delivers i => ∀ peer message newer, s.toClients[i]? = some (peer, message, newer) → 1 ≤ peer
  | _ => True

/-- An acquisition is handled while the table describes the version that the owner has. -/
def InTime (s : System) : SystemEvent → Prop
  | .tracks i => ∀ file chunk owner newer,
      s.toTracker[i]? = some (.clientGot file chunk owner, newer) →
      containsPeer s.tracker.peerTable owner = true →
      ∃ version ∈ newer file, s.trackerVersions file = some version
  | .delivers i => ∀ peer owner file chunk newer,
      s.toClients[i]? = some (peer, .gotChunk owner file chunk, newer) →
      ∃ version ∈ newer file, s.clientVersions peer file = some version
  | _ => True

/-- In the table of a client its own id is `myID`. -/
def whoIs (peer owner : ℤ) : ℤ := if owner = myID then peer else owner

/-- Every owner in every table has the chunk in the version that the table describes. -/
structure OwnersSound (s : System) : Prop where
  tracker : ∀ file chunk owner, s.tracker.filetable.IsOwner file chunk owner →
    ∃ version ∈ s.trackerVersions file, HasObtained s.history owner file chunk version
  client : ∀ peer file chunk owner, (s.clients peer).ft.IsOwner file chunk owner →
    ∃ version ∈ s.clientVersions peer file,
      HasObtained s.history (whoIs peer owner) file chunk version

end System

variable {t t' : Tracker} {tev : TrackerEvent} {sent : List (ℤ × TrackerMessage)} {fs fs' : Folder}
  {ft ft' : FileTable} {pt : PeerTable} {c c' : Client} {ev : ClientEvent}
  {messages : List ClientMessage} {history history' : List Fact} {versions newer : Versions}
  {file : CString} {chunk owner peer : ℤ} {version : ℕ}

/-! ## What the tracker does -/

theorem isOwner_pruneFilesystem (h : pruneFilesystem fs ft pt = .ok (fs', ft', sent))
    (howner : ft'.IsOwner file chunk owner) : ft.IsOwner file chunk owner := by
  obtain ⟨chunks, owners, hchunks, hrest⟩ := howner
  obtain ⟨e, he, rfl⟩ := Option.map_eq_some_iff.mp hchunks
  refine ⟨e.chunks, owners, ?_, hrest⟩
  unfold FileTable.ownersAt
  rw [lookup_of_pruneFilesystem h he, Option.map_some]

/-- Who has the chunks of the files of an update. -/
def TrackerEvent.source : TrackerEvent → ℤ
  | .clientUpdate clientID _ _ => clientID
  | _ => 0

/-- An owner in the table of the tracker is the author of the update, the owner in an acquisition, or
an owner before. -/
theorem Tracker.isOwner_step (hok : t.step tev = .ok (t', sent))
    (h : t'.filetable.IsOwner file chunk owner) :
    ListsFile (filesystemIteratorRelative true tev.added) file ∧ owner = tev.source ∨
      ¬ ListsFile (filesystemIteratorRelative true tev.added) file ∧
        (t.filetable.IsOwner file chunk owner ∨
          tev = .clientGot file chunk owner ∧ containsPeer t.peerTable owner = true) := by
  have hnone := not_listsFile_emptyFilesystem (p := file)
  cases trackerStep hok with
  | joined => exact Or.inr ⟨hnone, Or.inl h⟩
  | requested => exact Or.inr ⟨hnone, Or.inl h⟩
  | left hpt hprune =>
    exact Or.inr ⟨hnone, Or.inl (isOwner_filetableRemovePeer (isOwner_pruneFilesystem hprune h))⟩
  | got hpeer hft =>
    refine Or.inr ⟨hnone, (isOwner_filetableSetThatPeerHasFileChunk hft h).imp_right ?_⟩
    rintro ⟨rfl, rfl, rfl⟩
    exact ⟨rfl, hpeer⟩
  | dropped => exact Or.inr ⟨hnone, Or.inl h⟩
  | updated => exact (isOwner_update h).imp_right fun h => ⟨h.1, Or.inl h.2⟩

/-- What the handling of the event may send. -/
def TrackerMessage.IsSentBy (t : Tracker) (tev : TrackerEvent) : TrackerMessage → Prop
  | .fsUpdate originator additions deletions => tev = .clientUpdate originator additions deletions
  | .gotChunk owner file chunk => tev = .clientGot file chunk owner
  | .masterFiletable ft => ft = t.filetable ∧ ∃ peerID, tev = .masterRequest peerID
  | _ => True

theorem isSentBy_of_mem_broadcast {butTo : ℤ} {m : TrackerMessage} {x : ℤ × TrackerMessage}
    (h : x ∈ broadcast pt butTo m) (hm : m.IsSentBy t tev) : x.2.IsSentBy t tev := by
  obtain ⟨id, -, rfl⟩ := List.mem_map.mp h
  exact hm

theorem Tracker.isSentBy_step (hok : t.step tev = .ok (t', sent)) {x : ℤ × TrackerMessage}
    (hx : x ∈ sent) : x.2.IsSentBy t tev := by
  cases trackerStep hok with
  | joined => exact isSentBy_of_mem_broadcast hx trivial
  | @requested peerID =>
    rcases List.mem_cons.mp hx with rfl | hx
    · exact trivial
    · rw [List.mem_singleton.mp hx]
      exact ⟨rfl, peerID, rfl⟩
  | left hpt hprune =>
    rcases List.mem_append.mp hx with hx | hx
    · exact isSentBy_of_mem_broadcast hx trivial
    · obtain ⟨st, -, hprune⟩ := bind_eq_ok.mp hprune
      cases hprune
      split_ifs at hx
      · cases hx
      · obtain ⟨id, -, rfl⟩ := List.mem_map.mp hx
        trivial
  | got => exact isSentBy_of_mem_broadcast hx rfl
  | dropped => cases hx
  | updated => exact isSentBy_of_mem_broadcast hx rfl

/-! ## What a client does -/

/-- An update that is sent is the one that has been made. -/
theorem updatedFiles_mem (hok : c.step ev = .ok (c', messages)) {additions deletions : Folder}
    (h : .updatedFiles additions deletions ∈ messages) : additions = c.added ev := by
  cases filesStep hok with
  | unchanged _ _ _ _ _ _ hno => exact absurd h (hno _ _)
  | resnapshot _ _ hno => exact absurd h (hno _ _)
  | adopted _ _ hno => exact absurd h (hno _ _)
  | reported hsettled =>
    cases List.mem_singleton.mp h
    exact (if_pos hsettled).symm
  | edited => cases h

/-- What a client adds to its table of its own, it announces. -/
theorem exists_updatedFiles (hown : System.IsOwn ev) (hok : c.step ev = .ok (c', messages))
    (hlists : ListsFile (filesystemIteratorRelative true (c.added ev)) file) :
    ev.author = myID ∧ ∃ deletions, .updatedFiles (c.added ev) deletions ∈ messages := by
  cases ev with
  | checkLocal now =>
    refine ⟨rfl, ?_⟩
    by_cases hsettled : c.Settled now
    · have hadded : c.added (.checkLocal now) = c.localDiff.1 := if_pos hsettled
      rw [hadded] at hlists ⊢
      obtain ⟨item, hitem, -⟩ := hlists
      have hcheck : checkFileSystem c.localDiff.1 = true := (checkFileSystem_iff true).mpr ⟨item, hitem⟩
      have hok : checkLocalFilesystem c now = (c', messages) := Except.ok.inj hok
      rw [checkLocalFilesystem_of_settled hsettled, hcheck, Bool.true_or, if_pos rfl] at hok
      cases hok
      exact ⟨_, List.mem_singleton_self _⟩
    · have hadded : c.added (.checkLocal now) = emptyFilesystem := if_neg hsettled
      rw [hadded] at hlists
      exact absurd hlists not_listsFile_emptyFilesystem
  | diff | master | chunkGot => exact hown.elim
  | _ => exact absurd hlists not_listsFile_emptyFilesystem

/-! ## Histories -/

theorem HasObtained.append (h : HasObtained history peer file chunk version) (facts : List Fact) :
    HasObtained (facts ++ history) peer file chunk version := by
  obtain ⟨fact, hfact, hversion⟩ := h
  exact ⟨fact, List.mem_append_right facts hfact, hversion⟩

theorem hasObtained_of_lastVersion (h : lastVersion history peer file chunk = some version) :
    HasObtained history peer file chunk version :=
  List.exists_of_findSome?_eq_some h

/-- The author of a version has its chunks. -/
theorem hasObtained_of_authored (h : .authored peer fs version ∈ history)
    (hlists : ListsFile (filesystemIteratorRelative true fs) file) :
    HasObtained history peer file chunk version :=
  ⟨_, h, if_pos ⟨rfl, hlists⟩⟩

theorem authored_mem_newFacts {bytes : Option ℕ} {additions deletions : Folder}
    (h : .updatedFiles additions deletions ∈ messages) :
    .authored peer additions version ∈ newFacts peer version bytes messages :=
  List.mem_flatMap.mpr ⟨_, h, List.mem_singleton_self _⟩

namespace System

/-! ## The invariant -/

/-- The author of an update has the chunks of the versions that it makes. -/
def UpdateSound (history : List Fact) (author : ℤ) (additions : Folder) (newer : Versions) : Prop :=
  author ≠ myID ∧ ∀ file, ListsFile (filesystemIteratorRelative true additions) file →
    ∀ chunk, ∃ version ∈ newer file, HasObtained history author file chunk version

/-- The owner in an acquisition has the chunk in the version that the acquisition is about. -/
def GotSound (history : List Fact) (owner : ℤ) (file : CString) (chunk : ℤ) (newer : Versions) : Prop :=
  owner ≠ myID ∧ ∀ version ∈ newer file, HasObtained history owner file chunk version

/-- The owners in a table of the tracker have the chunks in these versions. -/
def TableSound (history : List Fact) (ft : FileTable) (versions : Versions) : Prop :=
  ∀ file chunk owner, ft.IsOwner file chunk owner →
    owner ≠ myID ∧ ∃ version ∈ versions file, HasObtained history owner file chunk version

/-- The owners in the table of a client have the chunks in these versions. -/
def ClientSound (history : List Fact) (peer : ℤ) (ft : FileTable) (versions : Versions) : Prop :=
  ∀ file chunk owner, ft.IsOwner file chunk owner →
    ∃ version ∈ versions file, HasObtained history (whoIs peer owner) file chunk version

def EventSound (history : List Fact) (newer : Versions) : TrackerEvent → Prop
  | .clientUpdate clientID additions _ => UpdateSound history clientID additions newer
  | .clientGot fileGot chunkGot peerGotId => GotSound history peerGotId fileGot chunkGot newer
  | _ => True

def MessageSound (history : List Fact) (newer : Versions) : TrackerMessage → Prop
  | .fsUpdate originator additions _ => UpdateSound history originator additions newer
  | .gotChunk owner file chunk => GotSound history owner file chunk newer
  | .masterFiletable ft => TableSound history ft newer
  | _ => True

/-- The tables and the messages on their way are sound. -/
structure Inv (s : System) : Prop where
  tracker : TableSound s.history s.tracker.filetable s.trackerVersions
  clients : ∀ peer, ClientSound s.history peer (s.clients peer).ft (s.clientVersions peer)
  toTracker : ∀ x ∈ s.toTracker, EventSound s.history x.2 x.1
  announced : ∀ x ∈ s.toTracker, ∀ peerID, x.1 ≠ .masterRequest peerID
  toClients : ∀ x ∈ s.toClients, MessageSound s.history x.2.2 x.2.1

theorem Inv.ownersSound {s : System} (hs : s.Inv) : s.OwnersSound where
  tracker file chunk owner h := (hs.tracker file chunk owner h).2
  client peer := hs.clients peer

theorem UpdateSound.append {author : ℤ} {additions : Folder}
    (h : UpdateSound history author additions newer) (facts : List Fact) :
    UpdateSound (facts ++ history) author additions newer := by
  refine ⟨h.1, fun file hlists chunk => ?_⟩
  obtain ⟨version, hversion, hhas⟩ := h.2 file hlists chunk
  exact ⟨version, hversion, hhas.append facts⟩

theorem GotSound.append (h : GotSound history owner file chunk newer) (facts : List Fact) :
    GotSound (facts ++ history) owner file chunk newer :=
  ⟨h.1, fun version hversion => (h.2 version hversion).append facts⟩

theorem TableSound.append (h : TableSound history ft versions) (facts : List Fact) :
    TableSound (facts ++ history) ft versions := by
  intro file chunk owner howner
  obtain ⟨hne, version, hversion, hhas⟩ := h file chunk owner howner
  exact ⟨hne, version, hversion, hhas.append facts⟩

theorem ClientSound.append (h : ClientSound history peer ft versions) (facts : List Fact) :
    ClientSound (facts ++ history) peer ft versions := by
  intro file chunk owner howner
  obtain ⟨version, hversion, hhas⟩ := h file chunk owner howner
  exact ⟨version, hversion, hhas.append facts⟩

theorem EventSound.append (h : EventSound history newer tev) (facts : List Fact) :
    EventSound (facts ++ history) newer tev := by
  cases tev with
  | clientUpdate => exact UpdateSound.append h facts
  | clientGot => exact GotSound.append h facts
  | _ => trivial

theorem MessageSound.append {m : TrackerMessage} (h : MessageSound history newer m)
    (facts : List Fact) : MessageSound (facts ++ history) newer m := by
  cases m with
  | fsUpdate => exact UpdateSound.append h facts
  | gotChunk => exact GotSound.append h facts
  | masterFiletable => exact TableSound.append h facts
  | _ => trivial

theorem whoIs_of_ne (h : owner ≠ myID) : whoIs peer owner = owner := if_neg h

/-- A client takes over the table of the tracker. -/
theorem TableSound.client (h : TableSound history ft versions) :
    ClientSound history peer ft versions := by
  intro file chunk owner howner
  obtain ⟨hne, hhas⟩ := h file chunk owner howner
  rwa [whoIs_of_ne hne]

theorem not_isOwner_filetableNew : ¬ filetableNew.IsOwner file chunk owner := by
  rintro ⟨chunks, owners, hchunks, -⟩
  unfold FileTable.ownersAt at hchunks
  rw [lookup_filetableNew] at hchunks
  cases hchunks

theorem inv_initial (dirs : ℤ → Directory) (now : UInt64) (rand : Rand) :
    (initial dirs now rand).Inv where
  tracker file chunk owner h := by
    rcases isOwner_filetableAddFilesystem h with ⟨hlists, -⟩ | ⟨-, h⟩
    · exact absurd hlists not_listsFile_emptyFilesystem
    · exact absurd h not_isOwner_filetableNew
  clients peer file chunk owner h := absurd h not_isOwner_filetableNew
  toTracker := nofun
  announced := nofun
  toClients := nofun

/-! ## Steps -/

variable {s u : System}

theorem override_of_lists (h : ListsFile (filesystemIteratorRelative true fs) file) :
    versions.override fs newer file = newer file := if_pos h

theorem override_of_not (h : ¬ ListsFile (filesystemIteratorRelative true fs) file) :
    versions.override fs newer file = versions file := if_neg h

/-- What a message that is sent is about is as sound as what it comes from. -/
theorem messageSound_of_isSentBy {m : TrackerMessage} (hm : m.IsSentBy t tev)
    (hevent : EventSound history newer tev)
    (htable : ∀ peerID, tev = .masterRequest peerID → TableSound history t.filetable newer) :
    MessageSound history newer m := by
  cases m with
  | fsUpdate originator additions deletions =>
    cases hm
    exact hevent
  | gotChunk owner file chunk =>
    cases hm
    exact hevent
  | masterFiletable ft =>
    obtain ⟨rfl, peerID, heq⟩ := hm
    exact htable peerID heq
  | _ => trivial

/-- The tracker handles a message that is sound, and an acquisition in time. -/
theorem Inv.trackerStep (hs : s.Inv) (hevent : EventSound s.history newer tev)
    (hrequest : ∀ peerID, tev = .masterRequest peerID → newer = s.trackerVersions)
    (htime : ∀ file chunk owner, tev = .clientGot file chunk owner →
      containsPeer s.tracker.peerTable owner = true →
      ∃ version ∈ newer file, s.trackerVersions file = some version)
    (h : s.trackerStep tev newer = .ok u) : u.Inv := by
  obtain ⟨⟨tracker, sent⟩, hstep, h⟩ := bind_eq_ok.mp h
  cases h
  refine ⟨fun file chunk owner howner => ?_, hs.clients, hs.toTracker, hs.announced, fun x hx => ?_⟩
  · show owner ≠ myID ∧ ∃ version ∈ s.trackerVersions.override tev.added newer file,
      HasObtained s.history owner file chunk version
    rcases Tracker.isOwner_step hstep howner with ⟨hlists, rfl⟩ | ⟨hnot, hold | ⟨rfl, hpeer⟩⟩
    · -- the author of the update
      rw [override_of_lists hlists]
      cases tev with
      | clientUpdate clientID additions deletions => exact ⟨hevent.1, hevent.2 file hlists chunk⟩
      | _ => exact absurd hlists not_listsFile_emptyFilesystem
    · -- an owner before
      rw [override_of_not hnot]
      exact hs.tracker file chunk owner hold
    · -- the owner in the acquisition
      rw [override_of_not hnot]
      obtain ⟨version, hversion, htable⟩ := htime file chunk owner rfl hpeer
      exact ⟨hevent.1, version, htable, hevent.2 version hversion⟩
  · rcases List.mem_append.mp hx with hx | hx
    · exact hs.toClients x hx
    · obtain ⟨y, hy, rfl⟩ := List.mem_map.mp hx
      refine messageSound_of_isSentBy (Tracker.isSentBy_step hstep hy) hevent fun peerID heq => ?_
      rw [hrequest peerID heq]
      exact hs.tracker

/-- A client handles an event: what it adds is sound, and an acquisition is in time. -/
theorem Inv.clientStep {bytes : Option ℕ} (hs : s.Inv) (hpeer : 1 ≤ peer)
    (hadded : ∀ client messages, (s.clients peer).step ev = .ok (client, messages) →
      ∀ file, ListsFile (filesystemIteratorRelative true ((s.clients peer).added ev)) file →
      ∀ chunk, ∃ version ∈ newer file, HasObtained
        (newFacts peer s.history.length bytes messages ++ s.history) (whoIs peer ev.author) file chunk
        version)
    (hgot : ∀ owner file chunk, ev = .chunkGot owner file chunk →
      ∃ version ∈ s.clientVersions peer file, HasObtained s.history (whoIs peer owner) file chunk version)
    (h : s.clientStep peer ev newer bytes = .ok u) : u.Inv := by
  obtain ⟨⟨client, messages⟩, hstep, h⟩ := bind_eq_ok.mp h
  cases h
  refine ⟨hs.tracker.append _, fun q => ?_, fun x hx => ?_, fun x hx peerID => ?_,
    fun x hx => (hs.toClients x hx).append _⟩
  · by_cases hq : q = peer
    · subst hq
      intro file chunk owner howner
      have howner : client.ft.IsOwner file chunk owner := by
        simpa only [Function.update_self] using howner
      simp only [Function.update_self]
      rcases isOwner_step hstep howner with ⟨hlists, rfl⟩ | ⟨hnot, hold | hev⟩
      · rw [override_of_lists hlists]
        exact hadded client messages hstep file hlists chunk
      · rw [override_of_not hnot]
        exact (hs.clients q).append _ file chunk owner hold
      · rw [override_of_not hnot]
        obtain ⟨version, hversion, hhas⟩ := hgot owner file chunk hev
        exact ⟨version, hversion, hhas.append _⟩
    · simpa only [Function.update_of_ne hq] using (hs.clients q).append _
  · rcases List.mem_append.mp hx with hx | hx
    · exact (hs.toTracker x hx).append _
    · obtain ⟨message, hmem, hstamp⟩ := List.mem_filterMap.mp hx
      have hne : peer ≠ myID := by unfold myID; omega
      cases message with
      | chunkGot file chunk =>
        cases hstamp
        exact ⟨hne, fun version hversion => hasObtained_of_lastVersion hversion⟩
      | updatedFiles additions deletions =>
        cases hstamp
        refine ⟨hne, fun file hlists chunk => ⟨_, rfl, hasObtained_of_authored ?_ hlists⟩⟩
        exact List.mem_append_left _ (authored_mem_newFacts hmem)
      | _ => cases hstamp
  · rcases List.mem_append.mp hx with hx | hx
    · exact hs.announced x hx peerID
    · obtain ⟨message, -, hstamp⟩ := List.mem_filterMap.mp hx
      cases message <;> cases hstamp <;> exact nofun

/-- A client handles an event of its own: what it adds it has authored. -/
theorem Inv.ownStep {bytes : Option ℕ} (hs : s.Inv) (hpeer : 1 ≤ peer) (hown : IsOwn ev)
    (h : s.clientStep peer ev (fun _ => some s.history.length) bytes = .ok u) : u.Inv := by
  refine hs.clientStep hpeer (fun client messages hstep file hlists chunk => ?_) ?_ h
  · obtain ⟨hauthor, deletions, hmem⟩ := exists_updatedFiles hown hstep hlists
    rw [hauthor]
    exact ⟨_, rfl, hasObtained_of_authored
      (List.mem_append_left _ (authored_mem_newFacts hmem)) hlists⟩
  · rintro owner file chunk rfl
    exact hown.elim

/-- A client handles an event that adds nothing. -/
theorem Inv.plainStep {bytes : Option ℕ} (hs : s.Inv) (hpeer : 1 ≤ peer)
    (hadded : (s.clients peer).added ev = emptyFilesystem)
    (hgot : ∀ owner file chunk, ev = .chunkGot owner file chunk →
      ∃ version ∈ s.clientVersions peer file, HasObtained s.history (whoIs peer owner) file chunk version)
    (h : s.clientStep peer ev newer bytes = .ok u) : u.Inv := by
  refine hs.clientStep hpeer (fun client messages hstep file hlists => ?_) hgot h
  rw [hadded] at hlists
  exact absurd hlists not_listsFile_emptyFilesystem

/-- A client handles a message of the tracker, and an acquisition in time. -/
theorem Inv.receive {m : TrackerMessage} (hs : s.Inv) (hpeer : 1 ≤ peer)
    (hm : MessageSound s.history newer m)
    (htime : ∀ owner file chunk, m = .gotChunk owner file chunk →
      ∃ version ∈ newer file, s.clientVersions peer file = some version)
    (h : s.receive peer newer m = .ok u) : u.Inv := by
  have hnot (x : ClientEvent) (hx : ∀ owner file chunk, x ≠ .chunkGot owner file chunk) :
      ∀ owner file chunk, x = .chunkGot owner file chunk → ∃ version ∈ s.clientVersions peer file,
        HasObtained s.history (whoIs peer owner) file chunk version :=
    fun owner file chunk heq => absurd heq (hx owner file chunk)
  cases m with
  | peerAdded id => exact hs.plainStep hpeer rfl (hnot (.peerAdded id) fun _ _ _ => nofun) h
  | peerRemoved id => exact hs.plainStep hpeer rfl (hnot (.peerDeleted id) fun _ _ _ => nofun) h
  | master fs => exact hs.plainStep hpeer rfl (hnot (.master fs) fun _ _ _ => nofun) h
  | gotChunk owner file chunk =>
    refine hs.plainStep hpeer rfl ?_ h
    rintro _ _ _ ⟨⟩
    obtain ⟨version, hversion, htable⟩ := htime owner file chunk rfl
    refine ⟨version, htable, ?_⟩
    rw [whoIs_of_ne hm.1]
    exact hm.2 version hversion
  | fsUpdate originator additions deletions =>
    refine hs.clientStep hpeer (fun client messages _ file hlists chunk => ?_)
      (hnot (.diff additions deletions originator) fun _ _ _ => nofun) h
    obtain ⟨version, hversion, hhas⟩ := hm.2 file hlists chunk
    refine ⟨version, hversion, ?_⟩
    rw [show whoIs peer (ClientEvent.author (.diff additions deletions originator)) = originator from
      whoIs_of_ne hm.1]
    exact hhas.append _
  | masterFiletable ft =>
    cases h
    refine ⟨hs.tracker, fun q => ?_, hs.toTracker, hs.announced, hs.toClients⟩
    by_cases hq : q = peer
    · subst hq
      simpa only [Function.update_self] using TableSound.client hm
    · simpa only [Function.update_of_ne hq] using hs.clients q

theorem Inv.step {e : SystemEvent} (hs : s.Inv) (hlegal : s.Legal e) (htime : s.InTime e)
    (h : s.step e = .ok u) : u.Inv := by
  cases e with
  | joins peer =>
    have hevent : EventSound s.history s.trackerVersions (.newClient peer) := trivial
    exact hs.trackerStep hevent nofun nofun h
  | requests peer =>
    have hevent : EventSound s.history s.trackerVersions (.masterRequest peer) := trivial
    exact hs.trackerStep hevent (fun _ _ => rfl) nofun h
  | leaves peer =>
    have hevent : EventSound s.history s.trackerVersions (.lostClient peer) := trivial
    exact hs.trackerStep hevent nofun nofun h
  | tracks i =>
    unfold System.step at h
    dsimp only at h
    cases hget : s.toTracker[i]? with
    | none =>
      rw [hget] at h
      cases h
      exact hs
    | some x =>
      obtain ⟨tev, newer⟩ := x
      rw [hget] at h
      have hmem := List.mem_of_getElem? hget
      have hrest : Inv { s with toTracker := s.toTracker.eraseIdx i } :=
        ⟨hs.tracker, hs.clients, fun x hx => hs.toTracker x (List.mem_of_mem_eraseIdx hx),
          fun x hx => hs.announced x (List.mem_of_mem_eraseIdx hx), hs.toClients⟩
      refine hrest.trackerStep (hs.toTracker _ hmem)
        (fun peerID heq => absurd heq (hs.announced _ hmem peerID)) ?_ h
      rintro file chunk owner rfl
      exact htime file chunk owner newer hget
  | delivers i =>
    unfold System.step at h
    dsimp only at h
    cases hget : s.toClients[i]? with
    | none =>
      rw [hget] at h
      cases h
      exact hs
    | some x =>
      obtain ⟨peer, m, newer⟩ := x
      rw [hget] at h
      have hrest : Inv { s with toClients := s.toClients.eraseIdx i } :=
        ⟨hs.tracker, hs.clients, hs.toTracker, hs.announced,
          fun x hx => hs.toClients x (List.mem_of_mem_eraseIdx hx)⟩
      refine hrest.receive (hlegal peer m newer hget) (hs.toClients _ (List.mem_of_getElem? hget)) ?_ h
      rintro owner file chunk rfl
      exact htime peer owner file chunk newer hget
  | client peer ev bytes => exact hs.ownStep hlegal.1 hlegal.2 h

end System

/-! ## All runs -/

/-- **Owners.** If every acquisition is handled in time, then every owner in every table has obtained
the chunk in the version that the table describes. -/
theorem ownersSound_of_inTime {dirs : ℤ → Directory} {now : UInt64} {rand : Rand}
    {evs : List SystemEvent} {s : System}
    (h : Run System.step (fun s e => s.Legal e ∧ s.InTime e) (.initial dirs now rand) evs s) :
    s.OwnersSound :=
  (h.invariant (fun _ _ _ hs he hstep => hs.step he.1 he.2 hstep)
    (System.inv_initial dirs now rand)).ownersSound

/-! ## An acquisition of an older version -/

namespace OwnershipExample

/-- A directory with a file `b` of one byte. -/
def withFile (byte : UInt8) (mtime : Int64) : Directory :=
  Directory.empty.insert [.ofBytes [98]] (.file [byte] mtime) (by decide)

/-- The path of the file. -/
def fileB : CString := .ofBytes [47, 98]

/-- All clients have empty directories. -/
def start : System := .initial (fun _ => .empty) 0 fun _ => 0

/-- Client 1 makes the file and client 2 gets its chunk. -/
def gets : List SystemEvent :=
  [.joins 1, .joins 2, .client 1 (.edit (withFile 1 1)) none, .client 1 (.checkLocal 6000000) none,
    .client 1 (.checkLocal 12000000) none, .tracks 0, .delivers 1, .client 2 .workQueue none,
    .client 2 (.chunk fileB 0 (some [1]) 1) (some 0)]

/-- The acquisition is handled, first by the tracker and then by client 1. -/
def inOrder : List SystemEvent := gets ++ [.tracks 0, .delivers 1]

/-- Client 1 changes the file before the tracker handles the acquisition. -/
def late : List SystemEvent :=
  gets ++ [.client 1 (.edit (withFile 2 2)) none, .client 1 (.checkLocal 18000000) none,
    .client 1 (.checkLocal 24000000) none, .tracks 1, .tracks 0]

def isOwnTest : ClientEvent → Bool
  | .diff _ _ _ | .master _ | .chunkGot _ _ _ => false
  | _ => true

def legalTest (s : System) : SystemEvent → Bool
  | .client peer ev _ => 1 ≤ peer && isOwnTest ev
  | .delivers i => s.toClients[i]?.all fun x => 1 ≤ x.1
  | _ => true

theorem legal_of_test (s : System) (e : SystemEvent) (h : legalTest s e = true) : s.Legal e := by
  cases e with
  | client peer ev bytes =>
    obtain ⟨hpeer, hown⟩ := Bool.and_eq_true_iff.mp h
    refine ⟨of_decide_eq_true hpeer, ?_⟩
    cases ev with
    | diff | master | chunkGot => cases hown
    | _ => trivial
  | delivers i =>
    intro peer message newer hget
    rw [legalTest, hget, Option.all_some] at h
    exact of_decide_eq_true h
  | _ => trivial

def inTimeTest (s : System) : SystemEvent → Bool
  | .tracks i => s.toTracker[i]?.all fun x => match x.1 with
    | .clientGot file _ _ => (x.2 file).any fun version => s.trackerVersions file = some version
    | _ => true
  | .delivers i => s.toClients[i]?.all fun x => match x.2.1 with
    | .gotChunk _ file _ => (x.2.2 file).any fun version => s.clientVersions x.1 file = some version
    | _ => true
  | _ => true

theorem inTime_of_test (s : System) (e : SystemEvent) (h : inTimeTest s e = true) : s.InTime e := by
  cases e with
  | tracks i =>
    intro file chunk owner newer hget _
    rw [inTimeTest, hget, Option.all_some] at h
    obtain ⟨version, hversion, htable⟩ := (Option.any_eq_true _ _).mp h
    exact ⟨version, hversion, of_decide_eq_true htable⟩
  | delivers i =>
    intro peer owner file chunk newer hget
    rw [inTimeTest, hget, Option.all_some] at h
    obtain ⟨version, hversion, htable⟩ := (Option.any_eq_true _ _).mp h
    exact ⟨version, hversion, of_decide_eq_true htable⟩
  | _ => trivial

/-- The table lists the client as an owner of the first chunk of the file. -/
def isOwnerTest (ft : FileTable) (owner : ℤ) : Bool :=
  (ft.ownersAt fileB).any fun chunks => chunks[0]?.any fun owners => owners.contains owner

theorem isOwner_of_test {ft : FileTable} {owner : ℤ} (h : isOwnerTest ft owner = true) :
    ft.IsOwner fileB 0 owner := by
  obtain ⟨chunks, hchunks, h⟩ := (Option.any_eq_true _ _).mp h
  obtain ⟨owners, howners, h⟩ := (Option.any_eq_true _ _).mp h
  exact ⟨chunks, owners, hchunks, le_rfl, howners, List.contains_iff_mem.mp h⟩

end OwnershipExample

open OwnershipExample

theorem ownersSound_after_acquisition :
    ∃ s, Run System.step (fun s e => s.Legal e ∧ s.InTime e) start inOrder s ∧
      s.tracker.filetable.IsOwner fileB 0 2 ∧ (s.clients 1).ft.IsOwner fileB 0 2 ∧ s.OwnersSound := by
  have hrun : (runIf System.step (fun s e => legalTest s e && inTimeTest s e) start inOrder).any
      (fun s => isOwnerTest s.tracker.filetable 2 && isOwnerTest (s.clients 1).ft 2) = true := by
    decide +kernel
  obtain ⟨s, hs, htest⟩ := (Option.any_eq_true _ _).mp hrun
  rw [Bool.and_eq_true] at htest
  have hs : Run System.step (fun s e => s.Legal e ∧ s.InTime e) start inOrder s :=
    run_of_runIf (fun s e h => ⟨legal_of_test s e (Bool.and_eq_true_iff.mp h).1,
      inTime_of_test s e (Bool.and_eq_true_iff.mp h).2⟩) hs
  exact ⟨s, hs, isOwner_of_test htest.1, isOwner_of_test htest.2, ownersSound_of_inTime hs⟩

/-- The tracker lists client 2 for the file that client 1 has made since: client 2 has the chunk of
the older version only. -/
theorem owner_of_older_version :
    ∃ s, Run System.step System.Legal start late s ∧ s.tracker.filetable.IsOwner fileB 0 2 ∧
      s.trackerVersions fileB = some 2 ∧ ¬ HasObtained s.history 2 fileB 0 2 ∧ ¬ s.OwnersSound := by
  have hrun : (runIf System.step legalTest start late).any (fun s =>
      isOwnerTest s.tracker.filetable 2 && (s.trackerVersions fileB = some 2 &&
        !decide (HasObtained s.history 2 fileB 0 2))) = true := by decide +kernel
  obtain ⟨s, hs, htest⟩ := (Option.any_eq_true _ _).mp hrun
  simp only [Bool.and_eq_true, decide_eq_true_eq, Bool.not_eq_true', decide_eq_false_iff_not] at htest
  obtain ⟨howner, hversion, hnot⟩ := htest
  have howner := isOwner_of_test howner
  refine ⟨s, run_of_runIf legal_of_test hs, howner, hversion, hnot, fun h => ?_⟩
  obtain ⟨version, hmem, hhas⟩ := h.tracker fileB 0 2 howner
  rw [hversion] at hmem
  cases hmem
  exact hnot hhas

end DartSync
