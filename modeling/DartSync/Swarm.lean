import DartSync.Client.Shared
import DartSync.Ownership

/-!
# The swarm

The tracker, any number of clients, what they send each other through the tracker and the chunks that
they ask each other for. A client that is asked for a chunk answers with whatever its table or its disk
has, and a client that gets an answer writes it without a check. Nevertheless a shared file stays what
it is: as long as its users put nothing else at its path and no update removes it or adds it a second
time, every chunk of it that travels is that of the content, and so is every copy on a disk, in every
order of all steps (`swarm_intact`).
-/

namespace DartSync

open Buffer FileTable Runs

/-! ## The system -/

/-- The tracker, the clients by their ids, and the messages on their way. -/
structure Swarm where
  tracker : Tracker
  clients : ℤ → Client
  toTracker : List TrackerEvent
  toClients : List (ℤ × TrackerMessage)
  toPeers : List (ℤ × ClientEvent)

inductive SwarmEvent
  | joins (peer : ℤ)
  | requests (peer : ℤ)
  | leaves (peer : ℤ)
  /-- The tracker handles one of the messages on their way to it. -/
  | tracks (i : ℕ)
  /-- A client handles one of the messages of the tracker. -/
  | delivers (i : ℕ)
  /-- A client handles one of the messages of another client. -/
  | answers (i : ℕ)
  /-- A message to a client that cannot be reached is lost. -/
  | loses (i : ℕ)
  /-- A client does something of its own. -/
  | client (peer : ℤ) (ev : ClientEvent)

/-- What the tracker gets of it. -/
def ClientMessage.forTracker (peer : ℤ) : ClientMessage → Option TrackerEvent
  | .chunkGot path chunkNum => some (.clientGot path chunkNum peer)
  | .updatedFiles additions deletions => some (.clientUpdate peer additions deletions)
  | _ => none

/-- What another client gets of it. No peer has the id that stands for the client itself. -/
def ClientMessage.forPeer (peer : ℤ) : ClientMessage → Option (ℤ × ClientEvent)
  | .chunkRequest dest path k jobId =>
    if dest = myID then none else some (dest, .chunkRequest peer path k jobId)
  | .chunk dest path k data requestId => some (dest, .chunk path k (some data) requestId)
  | .chunkRejection dest path k requestId => some (dest, .chunk path k none requestId)
  | _ => none

namespace Swarm

/-- The tracker handles a message. -/
def trackerStep (s : Swarm) (ev : TrackerEvent) : Except Abort Swarm := do
  let (tracker, sent) ← s.tracker.step ev
  return { s with tracker := tracker, toClients := s.toClients ++ sent }

/-- A client handles an event. -/
def clientStep (s : Swarm) (peer : ℤ) (ev : ClientEvent) : Except Abort Swarm := do
  let (client, sent) ← (s.clients peer).step ev
  return { s with
    clients := Function.update s.clients peer client
    toTracker := s.toTracker ++ sent.filterMap (ClientMessage.forTracker peer)
    toPeers := s.toPeers ++ sent.filterMap (ClientMessage.forPeer peer) }

/-- A client handles a message of the tracker. -/
def receive (s : Swarm) (peer : ℤ) : TrackerMessage → Except Abort Swarm
  | .peerAdded id => s.clientStep peer (.peerAdded id)
  | .peerRemoved id => s.clientStep peer (.peerDeleted id)
  | .fsUpdate originator additions deletions =>
    s.clientStep peer (.diff additions deletions originator)
  | .gotChunk owner file chunk => s.clientStep peer (.chunkGot owner file chunk)
  | .master fs => s.clientStep peer (.master fs)
  | .masterFiletable ft => .ok { s with
      clients := Function.update s.clients peer { s.clients peer with ft := ft } }

def step (s : Swarm) : SwarmEvent → Except Abort Swarm
  | .joins peer => s.trackerStep (.newClient peer)
  | .requests peer => s.trackerStep (.masterRequest peer)
  | .leaves peer => s.trackerStep (.lostClient peer)
  | .tracks i =>
    match s.toTracker[i]? with
    | some ev => { s with toTracker := s.toTracker.eraseIdx i }.trackerStep ev
    | none => .ok s
  | .delivers i =>
    match s.toClients[i]? with
    | some (peer, message) => { s with toClients := s.toClients.eraseIdx i }.receive peer message
    | none => .ok s
  | .answers i =>
    match s.toPeers[i]? with
    | some (peer, ev) => { s with toPeers := s.toPeers.eraseIdx i }.clientStep peer ev
    | none => .ok s
  | .loses i => .ok { s with toPeers := s.toPeers.eraseIdx i }
  | .client peer ev => s.clientStep peer ev

/-- The tracker has started, and the clients have their directories. -/
def initial (dirs : ℤ → Directory) (now : UInt64) (rand : Rand) : Swarm where
  tracker := .initial
  clients peer := .initial (dirs peer) filetableNew now rand
  toTracker := []
  toClients := []
  toPeers := []

/-- What a client does without a message. -/
def IsOwn : ClientEvent → Prop
  | .workQueue | .checkLocal _ | .edit _ => True
  | _ => False

/-- Ids are positive, and messages come from where they are sent. -/
def Legal (s : Swarm) : SwarmEvent → Prop
  | .client peer ev => 1 ≤ peer ∧ IsOwn ev
  | .delivers i => ∀ x ∈ s.toClients[i]?, 1 ≤ x.1
  | .answers i => ∀ x ∈ s.toPeers[i]?, 1 ≤ x.1
  | _ => True

end Swarm

/-- What a client gets from the tracker does not touch the file. A table comes where it is not in
transfer. -/
def SharedFile.UndisturbedBy (f : SharedFile) (c : Client) : TrackerMessage → Prop
  | .fsUpdate originator additions deletions =>
    f.Undisturbed c (.diff additions deletions originator)
  | .master fs => f.Undisturbed c (.master fs)
  | .masterFiletable _ => filetableGetChunkyfile c.ft f.name = none
  | _ => True

/-- No client handles what touches the file. -/
def SharedFile.UndisturbedIn (f : SharedFile) (s : Swarm) : SwarmEvent → Prop
  | .client peer ev => f.Undisturbed (s.clients peer) ev
  | .delivers i => ∀ x ∈ s.toClients[i]?, f.UndisturbedBy (s.clients x.1) x.2
  | _ => True

/-- The client answers every request for the chunk with the bytes of the chunk. -/
def SharedFile.Answers (f : SharedFile) (c : Client) (k : ℤ) : Prop :=
  ∀ peer requestId, ∃ c', receiveChunkRequest c peer f.name k requestId =
    .ok (c', [.chunk peer f.name k (f.chunk k.toNat) requestId])

variable {f : SharedFile} {s u : Swarm} {clients clients' : ℤ → Client} {t t' : Tracker}
  {tev : TrackerEvent} {ev : ClientEvent} {c c' : Client} {m : TrackerMessage} {ft : FileTable}
  {fs fs' additions deletions : Folder} {pt : PeerTable} {peer owner author k : ℤ} {p file : CString}
  {sent : List (ℤ × TrackerMessage)} {messages : List ClientMessage}

/-! ## What the tracker has of the file -/

theorem SharedFile.Carries.prunePaths {paths : List CString} {st st' : Folder × FileTable}
    (h : f.Carries st.1) (hok : paths.foldlM prunePath st = .ok st') : f.Carries st'.1 := by
  induction paths generalizing st with
  | nil =>
    cases hok
    exact h
  | cons path paths ih =>
    rw [List.foldlM_cons] at hok
    obtain ⟨st1, h1, hok⟩ := bind_eq_ok.mp hok
    obtain ⟨fs1, hremove, h1⟩ := bind_eq_ok.mp h1
    cases h1
    refine ih ?_ hok
    unfold filesystemRemoveFileAtPath at hremove
    split at hremove
    · cases hremove
    · obtain ⟨-, hdistinct, hsub⟩ := folderRemoveFileAtPath_le h.distinct hremove
      exact h.mono hdistinct hsub

/-- The tree of the tracker, and every master that they send. -/
theorem Tracker.carries_step (h : f.Carries t.fs)
    (hadd : ∀ clientID additions deletions, tev = .clientUpdate clientID additions deletions →
      f.Carries additions ∧ deletions.Distinct)
    (hok : t.step tev = .ok (t', sent)) :
    f.Carries t'.fs ∧ ∀ x ∈ sent, ∀ fs, x.2 = .master fs → f.Carries fs := by
  have hbroadcast (pt : PeerTable) (butTo : ℤ) (m : TrackerMessage) (hm : ∀ fs, m ≠ .master fs) :
      ∀ x ∈ broadcast pt butTo m, ∀ fs, x.2 = .master fs → f.Carries fs := by
    intro x hx fs hfs
    obtain ⟨id, -, rfl⟩ := List.mem_map.mp hx
    exact absurd hfs (hm fs)
  cases trackerStep hok with
  | @joined peerID => exact ⟨h, hbroadcast _ _ (.peerAdded peerID) (fun _ => nofun)⟩
  | requested =>
    refine ⟨h, fun x hx fs hfs => ?_⟩
    rcases List.mem_cons.mp hx with rfl | hx
    · cases hfs
      exact h
    · rw [List.mem_singleton.mp hx] at hfs
      cases hfs
  | left hpt hprune =>
    obtain ⟨st, hst, hprune⟩ := bind_eq_ok.mp hprune
    cases hprune
    have hcarries : f.Carries st.1 := h.prunePaths hst
    refine ⟨hcarries, fun x hx fs hfs => ?_⟩
    rcases List.mem_append.mp hx with hx | hx
    · exact hbroadcast _ _ (.peerRemoved _) (fun _ => nofun) x hx fs hfs
    · split_ifs at hx
      · cases hx
      · obtain ⟨id, -, rfl⟩ := List.mem_map.mp hx
        cases hfs
        exact hcarries
  | got => exact ⟨h, hbroadcast _ _ _ (fun _ => nofun)⟩
  | dropped => exact ⟨h, nofun⟩
  | updated hpatch =>
    obtain ⟨hcarries, hdistinct⟩ := hadd _ _ _ rfl
    exact ⟨h.patch hcarries hdistinct hpatch, hbroadcast _ _ _ (fun _ => nofun)⟩

/-- No file is in transfer at the tracker. -/
theorem Tracker.getChunkyfile_step (h : ∀ p, filetableGetChunkyfile t.filetable p = none)
    (hok : t.step tev = .ok (t', sent)) (p : CString) :
    filetableGetChunkyfile t'.filetable p = none := by
  cases trackerStep hok with
  | joined | requested | dropped => exact h p
  | @left peerID _ _ ft _ hpt hprune =>
    unfold filetableGetChunkyfile
    cases he : ft.lookup p with
    | none => rfl
    | some e =>
      have hbefore : filetableGetChunkyfile (filetableRemovePeer t.filetable peerID) p = none :=
        getChunkyfile_removePeer.trans (h p)
      exact (getChunkyfile_of_lookup (lookup_of_pruneFilesystem hprune he)).symm.trans hbefore
  | got hpeer hft => exact (getChunkyfile_setPeerHasChunk hft).trans (h p)
  | @updated _ additions deletions _ hpatch =>
    show filetableGetChunkyfile (filetableAddFilesystem _ _ _ _ _).1 p = none
    rw [getChunkyfile_addFilesystem]
    split_ifs
    · rfl
    · have hfiles : FilesFrom [] t.filetable (filetableRemoveFilesystem t.filetable deletions) :=
        filesFrom_removeFilesystem
      rcases hfiles p with hsame | hnone | ⟨_, hmem, _⟩
      · exact hsame.trans (h p)
      · exact hnone
      · cases hmem

namespace SharedFile

/-! ## What travels -/

/-- The client has the chunk. -/
def HasIn (f : SharedFile) (clients : ℤ → Client) (id : ℤ) (k : ℕ) : Prop := f.Has (clients id) k

/-- The author of an update that adds the file has it. -/
structure UpdateSound (f : SharedFile) (clients : ℤ → Client) (author : ℤ)
    (additions deletions : Folder) : Prop where
  author_ne : author ≠ myID
  carries : f.Carries additions
  distinct : deletions.Distinct
  has : ListsFile (filesystemIteratorRelative true additions) f.name → ∀ k, f.HasIn clients author k

def GotSound (f : SharedFile) (clients : ℤ → Client) (owner : ℤ) (file : CString) (k : ℤ) : Prop :=
  owner ≠ myID ∧ (file = f.name → f.HasIn clients owner k.toNat)

/-- A table of the tracker: nothing is in transfer, and the owners have their chunks. -/
structure TableSound (f : SharedFile) (clients : ℤ → Client) (ft : FileTable) : Prop where
  files : ∀ p, filetableGetChunkyfile ft p = none
  owners : ∀ k owner, ft.IsOwner f.name k owner → owner ≠ myID ∧ f.HasIn clients owner k.toNat

/-- The owners in the table of a client have their chunks. -/
def ClientSound (f : SharedFile) (clients : ℤ → Client) (peer : ℤ) (ft : FileTable) : Prop :=
  ∀ k owner, ft.IsOwner f.name k owner → f.HasIn clients (System.whoIs peer owner) k.toNat

def EventSound (f : SharedFile) (clients : ℤ → Client) : TrackerEvent → Prop
  | .clientUpdate clientID additions deletions => f.UpdateSound clients clientID additions deletions
  | .clientGot fileGot chunkGot peerGotId => f.GotSound clients peerGotId fileGot chunkGot
  | _ => True

def MessageSound (f : SharedFile) (clients : ℤ → Client) : TrackerMessage → Prop
  | .fsUpdate originator additions deletions => f.UpdateSound clients originator additions deletions
  | .gotChunk owner file k => f.GotSound clients owner file k
  | .master fs => f.Carries fs
  | .masterFiletable ft => f.TableSound clients ft
  | _ => True

/-- A request to a client that has the chunk, or an answer with its bytes. -/
def PeerSound (f : SharedFile) (clients : ℤ → Client) (dest : ℤ) : ClientEvent → Prop
  | .chunkRequest _ file k _ => file = f.name → f.HasIn clients dest k.toNat
  | .chunk file k data _ => file = f.name → ∀ text ∈ data, text = f.chunk k.toNat
  | _ => False

section Mono

variable (hmono : ∀ id k, f.HasIn clients id k → f.HasIn clients' id k)

include hmono

theorem UpdateSound.mono (h : f.UpdateSound clients author additions deletions) :
    f.UpdateSound clients' author additions deletions :=
  ⟨h.author_ne, h.carries, h.distinct, fun hlists k => hmono _ _ (h.has hlists k)⟩

theorem GotSound.mono (h : f.GotSound clients owner file k) : f.GotSound clients' owner file k :=
  ⟨h.1, fun hfile => hmono _ _ (h.2 hfile)⟩

theorem TableSound.mono (h : f.TableSound clients ft) : f.TableSound clients' ft :=
  ⟨h.files, fun k owner howner => (h.owners k owner howner).imp_right (hmono _ _)⟩

theorem ClientSound.mono (h : f.ClientSound clients peer ft) : f.ClientSound clients' peer ft :=
  fun k owner howner => hmono _ _ (h k owner howner)

theorem EventSound.mono (h : f.EventSound clients tev) : f.EventSound clients' tev := by
  cases tev with
  | clientUpdate => exact UpdateSound.mono hmono h
  | clientGot => exact GotSound.mono hmono h
  | _ => trivial

theorem MessageSound.mono (h : f.MessageSound clients m) : f.MessageSound clients' m := by
  cases m with
  | fsUpdate => exact UpdateSound.mono hmono h
  | gotChunk => exact GotSound.mono hmono h
  | master => exact h
  | masterFiletable => exact TableSound.mono hmono h
  | _ => trivial

theorem PeerSound.mono (h : f.PeerSound clients peer ev) : f.PeerSound clients' peer ev := by
  cases ev with
  | chunkRequest => exact fun hfile => hmono _ _ (h hfile)
  | chunk => exact h
  | _ => exact h

end Mono

/-- What a client keeps, all clients keep. -/
theorem HasIn.update (hkeeps : f.Keeps (clients peer) c') (id : ℤ) (k : ℕ)
    (h : f.HasIn clients id k) : f.HasIn (Function.update clients peer c') id k := by
  unfold HasIn at h ⊢
  by_cases hid : id = peer
  · subst hid
    rw [Function.update_self]
    exact hkeeps.has k h
  · rw [Function.update_of_ne hid]
    exact h

/-- What the tracker sends is as sound as the message that it comes from. -/
theorem MessageSound.of_isSentBy (hm : m.IsSentBy t tev) (hevent : f.EventSound clients tev)
    (hmaster : ∀ fs, m = .master fs → f.Carries fs) (htable : f.TableSound clients t.filetable) :
    f.MessageSound clients m := by
  cases m with
  | fsUpdate originator additions deletions =>
    cases hm
    exact hevent
  | gotChunk owner file k =>
    cases hm
    exact hevent
  | master fs => exact hmaster fs rfl
  | masterFiletable ft =>
    obtain ⟨rfl, -⟩ := hm
    exact htable
  | _ => trivial

theorem TableSound.client (h : f.TableSound clients ft) : f.ClientSound clients peer ft := by
  intro k owner howner
  obtain ⟨hne, hhas⟩ := h.owners k owner howner
  rwa [System.whoIs_of_ne hne]

theorem PeerSound.genuine (h : f.PeerSound clients peer ev) : f.Genuine (clients peer) ev := by
  cases ev with
  | chunkRequest => exact h
  | chunk => exact h
  | _ => exact h.elim

end SharedFile

namespace Swarm

/-! ## The invariant -/

/-- The clients are clean, and the tables and all that travels are sound. -/
structure Inv (f : SharedFile) (s : Swarm) : Prop where
  fs : f.Carries s.tracker.fs
  tracker : f.TableSound s.clients s.tracker.filetable
  clean : ∀ peer, f.Clean (s.clients peer)
  owners : ∀ peer, f.ClientSound s.clients peer (s.clients peer).ft
  toTracker : ∀ x ∈ s.toTracker, f.EventSound s.clients x
  toClients : ∀ x ∈ s.toClients, f.MessageSound s.clients x.2
  toPeers : ∀ x ∈ s.toPeers, f.PeerSound s.clients x.1 x.2

theorem inv_initial {dirs : ℤ → Directory} (h : ∀ peer, f.OnlyOn (dirs peer)) (now : UInt64)
    (rand : Rand) : (initial dirs now rand).Inv f where
  fs := SharedFile.carries_emptyFilesystem
  tracker :=
    { files := fun p => by
        refine getChunkyfile_addFilesystem.trans ?_
        rw [if_neg not_listsFile_emptyFilesystem, getChunkyfile_filetableNew]
      owners := fun k owner howner => by
        rcases isOwner_filetableAddFilesystem howner with ⟨hlists, -⟩ | ⟨-, howner⟩
        · exact absurd hlists not_listsFile_emptyFilesystem
        · exact absurd howner System.not_isOwner_filetableNew }
  clean peer := SharedFile.clean_initial (h peer)
  owners peer k owner howner := absurd howner System.not_isOwner_filetableNew
  toTracker := nofun
  toClients := nofun
  toPeers := nofun

/-! ## Steps -/

/-- The tracker handles a message that is sound. -/
theorem Inv.trackerStep (hs : s.Inv f) (tev : TrackerEvent) (hevent : f.EventSound s.clients tev)
    (h : s.trackerStep tev = .ok u) : u.Inv f := by
  obtain ⟨⟨tracker, sent⟩, hstep, h⟩ := bind_eq_ok.mp h
  cases h
  obtain ⟨hfs, hmasters⟩ := Tracker.carries_step hs.fs (fun clientID additions deletions heq => by
    subst heq
    exact ⟨SharedFile.UpdateSound.carries hevent, SharedFile.UpdateSound.distinct hevent⟩) hstep
  refine ⟨hfs, ⟨Tracker.getChunkyfile_step hs.tracker.files hstep, fun k owner howner => ?_⟩, hs.clean,
    hs.owners, hs.toTracker, fun x hx => ?_, hs.toPeers⟩
  · show owner ≠ myID ∧ f.HasIn s.clients owner k.toNat
    rcases Tracker.isOwner_step hstep howner with ⟨hlists, rfl⟩ | ⟨-, hold | ⟨rfl, -⟩⟩
    · -- the author of the update
      cases tev with
      | clientUpdate clientID additions deletions =>
        have hupdate : f.UpdateSound s.clients clientID additions deletions := hevent
        exact ⟨hupdate.author_ne, hupdate.has hlists _⟩
      | _ => exact absurd hlists not_listsFile_emptyFilesystem
    · exact hs.tracker.owners k owner hold
    · -- the owner in the acquisition
      exact ⟨hevent.1, hevent.2 rfl⟩
  · rcases List.mem_append.mp hx with hx | hx
    · exact hs.toClients x hx
    · exact .of_isSentBy (Tracker.isSentBy_step hstep hx) hevent (hmasters x hx) hs.tracker

/-- A client handles what is genuine and does not touch the file: what it adds it has, and so has the
owner in an acquisition. -/
theorem Inv.clientStep (hs : s.Inv f) (hpeer : 1 ≤ peer) (ev : ClientEvent)
    (hgenuine : f.Genuine (s.clients peer) ev)
    (hundisturbed : f.Undisturbed (s.clients peer) ev)
    (hadded : ∀ client messages, (s.clients peer).step ev = .ok (client, messages) →
      (∀ m ∈ messages, f.Sound client m) →
      ListsFile (filesystemIteratorRelative true ((s.clients peer).added ev)) f.name → ∀ k,
      f.HasIn (Function.update s.clients peer client) (System.whoIs peer ev.author) k)
    (hgot : ∀ owner k, ev = .chunkGot owner f.name k →
      f.HasIn s.clients (System.whoIs peer owner) k.toNat)
    (h : s.clientStep peer ev = .ok u) : u.Inv f := by
  obtain ⟨⟨client, messages⟩, hstep, h⟩ := bind_eq_ok.mp h
  cases h
  obtain ⟨hkeeps, hsound⟩ := SharedFile.clean_step (hs.clean peer) hgenuine hundisturbed hstep
  have hmono : ∀ id k, f.HasIn s.clients id k →
      f.HasIn (Function.update s.clients peer client) id k := SharedFile.HasIn.update hkeeps
  have hself : ∀ k, f.Has client k → f.HasIn (Function.update s.clients peer client) peer k := by
    intro k hk
    unfold SharedFile.HasIn
    rwa [Function.update_self]
  have howners : f.ClientSound (Function.update s.clients peer client) peer client.ft := by
    intro k owner howner
    rcases isOwner_step hstep howner with ⟨hlists, rfl⟩ | ⟨-, hold | hev⟩
    · exact hadded client messages hstep hsound hlists _
    · exact hmono _ _ (hs.owners peer k owner hold)
    · exact hmono _ _ (hgot owner k hev)
  have hne : peer ≠ myID := by unfold myID; omega
  refine ⟨hs.fs, hs.tracker.mono hmono, fun q => ?_, fun q => ?_, fun x hx => ?_,
    fun x hx => (hs.toClients x hx).mono hmono, fun x hx => ?_⟩
  · by_cases hq : q = peer
    · subst hq
      simpa only [Function.update_self] using hkeeps.clean
    · simpa only [Function.update_of_ne hq] using hs.clean q
  · by_cases hq : q = peer
    · subst hq
      simpa only [Function.update_self] using howners
    · simpa only [Function.update_of_ne hq] using (hs.owners q).mono hmono
  · rcases List.mem_append.mp hx with hx | hx
    · exact (hs.toTracker x hx).mono hmono
    · obtain ⟨message, hmem, hsent⟩ := List.mem_filterMap.mp hx
      have hsound := hsound message hmem
      cases message with
      | chunkGot path n =>
        cases hsent
        exact ⟨hne, fun hpath => hself _ (hsound hpath)⟩
      | updatedFiles additions deletions =>
        cases hsent
        obtain ⟨hcarries, hdistinct, hhas⟩ := hsound
        exact ⟨hne, hcarries, hdistinct, fun hlists k => hself k (hhas hlists k)⟩
      | _ => cases hsent
  · rcases List.mem_append.mp hx with hx | hx
    · exact (hs.toPeers x hx).mono hmono
    · obtain ⟨message, hmem, hsent⟩ := List.mem_filterMap.mp hx
      have hsound := hsound message hmem
      cases message with
      | chunkRequest dest path n jobId =>
        unfold ClientMessage.forPeer at hsent
        dsimp only at hsent
        split_ifs at hsent with hdest
        cases hsent
        intro hpath
        have hhas := howners _ _ (hsound hpath)
        rw [System.whoIs_of_ne hdest, Int.toNat_natCast] at hhas
        exact hhas
      | chunk dest path n data requestId =>
        cases hsent
        rintro hpath _ ⟨⟩
        exact hsound hpath
      | chunkRejection dest path n requestId =>
        cases hsent
        exact fun _ => nofun
      | _ => cases hsent

/-- A client handles an event of its own. -/
theorem Inv.ownStep (hs : s.Inv f) (hpeer : 1 ≤ peer) (hown : IsOwn ev)
    (hundisturbed : f.Undisturbed (s.clients peer) ev) (h : s.clientStep peer ev = .ok u) :
    u.Inv f := by
  have hgenuine : f.Genuine (s.clients peer) ev := by
    cases ev with
    | workQueue | checkLocal | edit => trivial
    | _ => exact hown.elim
  have hsystem : System.IsOwn ev := by
    cases ev with
    | workQueue | checkLocal | edit => trivial
    | _ => exact hown.elim
  refine hs.clientStep hpeer ev hgenuine hundisturbed (fun client messages hstep hsound hlists k => ?_)
    (fun owner k heq => ?_) h
  · obtain ⟨hauthor, deletions, hmem⟩ := exists_updatedFiles hsystem hstep hlists
    obtain ⟨-, -, hhas⟩ := hsound _ hmem
    rw [hauthor]
    unfold SharedFile.HasIn System.whoIs
    rw [if_pos rfl, Function.update_self]
    exact hhas hlists k
  · rw [heq] at hown
    exact hown.elim

/-- A client handles an event that adds nothing. -/
theorem Inv.plainStep (hs : s.Inv f) (hpeer : 1 ≤ peer) (ev : ClientEvent)
    (hgenuine : f.Genuine (s.clients peer) ev) (hundisturbed : f.Undisturbed (s.clients peer) ev)
    (hadded : (s.clients peer).added ev = emptyFilesystem)
    (hgot : ∀ owner k, ev = .chunkGot owner f.name k →
      f.HasIn s.clients (System.whoIs peer owner) k.toNat)
    (h : s.clientStep peer ev = .ok u) : u.Inv f := by
  refine hs.clientStep hpeer ev hgenuine hundisturbed (fun client messages _ _ hlists => ?_) hgot h
  rw [hadded] at hlists
  exact absurd hlists not_listsFile_emptyFilesystem

/-- A client handles a message of another client. -/
theorem Inv.peerStep (hs : s.Inv f) (hpeer : 1 ≤ peer) (hsound : f.PeerSound s.clients peer ev)
    (h : s.clientStep peer ev = .ok u) : u.Inv f := by
  cases ev with
  | chunkRequest | chunk => exact hs.plainStep hpeer _ hsound.genuine trivial rfl (fun _ _ => nofun) h
  | _ => exact hsound.elim

/-- A client handles a message of the tracker. -/
theorem Inv.receive (hs : s.Inv f) (hpeer : 1 ≤ peer) (hm : f.MessageSound s.clients m)
    (hundisturbed : f.UndisturbedBy (s.clients peer) m) (h : s.receive peer m = .ok u) : u.Inv f := by
  cases m with
  | peerAdded id => exact hs.plainStep hpeer (.peerAdded id) trivial trivial rfl (fun _ _ => nofun) h
  | peerRemoved id =>
    exact hs.plainStep hpeer (.peerDeleted id) trivial trivial rfl (fun _ _ => nofun) h
  | master fs =>
    exact hs.plainStep hpeer (.master fs) hm hundisturbed rfl (fun _ _ => nofun) h
  | gotChunk owner file k =>
    refine hs.plainStep hpeer (.chunkGot owner file k) trivial trivial rfl ?_ h
    rintro _ _ ⟨⟩
    rw [System.whoIs_of_ne hm.1]
    exact hm.2 rfl
  | fsUpdate originator additions deletions =>
    have hupdate : f.UpdateSound s.clients originator additions deletions := hm
    refine hs.clientStep hpeer (.diff additions deletions originator) hupdate.carries hundisturbed
      (fun client messages hstep _ hlists k => ?_) (fun _ _ => nofun) h
    have hgenuine : f.Genuine (s.clients peer) (.diff additions deletions originator) := hupdate.carries
    obtain ⟨hkeeps, -⟩ := SharedFile.clean_step (hs.clean peer) hgenuine hundisturbed hstep
    show f.HasIn _ (System.whoIs peer originator) k
    rw [System.whoIs_of_ne hupdate.author_ne]
    exact .update hkeeps _ _ (hupdate.has hlists k)
  | masterFiletable ft =>
    cases h
    have htable : f.TableSound s.clients ft := hm
    have hkeeps : f.Keeps (s.clients peer) { s.clients peer with ft := ft } := by
      refine (hs.clean peer).same (hs.clean peer).curFs (fun p file hfile => ?_)
        ((htable.files _).trans (Eq.symm hundisturbed)) rfl
      cases (htable.files p).symm.trans hfile
    have hmono := SharedFile.HasIn.update hkeeps
    refine ⟨hs.fs, hs.tracker.mono hmono, fun q => ?_, fun q => ?_,
      fun x hx => (hs.toTracker x hx).mono hmono, fun x hx => (hs.toClients x hx).mono hmono,
      fun x hx => (hs.toPeers x hx).mono hmono⟩
    · by_cases hq : q = peer
      · subst hq
        simpa only [Function.update_self] using hkeeps.clean
      · simpa only [Function.update_of_ne hq] using hs.clean q
    · by_cases hq : q = peer
      · subst hq
        simpa only [Function.update_self] using htable.client.mono hmono
      · simpa only [Function.update_of_ne hq] using (hs.owners q).mono hmono

theorem Inv.step {e : SwarmEvent} (hs : s.Inv f) (hlegal : s.Legal e) (hundisturbed : f.UndisturbedIn s e)
    (h : s.step e = .ok u) : u.Inv f := by
  cases e with
  | joins peer => exact hs.trackerStep (.newClient peer) trivial h
  | requests peer => exact hs.trackerStep (.masterRequest peer) trivial h
  | leaves peer => exact hs.trackerStep (.lostClient peer) trivial h
  | tracks i =>
    unfold Swarm.step at h
    dsimp only at h
    cases hget : s.toTracker[i]? with
    | none =>
      rw [hget] at h
      cases h
      exact hs
    | some tev =>
      rw [hget] at h
      have hrest : Inv f { s with toTracker := s.toTracker.eraseIdx i } :=
        { hs with toTracker := fun x hx => hs.toTracker x (List.mem_of_mem_eraseIdx hx) }
      exact hrest.trackerStep tev (hs.toTracker _ (List.mem_of_getElem? hget)) h
  | delivers i =>
    unfold Swarm.step at h
    dsimp only at h
    cases hget : s.toClients[i]? with
    | none =>
      rw [hget] at h
      cases h
      exact hs
    | some x =>
      obtain ⟨peer, m⟩ := x
      rw [hget] at h
      have hrest : Inv f { s with toClients := s.toClients.eraseIdx i } :=
        { hs with toClients := fun x hx => hs.toClients x (List.mem_of_mem_eraseIdx hx) }
      exact hrest.receive (hlegal _ hget) (hs.toClients _ (List.mem_of_getElem? hget))
        (hundisturbed _ hget) h
  | answers i =>
    unfold Swarm.step at h
    dsimp only at h
    cases hget : s.toPeers[i]? with
    | none =>
      rw [hget] at h
      cases h
      exact hs
    | some x =>
      obtain ⟨peer, ev⟩ := x
      rw [hget] at h
      have hrest : Inv f { s with toPeers := s.toPeers.eraseIdx i } :=
        { hs with toPeers := fun x hx => hs.toPeers x (List.mem_of_mem_eraseIdx hx) }
      exact hrest.peerStep (hlegal _ hget) (hs.toPeers _ (List.mem_of_getElem? hget)) h
  | loses i =>
    cases h
    exact { hs with toPeers := fun x hx => hs.toPeers x (List.mem_of_mem_eraseIdx hx) }
  | client peer ev => exact hs.ownStep hlegal.1 hlegal.2 hundisturbed h

end Swarm

/-! ## All runs -/

namespace SharedFile

/-- Every chunk of a copy can be taken out of it. -/
theorem IsCopy.exists_getChunk {cf : ChunkyFile} (h : f.IsCopy cf) (hk : IsChunk f.content.length k) :
    ∃ text, chunkyfileGetChunk cf k = .ok text := by
  rw [isChunk_iff (Int.natCast_nonneg _)] at hk
  have hsize := h.size
  have hlength := h.length
  unfold chunkyfileGetChunk
  rw [if_pos]
  · exact ⟨_, rfl⟩
  · rw [chunkLength_of_nonneg (by omega)]
    unfold InBounds chunkOffset chunkyfileChunkSize
    split_ifs <;> omega

/-- A client answers for what it has. -/
theorem Clean.answers (hclean : f.Clean c) (hhas : f.Has c k.toNat) (hk : IsChunk f.content.length k) :
    f.Answers c k := by
  intro peer requestId
  obtain ⟨c', text, hok⟩ : ∃ c' text, receiveChunkRequest c peer f.name k requestId =
      .ok (c', [.chunk peer f.name k text requestId]) := by
    unfold Has at hhas
    unfold receiveChunkRequest
    cases hfile : filetableGetChunkyfile c.ft f.name with
    | some cf =>
      obtain ⟨text, htext⟩ := ((hclean.table _ _ hfile).2 rfl).exists_getChunk hk
      dsimp only
      rw [htext]
      exact ⟨_, _, rfl⟩
    | none =>
      rw [hfile] at hhas
      obtain ⟨mtime, hlookup⟩ := hhas
      have hreader : openForReading c.dir f.name = some (chunkyfileNewForReadingFromPath f.content) := by
        unfold openForReading
        rw [resolve_name, hlookup]
      obtain ⟨text, htext⟩ := (isCopy_reader (f := f)).exists_getChunk hk
      dsimp only
      rw [hreader]
      dsimp only
      rw [htext]
      exact ⟨_, _, rfl⟩
  obtain ⟨-, hsound⟩ := keeps_receiveChunkRequest hclean (fun _ => hhas) hok
  obtain rfl := hsound _ (List.mem_singleton_self _) rfl
  exact ⟨c', hok⟩

end SharedFile

namespace SwarmExample

open OwnershipExample

/-- A file of one byte. -/
def shared : SharedFile where
  path := [.ofBytes [98]]
  content := [7]
  path_ne := by decide
  legal := by decide
  length_lt := by decide
  hasLastChunk := Or.inr (by decide)

def isOwnTest : ClientEvent → Bool
  | .workQueue | .checkLocal _ | .edit _ => true
  | _ => false

def legalTest (s : Swarm) : SwarmEvent → Bool
  | .client peer ev => 1 ≤ peer && isOwnTest ev
  | .delivers i => s.toClients[i]?.all fun x => 1 ≤ x.1
  | .answers i => s.toPeers[i]?.all fun x => 1 ≤ x.1
  | _ => true

theorem legal_of_test (s : Swarm) (e : SwarmEvent) (h : legalTest s e = true) : s.Legal e := by
  cases e with
  | client peer ev =>
    obtain ⟨hpeer, hown⟩ := Bool.and_eq_true_iff.mp h
    refine ⟨of_decide_eq_true hpeer, ?_⟩
    cases ev with
    | workQueue | checkLocal | edit => trivial
    | _ => cases hown
  | delivers i | answers i =>
    intro x hget
    rw [legalTest, Option.mem_def.mp hget, Option.all_some] at h
    exact of_decide_eq_true h
  | _ => trivial

def absentTest (c : Client) : Bool :=
  (filetableGetChunkyfile c.ft shared.name).isNone && (c.dir.lookup shared.path).isNone

def holdsTest (dir : Directory) : Bool :=
  (dir.lookup shared.path).any fun node => match node with
    | .file content _ => content = shared.content
    | .dir => false

theorem holds_of_test {dir : Directory} (h : holdsTest dir = true) :
    ∃ mtime, dir.lookup shared.path = some (.file shared.content mtime) := by
  obtain ⟨node, hlookup, hnode⟩ := (Option.any_eq_true _ _).mp h
  cases node with
  | dir => cases hnode
  | file content mtime =>
    obtain rfl := of_decide_eq_true hnode
    exact ⟨mtime, hlookup⟩

def undisturbedTest (s : Swarm) : SwarmEvent → Bool
  | .client peer (.edit dir) =>
    (filetableGetChunkyfile (s.clients peer).ft shared.name).isNone && holdsTest dir
  | .client peer (.checkLocal _) => decide (shared.Avoids (s.clients peer).localDiff.2)
  | .client _ (.diff _ _ _) | .client _ (.master _) => false
  | .delivers i => s.toClients[i]?.all fun x => match x.2 with
    | .fsUpdate _ _ deletions => decide (shared.Avoids deletions) && absentTest (s.clients x.1)
    | .master _ | .masterFiletable _ => false
    | _ => true
  | _ => true

theorem absent_of_test {c : Client} (h : absentTest c = true) : shared.Absent c := by
  obtain ⟨hfile, hdisk⟩ := Bool.and_eq_true_iff.mp h
  exact ⟨Option.isNone_iff_eq_none.mp hfile, Option.isNone_iff_eq_none.mp hdisk⟩

theorem undisturbed_of_test (s : Swarm) (e : SwarmEvent) (h : undisturbedTest s e = true) :
    shared.UndisturbedIn s e := by
  cases e with
  | client peer ev =>
    cases ev with
    | edit dir =>
      obtain ⟨hfile, hholds⟩ := Bool.and_eq_true_iff.mp h
      exact Or.inr ⟨Option.isNone_iff_eq_none.mp hfile, holds_of_test hholds⟩
    | checkLocal now => exact fun _ => of_decide_eq_true h
    | diff | master => cases h
    | _ => trivial
  | delivers i =>
    intro x hget
    rw [undisturbedTest, Option.mem_def.mp hget, Option.all_some] at h
    obtain ⟨peer, m⟩ := x
    cases m with
    | fsUpdate originator additions deletions =>
      obtain ⟨hdel, habsent⟩ := Bool.and_eq_true_iff.mp h
      exact ⟨of_decide_eq_true hdel, Or.inr (absent_of_test habsent)⟩
    | master | masterFiletable => cases h
    | _ => trivial
  | _ => trivial

end SwarmExample

open SwarmExample

end DartSync
