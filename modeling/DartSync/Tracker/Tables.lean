import DartSync.Tracker.Threads

/-!
# Who knows whom

A client is sent the tracker's peer table when it connects, and again whenever the main thread has told
the network thread that a peer has come or gone. As long as no departure is handled while a client
whose table lists the peer is still queued, the last table that a client has been sent is the
tracker's own, or another is on its way (`tables_current`). Otherwise the client is told neither then
nor later, unless somebody else comes or goes (`tables_stale`).
-/

namespace DartSync

open Runs TrackerThreads

/-! ## The tables that are sent -/

/-- What `serialize_peer_table` writes. -/
def TrackerThreads.table (s : TrackerThreads) : List (ℤ × List UInt8) :=
  s.peers.map fun peer => (peer.id, peer.ipAddr)

/-- What the main thread sends in a turn. -/
def TrackerThreads.sends (s : TrackerThreads) : ThreadEvent → List (ℤ × TrackerMessage)
  | .poll =>
    match s.queues s.point with
    | [] => []
    | ev :: _ =>
      match s.tracker.step ev with
      | .ok (_, sent) => sent
      | .error _ => []
  | _ => []

def TrackerMessage.isPeerAdded : TrackerMessage → Bool
  | .peerAdded _ => true
  | _ => false

def TrackerMessage.isPeerRemoved : TrackerMessage → Bool
  | .peerRemoved _ => true
  | _ => false

/-- The clients that messages of a kind are for. -/
def clientsOf (kind : TrackerMessage → Bool) (sent : List (ℤ × TrackerMessage)) : List ℤ :=
  (sent.filter fun x => kind x.2).map Prod.fst

/-- The threads, the two queues from the main thread whose items are answered with a peer table, by the
clients that they are for, and the last table that each client has been sent. -/
structure TrackerTables where
  threads : TrackerThreads
  addPeerQ : List ℤ
  removePeerQ : List ℤ
  tables : ℤ → Option (List (ℤ × List UInt8))

inductive TablesEvent
  | thread (e : ThreadEvent)
  | checkAddPeer
  | checkRemovePeer

namespace TrackerTables

def initial : TrackerTables where
  threads := .initial
  addPeerQ := []
  removePeerQ := []
  tables _ := none

/-- `send_peer_table_to_client` -/
def sendPeerTable (s : TrackerTables) (client : Peer) : TrackerTables :=
  if client.socketfd < 0 then s
  else { s with tables := Function.update s.tables client.id (some s.threads.table) }

/-- The answer to an item of one of the queues. -/
def answer (s : TrackerTables) (clientId : ℤ) : TrackerTables :=
  match getPeerById s.threads.peers clientId with
  | none => s
  | some client => s.sendPeerTable client

/-- A turn of `check_add_peer_q`. -/
def checkAddPeerQ (s : TrackerTables) : TrackerTables :=
  match s.addPeerQ with
  | [] => s
  | clientId :: rest => { s with addPeerQ := rest }.answer clientId

/-- A turn of `check_remove_peer_q`. -/
def checkRemovePeerQ (s : TrackerTables) : TrackerTables :=
  match s.removePeerQ with
  | [] => s
  | clientId :: rest => { s with removePeerQ := rest }.answer clientId

/-- A step of the threads; a new client is sent the table that it is in. -/
def stepThreads (s : TrackerTables) (e : ThreadEvent) (threads : TrackerThreads) : TrackerTables :=
  let s' : TrackerTables :=
    { s with
      threads := threads
      addPeerQ := s.addPeerQ ++ clientsOf TrackerMessage.isPeerAdded (s.threads.sends e)
      removePeerQ := s.removePeerQ ++ clientsOf TrackerMessage.isPeerRemoved (s.threads.sends e) }
  match e with
  | .accept ipAddr sockfd _ => s'.sendPeerTable ⟨s.threads.idCounter, ipAddr, sockfd⟩
  | _ => s'

def step (s : TrackerTables) : TablesEvent → Except Abort TrackerTables
  | .thread e => (s.threads.step e).map (s.stepThreads e)
  | .checkAddPeer => .ok s.checkAddPeerQ
  | .checkRemovePeer => .ok s.checkRemovePeerQ

/-- The peers that are listed in the last table that the client has been sent. -/
def listed (s : TrackerTables) (c : ℤ) : List ℤ := ((s.tables c).getD []).map Prod.fst

/-! ## What a step does -/

variable {s t : TrackerTables} {c d : ℤ}

theorem getPeerById_eq_some {peers : List Peer} {client : Peer}
    (h : getPeerById peers c = some client) : client ∈ peers ∧ client.id = c := by
  unfold getPeerById at h
  split_ifs at h
  exact ⟨List.mem_of_find?_eq_some h, by simpa using List.find?_some h⟩

theorem sends_eq_nil {s : TrackerThreads} {e : ThreadEvent} (h : e ≠ .poll) : s.sends e = [] := by
  cases e with
  | poll => exact absurd rfl h
  | accept | message | disconnect | expire => rfl

theorem sends_advanced {s : TrackerThreads} (h : s.queues s.point = []) : s.sends .poll = [] := by
  unfold TrackerThreads.sends
  rw [h]

theorem sends_took {s : TrackerThreads} {ev : TrackerEvent} {rest : List TrackerEvent}
    {tracker : Tracker} {sent : List (ℤ × TrackerMessage)} (hqueue : s.queues s.point = ev :: rest)
    (hstep : s.tracker.step ev = .ok (tracker, sent)) : s.sends .poll = sent := by
  unfold TrackerThreads.sends
  rw [hqueue]
  dsimp only
  rw [hstep]

theorem clientsOf_append (kind : TrackerMessage → Bool) (sent sent' : List (ℤ × TrackerMessage)) :
    clientsOf kind (sent ++ sent') = clientsOf kind sent ++ clientsOf kind sent' := by
  unfold clientsOf
  rw [List.filter_append, List.map_append]

/-- The clients of a broadcast. -/
theorem mem_clientsOf_broadcast {kind : TrackerMessage → Bool} {message : TrackerMessage}
    {pt : PeerTable} {butTo : ℤ} : c ∈ clientsOf kind (broadcast pt butTo message) ↔
      kind message = true ∧ c ∈ pt.peerIDs ∧ c ≠ -1 ∧ c ≠ butTo ∧ c ≠ 0 := by
  simp only [clientsOf, broadcast, List.mem_map, List.mem_filter, decide_eq_true_eq, Prod.exists,
    exists_and_right, exists_eq_right]
  constructor
  · rintro ⟨m, ⟨id, hid, hm⟩, hkind⟩
    cases hm
    exact ⟨hkind, hid⟩
  · rintro ⟨hkind, hc⟩
    exact ⟨message, ⟨c, hc, rfl⟩, hkind⟩

theorem mem_clientsOf_of_mem_peers {kind : TrackerMessage → Bool} {message : TrackerMessage}
    {pt : PeerTable} {butTo : ℤ} (hkind : kind message = true) (hc : c ∈ pt.peers)
    (hne : c ≠ butTo) : c ∈ clientsOf kind (broadcast pt butTo message) := by
  obtain ⟨hslot, hpos⟩ := mem_peers.mp hc
  exact mem_clientsOf_broadcast.mpr ⟨hkind, hslot, by omega, hne, by omega⟩

@[simp] theorem sendPeerTable_threads (s : TrackerTables) (client : Peer) :
    (s.sendPeerTable client).threads = s.threads := by
  unfold sendPeerTable
  split_ifs <;> rfl

@[simp] theorem sendPeerTable_addPeerQ (s : TrackerTables) (client : Peer) :
    (s.sendPeerTable client).addPeerQ = s.addPeerQ := by
  unfold sendPeerTable
  split_ifs <;> rfl

@[simp] theorem sendPeerTable_removePeerQ (s : TrackerTables) (client : Peer) :
    (s.sendPeerTable client).removePeerQ = s.removePeerQ := by
  unfold sendPeerTable
  split_ifs <;> rfl

theorem sendPeerTable_tables_ne {client : Peer} (h : c ≠ client.id) :
    (s.sendPeerTable client).tables c = s.tables c := by
  unfold sendPeerTable
  split_ifs
  · rfl
  · exact Function.update_of_ne h _ _

theorem sendPeerTable_tables {client : Peer} (h : 0 ≤ client.socketfd) :
    (s.sendPeerTable client).tables client.id = some s.threads.table := by
  unfold sendPeerTable
  rw [if_neg (not_lt.mpr h)]
  exact Function.update_self _ _ _

@[simp] theorem answer_threads (s : TrackerTables) (c : ℤ) : (s.answer c).threads = s.threads := by
  unfold answer
  split
  · rfl
  · exact sendPeerTable_threads _ _

@[simp] theorem answer_addPeerQ (s : TrackerTables) (c : ℤ) : (s.answer c).addPeerQ = s.addPeerQ := by
  unfold answer
  split
  · rfl
  · exact sendPeerTable_addPeerQ _ _

@[simp] theorem answer_removePeerQ (s : TrackerTables) (c : ℤ) :
    (s.answer c).removePeerQ = s.removePeerQ := by
  unfold answer
  split
  · rfl
  · exact sendPeerTable_removePeerQ _ _

theorem answer_tables_ne (h : c ≠ d) : (s.answer d).tables c = s.tables c := by
  unfold answer
  cases hfind : getPeerById s.threads.peers d with
  | none => rfl
  | some client =>
    obtain rfl : client.id = d := (getPeerById_eq_some hfind).2
    exact sendPeerTable_tables_ne h

/-- A client that is in the table is found there and answered. -/
theorem answer_tables (hsockets : ∀ peer ∈ s.threads.peers, 0 ≤ peer.socketfd) (hpos : 1 ≤ c)
    (hc : c ∈ s.threads.ids) : (s.answer c).tables c = some s.threads.table := by
  unfold answer
  cases hfind : getPeerById s.threads.peers c with
  | none =>
    unfold getPeerById at hfind
    rw [if_neg (by omega), List.find?_eq_none] at hfind
    obtain ⟨peer, hpeer, rfl⟩ := List.mem_map.mp hc
    exact absurd (decide_eq_true rfl) (hfind peer hpeer)
  | some client =>
    obtain ⟨hclient, rfl⟩ := getPeerById_eq_some hfind
    exact sendPeerTable_tables (hsockets client hclient)

@[simp] theorem stepThreads_threads (s : TrackerTables) (e : ThreadEvent) (threads : TrackerThreads) :
    (s.stepThreads e threads).threads = threads := by
  cases e with
  | accept => exact sendPeerTable_threads _ _
  | message | disconnect | expire | poll => rfl

@[simp] theorem stepThreads_addPeerQ (s : TrackerTables) (e : ThreadEvent) (threads : TrackerThreads) :
    (s.stepThreads e threads).addPeerQ =
      s.addPeerQ ++ clientsOf TrackerMessage.isPeerAdded (s.threads.sends e) := by
  cases e with
  | accept => exact sendPeerTable_addPeerQ _ _
  | message | disconnect | expire | poll => rfl

@[simp] theorem stepThreads_removePeerQ (s : TrackerTables) (e : ThreadEvent) (threads : TrackerThreads) :
    (s.stepThreads e threads).removePeerQ =
      s.removePeerQ ++ clientsOf TrackerMessage.isPeerRemoved (s.threads.sends e) := by
  cases e with
  | accept => exact sendPeerTable_removePeerQ _ _
  | message | disconnect | expire | poll => rfl

/-- Only a new client is sent a table at once. -/
theorem stepThreads_tables {e : ThreadEvent} (threads : TrackerThreads)
    (h : ∀ ipAddr sockfd slot, e = .accept ipAddr sockfd slot → c ≠ s.threads.idCounter) :
    (s.stepThreads e threads).tables c = s.tables c := by
  cases e with
  | accept ipAddr sockfd slot => exact sendPeerTable_tables_ne (h ipAddr sockfd slot rfl)
  | message | disconnect | expire | poll => rfl

/-! ## What always holds -/

/-- The peers have sockets, the connections are queued in the order of their ids, and no client is told
about others before the main thread has handled its own connection. -/
structure Sound (s : TrackerTables) : Prop where
  refines : s.threads.Refines
  fresh : s.threads.Fresh
  sockets : ∀ peer ∈ s.threads.peers, 0 ≤ peer.socketfd
  ascending : s.threads.arrivals.Pairwise (· < ·)
  known : ∀ c ∈ s.addPeerQ ++ s.removePeerQ, c < s.threads.idCounter ∧ c ∉ s.threads.arrivals

theorem Sound.main_or_arrival (hs : s.Sound) (hc : c ∈ s.threads.ids) :
    c ∈ s.threads.tracker.peerTable.peers ∨ c ∈ s.threads.arrivals :=
  List.mem_append.mp (hs.fresh.perm.mem_iff.mpr (List.mem_append_left _ hc))

theorem sound_initial : Sound initial where
  refines := refines_initial
  fresh := fresh_initial
  sockets _ h := absurd h List.not_mem_nil
  ascending := .nil
  known _ h := absurd h List.not_mem_nil

/-- What the main thread sends about peers goes to those in its table. -/
theorem mem_peerIDs_of_told {tr tr' : Tracker} {ev : TrackerEvent} {sent : List (ℤ × TrackerMessage)}
    (h : tr.step ev = .ok (tr', sent))
    (hc : c ∈ clientsOf TrackerMessage.isPeerAdded sent ++ clientsOf TrackerMessage.isPeerRemoved sent) :
    c ∈ tr'.peerTable.peerIDs ∧ c ≠ ev.peer := by
  have hbroadcast : ∀ kind pt message, c ∈ clientsOf kind (broadcast pt ev.peer message) →
      c ∈ pt.peerIDs ∧ c ≠ ev.peer := fun kind pt message hc =>
    have hc := (mem_clientsOf_broadcast.mp hc).2
    ⟨hc.1, hc.2.2.1⟩
  cases trackerStep h with
  | joined => exact (List.mem_append.mp hc).elim (hbroadcast _ _ _) (hbroadcast _ _ _)
  | requested | dropped => cases hc
  | got | updated =>
    exact (List.mem_append.mp hc).elim (hbroadcast _ _ _) (hbroadcast _ _ _)
  | @left peerID peerTable fs ft sent hremove hprune =>
    have hmasters : ∀ kind : TrackerMessage → Bool, (∀ fs, kind (.master fs) = false) →
        clientsOf kind sent = [] := by
      intro kind hkind
      obtain ⟨st, -, h⟩ := bind_eq_ok.mp hprune
      cases h
      refine List.map_eq_nil_iff.mpr (List.filter_eq_nil_iff.mpr fun x hx => ?_)
      split_ifs at hx
      · cases hx
      · obtain ⟨id, -, rfl⟩ := List.mem_map.mp hx
        simp [hkind]
    rw [clientsOf_append, clientsOf_append, hmasters _ fun _ => rfl, hmasters _ fun _ => rfl,
      List.append_nil, List.append_nil] at hc
    exact (List.mem_append.mp hc).elim (hbroadcast _ _ _) (hbroadcast _ _ _)

variable {s t : TrackerTables} {e : ThreadEvent} {threads : TrackerThreads}

theorem arrival_lt {s : TrackerThreads} (h : s.Fresh) {id : ℤ} (hid : id ∈ s.arrivals) :
    1 ≤ id ∧ id < s.idCounter :=
  h.bounds id (h.perm.mem_iff.mp (List.mem_append_right _ hid))

/-- The connections stay in their order. -/
theorem ascending_steps {s t : TrackerThreads} (h : s.arrivals.Pairwise (· < ·)) (hf : s.Fresh)
    (hstep : Steps s e t) : t.arrivals.Pairwise (· < ·) := by
  cases hstep with
  | accepted =>
    rw [arrivals_accepted, List.pairwise_append]
    refine ⟨h, List.pairwise_singleton _ _, fun id hid x hx => ?_⟩
    rw [List.mem_singleton.mp hx]
    exact (arrival_lt hf hid).2
  | ignored | advanced => exact h
  | received hnew =>
    rw [arrivals_push, if_neg hnew.symm, List.append_nil]
    exact h
  | lost =>
    rw [arrivals_losePeer]
    exact h
  | @took ev rest tracker sent hqueue =>
    rw [arrivals_took]
    split_ifs with hpoint
    · unfold arrivals at h
      rw [hpoint, hqueue, List.map_cons] at h
      exact h.tail
    · exact h

theorem sockets_steps {s t : TrackerThreads} (h : ∀ peer ∈ s.peers, 0 ≤ peer.socketfd)
    (hstep : Steps s e t) : ∀ peer ∈ t.peers, 0 ≤ peer.socketfd := by
  cases hstep with
  | accepted hsockfd =>
    intro peer hpeer
    rcases (List.mem_insertIdx (Nat.min_le_right _ _)).mp hpeer with rfl | hpeer
    · exact hsockfd
    · exact h peer hpeer
  | ignored | advanced | received | took => exact h
  | lost => exact fun peer hpeer => h peer (List.mem_of_mem_eraseP hpeer)

/-- No connection is queued again. -/
theorem arrivals_subset {s t : TrackerThreads} (hstep : Steps s e t) {id : ℤ} (h : id ∈ t.arrivals) :
    id ∈ s.arrivals ∨ id = s.idCounter := by
  cases hstep with
  | accepted =>
    rw [arrivals_accepted] at h
    exact (List.mem_append.mp h).imp_right List.mem_singleton.mp
  | ignored | advanced => exact Or.inl h
  | received hnew =>
    rw [arrivals_push, if_neg hnew.symm, List.append_nil] at h
    exact Or.inl h
  | lost =>
    rw [arrivals_losePeer] at h
    exact Or.inl h
  | @took ev rest tracker sent hqueue =>
    rw [arrivals_took] at h
    split_ifs at h with hpoint
    · refine Or.inl ?_
      unfold arrivals
      rw [hpoint, hqueue]
      exact List.mem_cons_of_mem _ h
    · exact Or.inl h

theorem idCounter_le {s t : TrackerThreads} (hstep : Steps s e t) : s.idCounter ≤ t.idCounter := by
  cases hstep with
  | accepted => exact (Int.lt_succ _).le
  | ignored | advanced | received | lost | took => exact le_refl _

theorem Sound.stepThreads (hs : s.Sound) (hstep : s.threads.step e = .ok threads) :
    (s.stepThreads e threads).Sound where
  refines := by
    rw [stepThreads_threads]
    exact hs.refines.steps (steps_of_step hstep)
  fresh := by
    rw [stepThreads_threads]
    exact hs.fresh.steps hs.refines (steps_of_step hstep)
  sockets := by
    rw [stepThreads_threads]
    exact sockets_steps hs.sockets (steps_of_step hstep)
  ascending := by
    rw [stepThreads_threads]
    exact ascending_steps hs.ascending hs.fresh (steps_of_step hstep)
  known c hc := by
    have hfresh := hs.fresh.steps hs.refines (steps_of_step hstep)
    rw [stepThreads_threads]
    rw [stepThreads_addPeerQ, stepThreads_removePeerQ] at hc
    have hc : c ∈ s.addPeerQ ++ s.removePeerQ ∨
        c ∈ clientsOf TrackerMessage.isPeerAdded (s.threads.sends e) ++
          clientsOf TrackerMessage.isPeerRemoved (s.threads.sends e) := by
      simp only [List.mem_append] at hc ⊢
      tauto
    rcases hc with hc | hc
    · obtain ⟨hlt, hnot⟩ := hs.known c hc
      refine ⟨lt_of_lt_of_le hlt (idCounter_le (steps_of_step hstep)), fun harrival => ?_⟩
      exact (arrivals_subset (steps_of_step hstep) harrival).elim hnot hlt.ne
    · cases steps_of_step hstep with
      | accepted | received =>
        rw [sends_eq_nil (by simp)] at hc
        cases hc
      | ignored hpoll =>
        rw [sends_eq_nil hpoll] at hc
        cases hc
      | lost hloses =>
        rw [sends_eq_nil (by rintro rfl; cases hloses)] at hc
        cases hc
      | advanced hempty =>
        rw [sends_advanced hempty] at hc
        cases hc
      | @took ev rest tracker sent hqueue hev =>
        rw [sends_took hqueue hev] at hc
        by_cases hpos : 1 ≤ c
        · have hpeer := mem_peers.mpr ⟨(mem_peerIDs_of_told hev hc).1, hpos⟩
          have hperm := hfresh.perm
          refine ⟨(hfresh.bounds c (hperm.mem_iff.mp (List.mem_append_left _ hpeer))).2, ?_⟩
          exact List.disjoint_of_nodup_append (hperm.nodup_iff.mpr hfresh.nodup) hpeer
        · refine ⟨lt_of_lt_of_le (by omega) hs.fresh.counter, fun harrival => hpos ?_⟩
          exact (arrival_lt hfresh harrival).1

theorem Sound.checkAddPeerQ (hs : s.Sound) : s.checkAddPeerQ.Sound := by
  unfold TrackerTables.checkAddPeerQ
  cases hqueue : s.addPeerQ with
  | nil => exact hs
  | cons clientId rest =>
    refine ⟨by simpa using hs.refines, by simpa using hs.fresh, by simpa using hs.sockets,
      by simpa using hs.ascending, fun c hc => ?_⟩
    rw [answer_addPeerQ, answer_removePeerQ] at hc
    rw [answer_threads]
    refine hs.known c ?_
    rw [hqueue]
    exact List.mem_cons_of_mem _ hc

theorem Sound.checkRemovePeerQ (hs : s.Sound) : s.checkRemovePeerQ.Sound := by
  unfold TrackerTables.checkRemovePeerQ
  cases hqueue : s.removePeerQ with
  | nil => exact hs
  | cons clientId rest =>
    refine ⟨by simpa using hs.refines, by simpa using hs.fresh, by simpa using hs.sockets,
      by simpa using hs.ascending, fun c hc => ?_⟩
    rw [answer_addPeerQ, answer_removePeerQ] at hc
    rw [answer_threads]
    refine hs.known c ?_
    rw [hqueue]
    exact (List.mem_append.mp hc).elim (List.mem_append_left _)
      fun h => List.mem_append_right _ (List.mem_cons_of_mem _ h)

/-- What one step of the threads or of a check function does. -/
theorem step_cases {e : TablesEvent} (h : s.step e = .ok t) :
    (∃ e' threads, e = .thread e' ∧ s.threads.step e' = .ok threads ∧
      t = s.stepThreads e' threads) ∨
    e = .checkAddPeer ∧ t = s.checkAddPeerQ ∨ e = .checkRemovePeer ∧ t = s.checkRemovePeerQ := by
  cases e with
  | thread e' =>
    have h : (s.threads.step e').map (s.stepThreads e') = .ok t := h
    cases hstep : s.threads.step e' with
    | error a =>
      rw [hstep] at h
      cases h
    | ok threads =>
      rw [hstep] at h
      cases h
      exact Or.inl ⟨e', threads, rfl, hstep, rfl⟩
  | checkAddPeer =>
    cases h
    exact Or.inr (Or.inl ⟨rfl, rfl⟩)
  | checkRemovePeer =>
    cases h
    exact Or.inr (Or.inr ⟨rfl, rfl⟩)

theorem Sound.step {e : TablesEvent} (hs : s.Sound) (h : s.step e = .ok t) : t.Sound := by
  obtain ⟨e', threads, rfl, hstep, rfl⟩ | ⟨rfl, rfl⟩ | ⟨rfl, rfl⟩ := step_cases h
  · exact hs.stepThreads hstep
  · exact hs.checkAddPeerQ
  · exact hs.checkRemovePeerQ

/-! ## Tables that are current -/

/-- The last table that the client has been sent is the tracker's, or a reason for the next one is
queued: in one of the two queues, or a connection after its own, or a departure of somebody who is
listed. -/
def Told (s : TrackerTables) (c : ℤ) : Prop :=
  s.tables c = some s.threads.table ∨ c ∈ s.addPeerQ ∨ c ∈ s.removePeerQ ∨
    (∃ a ∈ s.threads.arrivals, c < a) ∨ ∃ d ∈ s.threads.departures, d ∈ s.listed c

/-- No departure is handled that a queued client should hear of. -/
def InOrder (s : TrackerTables) (e : TablesEvent) : Prop :=
  match e with
  | .thread .poll => s.threads.point = .lostClients → ∀ d ∈ s.threads.departures.head?,
      ∀ a ∈ s.threads.arrivals, d ∉ s.listed a
  | _ => True

instance (s : TrackerTables) (e : TablesEvent) : Decidable (s.InOrder e) :=
  match e with
  | .thread .poll => inferInstanceAs (Decidable (s.threads.point = .lostClients →
      ∀ d ∈ s.threads.departures.head?, ∀ a ∈ s.threads.arrivals, d ∉ s.listed a))
  | .thread (.accept _ _ _) | .thread (.message _ _) | .thread (.disconnect _) | .thread (.expire _)
  | .checkAddPeer | .checkRemovePeer => isTrue trivial

theorem listed_eq (h : t.tables c = s.tables c) : t.listed c = s.listed c := by
  unfold listed
  rw [h]

theorem Told.mono (h : s.Told c) (htables : t.tables c = s.tables c)
    (htable : t.threads.table = s.threads.table) (hadd : s.addPeerQ ⊆ t.addPeerQ)
    (hremove : s.removePeerQ ⊆ t.removePeerQ) (harrivals : s.threads.arrivals ⊆ t.threads.arrivals)
    (hdepartures : s.threads.departures ⊆ t.threads.departures) : t.Told c := by
  unfold Told
  rw [htables, htable, listed_eq htables]
  rcases h with h | h | h | ⟨a, ha, hlt⟩ | ⟨d, hd, hlisted⟩
  · exact Or.inl h
  · exact Or.inr (Or.inl (hadd h))
  · exact Or.inr (Or.inr (Or.inl (hremove h)))
  · exact Or.inr (Or.inr (Or.inr (Or.inl ⟨a, harrivals ha, hlt⟩)))
  · exact Or.inr (Or.inr (Or.inr (Or.inr ⟨d, hdepartures hd, hlisted⟩)))

theorem mem_ids_accepted {s : TrackerThreads} {ipAddr : List UInt8} {sockfd : ℤ} {slot : ℕ} :
    c ∈ ((s.addPeer ipAddr sockfd slot).push (.newClient s.idCounter)).ids ↔
      c = s.idCounter ∨ c ∈ s.ids := by
  rw [← List.mem_cons]
  exact (ids_addPeer s ipAddr sockfd slot).mem_iff

/-- A client that connects is sent the table that it is in; to the others its connection is news. -/
theorem told_accepted {ipAddr : List UInt8} {sockfd : ℤ} {slot : ℕ} (hs : s.Sound) (hsockfd : 0 ≤ sockfd)
    (hstep : threads = (s.threads.addPeer ipAddr sockfd slot).push (.newClient s.threads.idCounter))
    (hc : c ∈ threads.ids) : (s.stepThreads (.accept ipAddr sockfd slot) threads).Told c := by
  rw [hstep, mem_ids_accepted] at hc
  rcases hc with rfl | hc
  · refine Or.inl ?_
    rw [stepThreads_threads]
    exact sendPeerTable_tables hsockfd
  · refine Or.inr (Or.inr (Or.inr (Or.inl ⟨s.threads.idCounter, ?_, ?_⟩)))
    · rw [stepThreads_threads, hstep, arrivals_accepted]
      exact List.mem_append_right _ List.mem_cons_self
    · exact (hs.fresh.bounds c (List.mem_append_left _ hc)).2

theorem mem_ids_of_losePeer {s : TrackerThreads} (h : c ∈ (s.losePeer d).ids) : c ∈ s.ids :=
  (List.eraseP_sublist.map Peer.id).subset h

/-- Whoever leaves is listed in every table that was current. -/
theorem told_lost {client : Peer} (htold : s.Told c)
    (he : ∀ ipAddr sockfd slot, e = .accept ipAddr sockfd slot → c ≠ s.threads.idCounter)
    (hclient : client ∈ s.threads.peers) :
    (s.stepThreads e (s.threads.losePeer client.id)).Told c := by
  have htables := stepThreads_tables (s := s) (s.threads.losePeer client.id) he
  unfold Told
  rw [htables, listed_eq htables, stepThreads_addPeerQ, stepThreads_removePeerQ, stepThreads_threads,
    arrivals_losePeer, departures_losePeer]
  rcases htold with h | h | h | h | ⟨d, hd, hlisted⟩
  · refine Or.inr (Or.inr (Or.inr (Or.inr ⟨client.id, ?_, ?_⟩)))
    · exact List.mem_append_right _ List.mem_cons_self
    · unfold listed
      rw [h]
      unfold TrackerThreads.table
      rw [Option.getD_some, List.map_map]
      exact List.mem_map.mpr ⟨client, hclient, rfl⟩
  · exact Or.inr (Or.inl (List.mem_append_left _ h))
  · exact Or.inr (Or.inr (Or.inl (List.mem_append_left _ h)))
  · exact Or.inr (Or.inr (Or.inr (Or.inl h)))
  · exact Or.inr (Or.inr (Or.inr (Or.inr ⟨d, List.mem_append_left _ hd, hlisted⟩)))

/-- The main thread tells all but the new client, whose connection is the first that is queued. -/
theorem told_joined {a : ℤ} {rest : List TrackerEvent} {tracker : Tracker}
    {sent : List (ℤ × TrackerMessage)} (hs : s.Sound)
    (hqueue : s.threads.queues s.threads.point = .newClient a :: rest)
    (hev : s.threads.tracker.step (.newClient a) = .ok (tracker, sent)) (hc : c ∈ s.threads.ids)
    (htold : s.Told c) :
    (s.stepThreads .poll (s.threads.took rest tracker (.newClient a))).Told c := by
  have hfirst : TrackerEvent.newClient a ∈ s.threads.queues s.threads.point := by
    rw [hqueue]
    exact List.mem_cons_self
  have hpoint : .newClients = s.threads.point := hs.refines.poll_eq hfirst
  have harrivals : s.threads.arrivals = a :: rest.map TrackerEvent.peer := by
    unfold arrivals
    rw [hpoint, hqueue]
    rfl
  unfold Told
  rw [stepThreads_addPeerQ, stepThreads_removePeerQ, stepThreads_threads, arrivals_took,
    if_pos hpoint, departures_took, if_neg (by rw [← hpoint]; decide), sends_took hqueue hev]
  rcases htold with h | h | h | ⟨a', ha', hlt⟩ | h
  · exact Or.inl h
  · exact Or.inr (Or.inl (List.mem_append_left _ h))
  · exact Or.inr (Or.inr (Or.inl (List.mem_append_left _ h)))
  · rw [harrivals, List.mem_cons] at ha'
    rcases ha' with rfl | ha'
    · -- the client's own connection has been handled before
      have hascending := hs.ascending
      rw [harrivals, List.pairwise_cons] at hascending
      have hpeer : c ∈ s.threads.tracker.peerTable.peers := by
        refine (hs.main_or_arrival hc).resolve_right fun harrival => ?_
        rw [harrivals, List.mem_cons] at harrival
        rcases harrival with rfl | harrival
        · exact lt_irrefl _ hlt
        · exact lt_asymm hlt (hascending.1 c harrival)
      have harrival : a' ∈ s.threads.arrivals := by
        rw [harrivals]
        exact List.mem_cons_self
      have hnew : a' ∉ s.threads.tracker.peerTable.peers := fun hpeer' =>
        List.disjoint_of_nodup_append (hs.fresh.perm.nodup_iff.mpr hs.fresh.nodup) hpeer' harrival
      have hperm := peers_addPeerToTable (arrival_lt hs.fresh harrival).1 hnew
      cases hev
      exact Or.inr (Or.inl (List.mem_append_right _ (mem_clientsOf_of_mem_peers rfl
        (hperm.mem_iff.mpr (List.mem_cons_of_mem _ hpeer)) hlt.ne)))
    · exact Or.inr (Or.inr (Or.inr (Or.inl ⟨a', ha', hlt⟩)))
  · exact Or.inr (Or.inr (Or.inr (Or.inr h)))

/-- The main thread tells all that are in its table; whoever is not has been sent a table without the
client that has left. -/
theorem told_left {d : ℤ} {rest : List TrackerEvent} {tracker : Tracker}
    {sent : List (ℤ × TrackerMessage)} (hs : s.Sound) (horder : s.InOrder (.thread .poll))
    (hqueue : s.threads.queues s.threads.point = .lostClient d :: rest)
    (hev : s.threads.tracker.step (.lostClient d) = .ok (tracker, sent)) (hc : c ∈ s.threads.ids)
    (htold : s.Told c) :
    (s.stepThreads .poll (s.threads.took rest tracker (.lostClient d))).Told c := by
  have hfirst : TrackerEvent.lostClient d ∈ s.threads.queues s.threads.point := by
    rw [hqueue]
    exact List.mem_cons_self
  have hpoint : .lostClients = s.threads.point := hs.refines.poll_eq hfirst
  have hdepartures : s.threads.departures = d :: rest.map TrackerEvent.peer := by
    unfold departures
    rw [hpoint, hqueue]
    rfl
  unfold Told
  rw [stepThreads_addPeerQ, stepThreads_removePeerQ, stepThreads_threads, arrivals_took,
    if_neg (by rw [← hpoint]; decide), departures_took, if_pos hpoint, sends_took hqueue hev]
  rcases htold with h | h | h | h | ⟨d', hd', hlisted⟩
  · exact Or.inl h
  · exact Or.inr (Or.inl (List.mem_append_left _ h))
  · exact Or.inr (Or.inr (Or.inl (List.mem_append_left _ h)))
  · exact Or.inr (Or.inr (Or.inr (Or.inl h)))
  · rw [hdepartures, List.mem_cons] at hd'
    rcases hd' with rfl | hd'
    · have hnot : c ∉ s.threads.arrivals := fun harrival =>
        horder hpoint.symm d' (by rw [hdepartures]; rfl) c harrival hlisted
      have hne : c ≠ d' := fun h => List.disjoint_of_nodup_append hs.fresh.nodup hc
        (by rw [hdepartures, h]; exact List.mem_cons_self)
      cases trackerStep hev with
      | @left _ peerTable fs ft sent hremoved =>
        have hpeer : c ∈ peerTable.peers := by
          rw [(peers_removePeerFromTable hremoved).1]
          exact (List.mem_erase_of_ne hne).mpr ((hs.main_or_arrival hc).resolve_right hnot)
        rw [clientsOf_append TrackerMessage.isPeerRemoved]
        exact Or.inr (Or.inr (Or.inl (List.mem_append_right _
          (List.mem_append_left _ (mem_clientsOf_of_mem_peers rfl hpeer hne)))))
    · exact Or.inr (Or.inr (Or.inr (Or.inr ⟨d', hd', hlisted⟩)))

/-- The main thread has handled a message of the network thread. -/
theorem told_took {ev : TrackerEvent} {rest : List TrackerEvent} {tracker : Tracker}
    {sent : List (ℤ × TrackerMessage)} (hs : s.Sound) (horder : s.InOrder (.thread .poll))
    (hqueue : s.threads.queues s.threads.point = ev :: rest)
    (hev : s.threads.tracker.step ev = .ok (tracker, sent)) (hc : c ∈ s.threads.ids)
    (htold : s.Told c) : (s.stepThreads .poll (s.threads.took rest tracker ev)).Told c := by
  have hpoint : ev.poll = s.threads.point :=
    hs.refines.poll_eq (by rw [hqueue]; exact List.mem_cons_self)
  cases ev with
  | newClient a => exact told_joined hs hqueue hev hc htold
  | lostClient d => exact told_left hs horder hqueue hev hc htold
  | masterRequest | clientGot | clientUpdate =>
    refine htold.mono rfl rfl (List.subset_append_left _ _) (List.subset_append_left _ _) ?_ ?_
    · rw [stepThreads_threads, arrivals_took, if_neg (by rw [← hpoint]; simp [TrackerEvent.poll])]
      exact List.Subset.refl _
    · rw [stepThreads_threads, departures_took, if_neg (by rw [← hpoint]; simp [TrackerEvent.poll])]
      exact List.Subset.refl _

theorem told_stepThreads (hs : s.Sound) (htold : ∀ c ∈ s.threads.ids, s.Told c)
    (horder : s.InOrder (.thread e)) (hstep : s.threads.step e = .ok threads)
    (hc : c ∈ threads.ids) : (s.stepThreads e threads).Told c := by
  have hold : c ∈ s.threads.ids → c ≠ s.threads.idCounter := fun hc =>
    (hs.fresh.bounds c (List.mem_append_left _ hc)).2.ne
  cases steps_of_step hstep with
  | accepted hsockfd => exact told_accepted hs hsockfd rfl hc
  | ignored =>
    exact (htold c hc).mono (stepThreads_tables _ fun _ _ _ _ => hold hc)
      (by rw [stepThreads_threads]) (by rw [stepThreads_addPeerQ]; exact List.subset_append_left _ _)
      (by rw [stepThreads_removePeerQ]; exact List.subset_append_left _ _)
      (by rw [stepThreads_threads]; exact List.Subset.refl _)
      (by rw [stepThreads_threads]; exact List.Subset.refl _)
  | received hnew hlost =>
    refine (htold c hc).mono rfl rfl ?_ ?_ ?_ ?_
    · exact List.subset_append_left _ _
    · exact List.subset_append_left _ _
    · rw [stepThreads_threads, arrivals_push]
      exact List.subset_append_left _ _
    · rw [stepThreads_threads, departures_push]
      exact List.subset_append_left _ _
  | lost hloses =>
    have hc := mem_ids_of_losePeer hc
    exact told_lost (htold c hc) (fun _ _ _ _ => hold hc) (mem_of_loses hloses)
  | advanced =>
    exact (htold c hc).mono rfl rfl (List.subset_append_left _ _) (List.subset_append_left _ _)
      (List.Subset.refl _) (List.Subset.refl _)
  | took hqueue hev => exact told_took hs horder hqueue hev hc (htold c hc)

/-- An item that is taken from a queue is answered with the current table. -/
theorem told_answer (hs : s.Sound) {clientId : ℤ} {addPeerQ removePeerQ : List ℤ}
    (hadd : ∀ c ∈ s.addPeerQ, c = clientId ∨ c ∈ addPeerQ)
    (hremove : ∀ c ∈ s.removePeerQ, c = clientId ∨ c ∈ removePeerQ) (hc : c ∈ s.threads.ids)
    (htold : s.Told c) :
    ({ s with addPeerQ := addPeerQ, removePeerQ := removePeerQ }.answer clientId).Told c := by
  unfold Told
  rw [answer_addPeerQ, answer_removePeerQ, answer_threads]
  by_cases h : c = clientId
  · subst h
    exact Or.inl (answer_tables hs.sockets (hs.fresh.bounds c (List.mem_append_left _ hc)).1 hc)
  · rw [listed_eq (answer_tables_ne h), answer_tables_ne h]
    exact htold.imp_right (Or.imp (fun hq => (hadd c hq).resolve_left h)
      (Or.imp_left fun hq => (hremove c hq).resolve_left h))

theorem told_checkAddPeerQ (hs : s.Sound) (hc : c ∈ s.threads.ids) (htold : s.Told c) :
    s.checkAddPeerQ.Told c := by
  unfold checkAddPeerQ
  cases hqueue : s.addPeerQ with
  | nil => exact htold
  | cons clientId rest =>
    refine told_answer hs (fun c hc => ?_) (fun c hc => Or.inr hc) hc htold
    rw [hqueue] at hc
    exact List.mem_cons.mp hc

theorem told_checkRemovePeerQ (hs : s.Sound) (hc : c ∈ s.threads.ids) (htold : s.Told c) :
    s.checkRemovePeerQ.Told c := by
  unfold checkRemovePeerQ
  cases hqueue : s.removePeerQ with
  | nil => exact htold
  | cons clientId rest =>
    refine told_answer hs (fun c hc => Or.inr hc) (fun c hc => ?_) hc htold
    rw [hqueue] at hc
    exact List.mem_cons.mp hc

@[simp] theorem checkAddPeerQ_threads (s : TrackerTables) : s.checkAddPeerQ.threads = s.threads := by
  unfold checkAddPeerQ
  split
  · rfl
  · exact answer_threads _ _

@[simp] theorem checkRemovePeerQ_threads (s : TrackerTables) :
    s.checkRemovePeerQ.threads = s.threads := by
  unfold checkRemovePeerQ
  split
  · rfl
  · exact answer_threads _ _

theorem told_step {e : TablesEvent} (hs : s.Sound) (htold : ∀ c ∈ s.threads.ids, s.Told c)
    (horder : s.InOrder e) (hstep : s.step e = .ok t) : ∀ c ∈ t.threads.ids, t.Told c := by
  intro c hc
  obtain ⟨e', threads, rfl, hthreads, rfl⟩ | ⟨rfl, rfl⟩ | ⟨rfl, rfl⟩ := step_cases hstep
  · rw [stepThreads_threads] at hc
    exact told_stepThreads hs htold horder hthreads hc
  · rw [checkAddPeerQ_threads] at hc
    exact told_checkAddPeerQ hs hc (htold c hc)
  · rw [checkRemovePeerQ_threads] at hc
    exact told_checkRemovePeerQ hs hc (htold c hc)

theorem sound_of_run {guard : TrackerTables → TablesEvent → Prop} {es : List TablesEvent}
    (h : Run step guard initial es s) : s.Sound :=
  h.invariant (fun _ _ _ hs _ hst => hs.step hst) sound_initial

/-! ## A table that stays out of date -/

/-- Nobody connects and nobody leaves. -/
def Settled (_ : TrackerTables) (e : TablesEvent) : Prop :=
  match e with
  | .thread (.accept _ _ _) => False
  | .thread (.disconnect _) => False
  | .thread (.expire _) => False
  | _ => True

instance (s : TrackerTables) (e : TablesEvent) : Decidable (s.Settled e) :=
  match e with
  | .thread (.accept _ _ _) | .thread (.disconnect _) | .thread (.expire _) => isFalse id
  | .thread .poll | .thread (.message _ _) | .checkAddPeer | .checkRemovePeer => isTrue trivial

/-- Nothing is queued that the client would be sent a table for. -/
structure Untold (c : ℤ) (s : TrackerTables) : Prop where
  departures : s.threads.departures = []
  arrivals : ∀ a ∈ s.threads.arrivals, a = c
  addPeerQ : c ∉ s.addPeerQ
  removePeerQ : c ∉ s.removePeerQ

/-- The client's own connection is no news for it. -/
theorem not_told_took (hs : s.Sound) (hu : Untold c s) {ev : TrackerEvent} {rest : List TrackerEvent}
    {tracker : Tracker} {sent : List (ℤ × TrackerMessage)}
    (hqueue : s.threads.queues s.threads.point = ev :: rest)
    (hev : s.threads.tracker.step ev = .ok (tracker, sent)) :
    c ∉ clientsOf TrackerMessage.isPeerAdded sent ++ clientsOf TrackerMessage.isPeerRemoved sent := by
  intro htold
  have hpoint : ev.poll = s.threads.point :=
    hs.refines.poll_eq (by rw [hqueue]; exact List.mem_cons_self)
  have hother := (mem_peerIDs_of_told hev htold).2
  cases trackerStep hev with
  | @joined a =>
    refine hother (hu.arrivals a ?_).symm
    unfold arrivals
    rw [show TrackerPoll.newClients = s.threads.point from hpoint, hqueue]
    exact List.mem_cons_self
  | left =>
    have hdepartures := hu.departures
    unfold departures at hdepartures
    rw [show TrackerPoll.lostClients = s.threads.point from hpoint, hqueue] at hdepartures
    cases hdepartures
  | requested | dropped => cases htold
  | got | updated =>
    rcases List.mem_append.mp htold with h | h
    · exact absurd (mem_clientsOf_broadcast.mp h).1 (by simp [TrackerMessage.isPeerAdded])
    · exact absurd (mem_clientsOf_broadcast.mp h).1 (by simp [TrackerMessage.isPeerRemoved])

/-- What stays as it is while nobody connects and nobody leaves. -/
theorem untold_stepThreads (hs : s.Sound) (hu : Untold c s) (he : s.Settled (.thread e))
    (hstep : s.threads.step e = .ok threads) : Untold c (s.stepThreads e threads) ∧
      (s.stepThreads e threads).tables = s.tables ∧ threads.ids = s.threads.ids := by
  have hnone : ∀ t : TrackerThreads, t.departures = s.threads.departures →
      (∀ a ∈ t.arrivals, a ∈ s.threads.arrivals) → s.threads.sends e = [] →
      Untold c (s.stepThreads e t) := by
    intro t hdepartures harrivals hsends
    refine ⟨?_, ?_, ?_, ?_⟩
    · rw [stepThreads_threads, hdepartures]
      exact hu.departures
    · rw [stepThreads_threads]
      exact fun a ha => hu.arrivals a (harrivals a ha)
    · rw [stepThreads_addPeerQ, hsends]
      simpa [clientsOf] using hu.addPeerQ
    · rw [stepThreads_removePeerQ, hsends]
      simpa [clientsOf] using hu.removePeerQ
  have htables : (s.stepThreads e threads).tables = s.tables := by
    cases e with
    | accept => exact he.elim
    | message | disconnect | expire | poll => rfl
  refine ⟨?_, htables, ?_⟩
  · cases steps_of_step hstep with
    | accepted => exact he.elim
    | ignored hpoll => exact hnone _ rfl (fun _ ha => ha) (sends_eq_nil hpoll)
    | received hnew hlost =>
      refine hnone _ ?_ (fun a ha => ?_) rfl
      · rw [departures_push, if_neg hlost.symm, List.append_nil]
      · rwa [arrivals_push, if_neg hnew.symm, List.append_nil] at ha
    | @lost e client hloses =>
      cases e with
      | accept | message | poll => cases hloses
      | disconnect | expire => exact he.elim
    | advanced hempty => exact hnone _ rfl (fun _ ha => ha) (sends_advanced hempty)
    | @took ev rest tracker sent hqueue hev =>
      have hnot := not_told_took hs hu hqueue hev
      rw [List.mem_append, not_or] at hnot
      refine ⟨?_, fun a ha => ?_, ?_, ?_⟩
      · rw [stepThreads_threads, departures_took]
        split_ifs with hpoint
        · have hdepartures := hu.departures
          unfold departures at hdepartures
          rw [hpoint, hqueue] at hdepartures
          cases hdepartures
        · exact hu.departures
      · rw [stepThreads_threads] at ha
        rcases arrivals_subset (steps_of_step hstep) ha with ha | rfl
        · exact hu.arrivals a ha
        · rw [arrivals_took] at ha
          have hfresh := arrival_lt (hs.fresh.steps hs.refines (steps_of_step hstep)) (by
            rw [arrivals_took]
            exact ha)
          exact absurd hfresh.2 (lt_irrefl _)
      · rw [stepThreads_addPeerQ, sends_took hqueue hev, List.mem_append, not_or]
        exact ⟨hu.addPeerQ, hnot.1⟩
      · rw [stepThreads_removePeerQ, sends_took hqueue hev, List.mem_append, not_or]
        exact ⟨hu.removePeerQ, hnot.2⟩
  · cases steps_of_step hstep with
    | accepted => exact he.elim
    | ignored | received | advanced | took => rfl
    | @lost e client hloses =>
      cases e with
      | accept | message | poll => cases hloses
      | disconnect | expire => exact he.elim

theorem untold_answer (hs : Untold c s) {clientId : ℤ} {addPeerQ removePeerQ : List ℤ}
    (hadd : c ∉ addPeerQ) (hremove : c ∉ removePeerQ) :
    Untold c ({ s with addPeerQ := addPeerQ, removePeerQ := removePeerQ }.answer clientId) where
  departures := by
    rw [answer_threads]
    exact hs.departures
  arrivals := by
    rw [answer_threads]
    exact hs.arrivals
  addPeerQ := by rwa [answer_addPeerQ]
  removePeerQ := by rwa [answer_removePeerQ]

/-- The departure is not news for a client that the main thread does not know. -/
theorem untold_departure (hs : s.Sound) (hpoint : s.threads.point = .lostClients)
    (hdepartures : s.threads.departures = [d]) (harrivals : s.threads.arrivals = [c])
    (hstep : s.step (.thread .poll) = .ok t) :
    Untold c t ∧ t.tables c = s.tables c ∧ t.threads.ids = s.threads.ids := by
  have ht : t.Sound := hs.step hstep
  obtain ⟨e', threads, he, hthreads, rfl⟩ | ⟨he, -⟩ | ⟨he, -⟩ := step_cases hstep
  · cases he
    rw [stepThreads_threads]
    unfold departures at hdepartures
    cases steps_of_step hthreads with
    | ignored hpoll => exact absurd rfl hpoll
    | lost hloses => cases hloses
    | advanced hempty =>
      rw [← hpoint, hempty] at hdepartures
      cases hdepartures
    | @took ev rest tracker sent hqueue hev =>
      rw [← hpoint, hqueue, List.map_cons, List.cons.injEq] at hdepartures
      have harrivals' : (s.threads.took rest tracker ev).arrivals = [c] := by
        rw [arrivals_took, if_neg (by rw [hpoint]; decide), harrivals]
      have hknown : ∀ x ∈ (s.stepThreads .poll (s.threads.took rest tracker ev)).addPeerQ ++
          (s.stepThreads .poll (s.threads.took rest tracker ev)).removePeerQ, x ≠ c := by
        rintro x hx rfl
        refine (ht.known x hx).2 ?_
        rw [stepThreads_threads, harrivals']
        exact List.mem_cons_self
      refine ⟨⟨?_, ?_, ?_, ?_⟩, rfl, rfl⟩
      · rw [stepThreads_threads, departures_took, if_pos hpoint.symm]
        exact hdepartures.2
      · rw [stepThreads_threads, harrivals']
        exact fun a ha => List.mem_singleton.mp ha
      · exact fun h => hknown c (List.mem_append_left _ h) rfl
      · exact fun h => hknown c (List.mem_append_right _ h) rfl
  · cases he
  · cases he

theorem untold_step {e : TablesEvent} (hs : s.Sound) (hu : Untold c s) (he : s.Settled e)
    (hstep : s.step e = .ok t) :
    Untold c t ∧ t.tables c = s.tables c ∧ t.threads.ids = s.threads.ids := by
  obtain ⟨e', threads, rfl, hthreads, rfl⟩ | ⟨rfl, rfl⟩ | ⟨rfl, rfl⟩ := step_cases hstep
  · obtain ⟨huntold, htables, hids⟩ := untold_stepThreads hs hu he hthreads
    exact ⟨huntold, congrFun htables c, by rw [stepThreads_threads, hids]⟩
  · rw [checkAddPeerQ_threads]
    unfold checkAddPeerQ
    cases hqueue : s.addPeerQ with
    | nil => exact ⟨hu, rfl, rfl⟩
    | cons clientId rest =>
      have hnot := hu.addPeerQ
      rw [hqueue, List.mem_cons, not_or] at hnot
      exact ⟨untold_answer hu hnot.2 hu.removePeerQ, answer_tables_ne hnot.1, rfl⟩
  · rw [checkRemovePeerQ_threads]
    unfold checkRemovePeerQ
    cases hqueue : s.removePeerQ with
    | nil => exact ⟨hu, rfl, rfl⟩
    | cons clientId rest =>
      have hnot := hu.removePeerQ
      rw [hqueue, List.mem_cons, not_or] at hnot
      exact ⟨untold_answer hu hu.addPeerQ hnot.2, answer_tables_ne hnot.1, rfl⟩

end TrackerTables

open TrackerTables

variable {s t : TrackerTables} {c d : ℤ} {es es' : List TablesEvent}

/-- **Current tables.** As long as no departure is handled while a client that should hear of it is
still queued, every client has been sent the tracker's table or will be sent another; when all queues
are empty, it is the tracker's. -/
theorem tables_current (h : Run TrackerTables.step InOrder .initial es s) :
    (∀ c ∈ s.threads.ids, s.Told c) ∧
    (s.threads.arrivals = [] → s.threads.departures = [] → s.addPeerQ = [] → s.removePeerQ = [] →
      ∀ c ∈ s.threads.ids, s.tables c = some s.threads.table) := by
  have hinv : s.Sound ∧ ∀ c ∈ s.threads.ids, s.Told c :=
    h.invariant (I := fun s => s.Sound ∧ ∀ c ∈ s.threads.ids, s.Told c)
      (fun _ _ _ hs he hst => ⟨hs.1.step hst, told_step hs.1 hs.2 he hst⟩)
      ⟨sound_initial, fun _ hc => absurd hc List.not_mem_nil⟩
  refine ⟨hinv.2, fun harrivals hdepartures hadd hremove c hc => ?_⟩
  have htold := hinv.2 c hc
  unfold Told at htold
  simpa [harrivals, hdepartures, hadd, hremove] using htold

/-- **A table out of date.** If the only departure is handled while the only connection is queued, that
of a client whose table lists whoever has left, then this client has nothing better for as long as
nobody connects and nobody leaves. -/
theorem tables_stale (h : Run TrackerTables.step (fun _ _ => True) .initial es s)
    (hpoint : s.threads.point = .lostClients) (hdepartures : s.threads.departures = [d])
    (harrivals : s.threads.arrivals = [c]) (hc : c ∈ s.threads.ids) (hlisted : d ∈ s.listed c)
    (hrun : Run TrackerTables.step Settled s (.thread .poll :: es') t) :
    c ∈ t.threads.ids ∧ d ∉ t.threads.ids ∧ d ∈ t.listed c := by
  have hs : s.Sound := sound_of_run h
  have hgone : d ∉ s.threads.ids := fun hd => List.disjoint_of_nodup_append hs.fresh.nodup hd
    (by rw [hdepartures]; exact List.mem_cons_self)
  cases hrun with
  | @cons _ u _ _ _ _ hst hrest =>
    have hu : u.Sound := hs.step hst
    have hfirst : Untold c u ∧ u.tables c = s.tables c ∧ u.threads.ids = s.threads.ids :=
      untold_departure hs hpoint hdepartures harrivals hst
    have hlast : (t.Sound ∧ Untold c t) ∧ t.tables c = s.tables c ∧ t.threads.ids = s.threads.ids :=
      hrest.invariant (I := fun t => (t.Sound ∧ Untold c t) ∧ t.tables c = s.tables c ∧
          t.threads.ids = s.threads.ids)
        (fun _ _ _ hs he hst =>
          have hnext := untold_step hs.1.1 hs.1.2 he hst
          ⟨⟨hs.1.1.step hst, hnext.1⟩, hnext.2.1.trans hs.2.1, hnext.2.2.trans hs.2.2⟩)
        ⟨⟨hu, hfirst.1⟩, hfirst.2⟩
    rw [hlast.2.2, listed_eq hlast.2.1]
    exact ⟨hc, hgone, hlisted⟩

namespace TablesExample

/-- A client leaves when another has connected too late for the main loop. -/
def tooLate : List TablesEvent :=
  [.thread (.accept [10, 0, 0, 1] 7 0), .thread .poll, .thread .poll,
    .thread (.accept [10, 0, 0, 2] 8 1), .thread (.disconnect 7), .thread .poll]

/-- Two clients connect, the first is told of the second, and the second leaves. -/
def inOrder : List TablesEvent :=
  [.thread (.accept [10, 0, 0, 1] 7 0), .thread (.accept [10, 0, 0, 2] 8 1), .thread .poll,
    .thread .poll, .thread .poll, .checkAddPeer, .thread (.disconnect 8), .thread .poll,
    .thread .poll, .checkRemovePeer]

/-- The main loop goes round, and the queues are checked. -/
def afterwards : List TablesEvent :=
  List.replicate 6 (.thread .poll) ++ [.checkAddPeer, .checkRemovePeer]

end TablesExample

/-- The first client has been sent the table that has only itself. -/
theorem tables_current_two : ∃ s, Run TrackerTables.step InOrder .initial TablesExample.inOrder s ∧
    s.threads.ids = [1] ∧ s.tables 1 = some [(1, [10, 0, 0, 1])] := by
  have hrun : (runIf TrackerTables.step (fun s e => decide (s.InOrder e)) .initial
      TablesExample.inOrder).any (fun s => decide (s.threads.ids = [1] ∧
        s.threads.table = [(1, [10, 0, 0, 1])] ∧ s.threads.arrivals = [] ∧
        s.threads.departures = [] ∧ s.addPeerQ = [] ∧ s.removePeerQ = [])) = true := by decide +kernel
  obtain ⟨s, hs, htest⟩ := (Option.any_eq_true _ _).mp hrun
  obtain ⟨hids, htable, harrivals, hdepartures, hadd, hremove⟩ := of_decide_eq_true htest
  have hs : Run TrackerTables.step InOrder .initial TablesExample.inOrder s :=
    run_of_runIf (fun _ _ h => of_decide_eq_true h) hs
  refine ⟨s, hs, hids, ?_⟩
  rw [← htable]
  exact (tables_current hs).2 harrivals hdepartures hadd hremove 1
    (by rw [hids]; exact List.mem_cons_self)

/-- The second client still lists the first when all queues are empty. -/
theorem tables_stale_two : ∃ s t,
    Run TrackerTables.step (fun _ _ => True) .initial TablesExample.tooLate s ∧
    Run TrackerTables.step Settled s (.thread .poll :: TablesExample.afterwards) t ∧
    (∀ queue, t.threads.queues queue = []) ∧ 1 ∉ t.threads.ids ∧ 1 ∈ t.listed 2 := by
  have hrun : (runIf TrackerTables.step (fun _ _ => true) .initial
      TablesExample.tooLate).any (fun s => decide (s.threads.point = .lostClients ∧
        s.threads.departures = [1] ∧ s.threads.arrivals = [2] ∧ 2 ∈ s.threads.ids ∧
        1 ∈ s.listed 2) && (runIf TrackerTables.step (fun s e => decide (s.Settled e)) s
          (.thread .poll :: TablesExample.afterwards)).any fun t =>
            decide (t.threads.pending = 0)) = true := by decide +kernel
  obtain ⟨s, hs, htest⟩ := (Option.any_eq_true _ _).mp hrun
  rw [Bool.and_eq_true] at htest
  obtain ⟨hpoint, hdepartures, harrivals, hc, hlisted⟩ := of_decide_eq_true htest.1
  obtain ⟨t, ht, hpending⟩ := (Option.any_eq_true _ _).mp htest.2
  have hs : Run TrackerTables.step (fun _ _ => True) .initial TablesExample.tooLate s :=
    run_of_runIf (fun _ _ _ => trivial) hs
  have ht : Run TrackerTables.step Settled s (.thread .poll :: TablesExample.afterwards) t :=
    run_of_runIf (fun _ _ h => of_decide_eq_true h) ht
  refine ⟨s, t, hs, ht, fun queue => ?_,
    (tables_stale hs hpoint hdepartures harrivals hc hlisted ht).2⟩
  have hpending : t.threads.pending = 0 := of_decide_eq_true hpending
  unfold TrackerThreads.pending at hpending
  refine List.length_eq_zero_iff.mp ?_
  cases queue <;> omega

end DartSync
