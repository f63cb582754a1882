import DartSync.PeerTable
import DartSync.Tracker.Departures

/-!
# The two threads of the tracker

The network thread accepts connections, reads messages and notices that a client has left; it queues
what concerns the main thread, each kind in a queue of its own. The main thread empties the five
queues one after the other, over and over. Whatever the threads do in between, the main thread handles
each message once and each kind in its order, as a run of `Tracker.step` (`threads_refine`), and its
peer table differs from the network thread's exactly by what is still queued (`threads_agree`), so
they are equal soon after the network has become quiet (`threads_settle`). What goes wrong is a client
that connects and leaves while the main thread is between the two loops (`threads_inTime`).
-/

namespace DartSync

open Runs

/-! ## The threads -/

/-- The queues that the main loop polls, in its order; also where the main thread is. -/
inductive TrackerPoll
  | newClients
  | masterRequests
  | lostClients
  | clientGots
  | clientUpdates
  deriving DecidableEq

/-- The queue of a message. -/
def TrackerEvent.poll : TrackerEvent → TrackerPoll
  | .newClient _ => .newClients
  | .masterRequest _ => .masterRequests
  | .lostClient _ => .lostClients
  | .clientGot _ _ _ => .clientGots
  | .clientUpdate _ _ _ => .clientUpdates

/-- The client that a message is about. -/
def TrackerEvent.peer : TrackerEvent → ℤ
  | .newClient peerID => peerID
  | .masterRequest peerID => peerID
  | .lostClient peerID => peerID
  | .clientGot _ _ peerGotId => peerGotId
  | .clientUpdate clientID _ _ => clientID

/-- What the main loop polls when the queue is empty. -/
def TrackerPoll.next : TrackerPoll → TrackerPoll
  | .newClients => .masterRequests
  | .masterRequests => .lostClients
  | .lostClients => .clientGots
  | .clientGots => .clientUpdates
  | .clientUpdates => .newClients

/-- What `handle_client_msg` has received; a current state goes into a queue that is never polled. -/
inductive ClientPacket
  | heartbeat
  | chunkGot (file : CString) (chunk : ℤ)
  | clientState
  | clientUpdate (additions deletions : Folder)
  | requestMaster

/-- The network thread with its peer table, the queues, the main thread, and all messages that have
been queued and handled. -/
structure TrackerThreads where
  peers : List Peer
  idCounter : ℤ
  queues : TrackerPoll → List TrackerEvent
  point : TrackerPoll
  tracker : Tracker
  queued : List TrackerEvent
  handled : List TrackerEvent

/-- What the network thread does next, or a turn of the main thread. A new peer comes into the first
free slot, which lies behind `slot` peers. -/
inductive ThreadEvent
  | accept (ipAddr : List UInt8) (sockfd : ℤ) (slot : ℕ)
  | message (sockfd : ℤ) (packet : ClientPacket)
  | disconnect (sockfd : ℤ)
  | expire (id : ℤ)
  | poll

namespace TrackerThreads

def initial : TrackerThreads where
  peers := []
  idCounter := 1
  queues _ := []
  point := .newClients
  tracker := .initial
  queued := []
  handled := []

/-- `asyncqueue_push` -/
def push (s : TrackerThreads) (ev : TrackerEvent) : TrackerThreads :=
  { s with
    queues := Function.update s.queues ev.poll (s.queues ev.poll ++ [ev])
    queued := s.queued ++ [ev] }

/-- `add_peer` -/
def addPeer (s : TrackerThreads) (ipAddr : List UInt8) (sockfd : ℤ) (slot : ℕ) : TrackerThreads :=
  { s with
    peers := s.peers.insertIdx (min slot s.peers.length) ⟨s.idCounter, ipAddr, sockfd⟩
    idCounter := s.idCounter + 1 }

/-- `tkr_network_process_new_connections`, with `notify_new_client`; `accept` may have failed. -/
def processNewConnection (s : TrackerThreads) (ipAddr : List UInt8) (sockfd : ℤ) (slot : ℕ) :
    TrackerThreads :=
  if sockfd < 0 then s
  else (s.addPeer ipAddr sockfd slot).push (.newClient s.idCounter)

/-- The switch of `handle_client_msg`. -/
def handleClientMsg (s : TrackerThreads) (sockfd : ℤ) (packet : ClientPacket) : TrackerThreads :=
  match getPeerBySocket s.peers sockfd with
  | none => s
  | some client =>
    match packet with
    | .heartbeat => s
    | .chunkGot file chunk => s.push (.clientGot file chunk client.id)
    | .clientState => s
    | .clientUpdate additions deletions => s.push (.clientUpdate client.id additions deletions)
    | .requestMaster => s.push (.masterRequest client.id)

/-- `delete_peer` -/
def deletePeer (s : TrackerThreads) (id : ℤ) : TrackerThreads :=
  { s with peers := s.peers.eraseP fun peer => peer.id = id }

/-- `notify_client_lost` and `delete_peer` -/
def losePeer (s : TrackerThreads) (id : ℤ) : TrackerThreads :=
  (s.deletePeer id).push (.lostClient id)

/-- What `tkr_network_handle_peer_messages` does when a message could not be handled, and
`check_liveliness` when a client is dead. -/
def loseFound (s : TrackerThreads) : Option Peer → TrackerThreads
  | none => s
  | some client => s.losePeer client.id

/-- A turn of one of the loops of `main`. -/
def turn (s : TrackerThreads) : Except Abort TrackerThreads :=
  match s.queues s.point with
  | [] => .ok { s with point := s.point.next }
  | ev :: rest => do
    let (tracker, _) ← s.tracker.step ev
    return { s with
      queues := Function.update s.queues s.point rest
      tracker := tracker
      handled := s.handled ++ [ev] }

def step (s : TrackerThreads) : ThreadEvent → Except Abort TrackerThreads
  | .accept ipAddr sockfd slot => .ok (s.processNewConnection ipAddr sockfd slot)
  | .message sockfd packet => .ok (s.handleClientMsg sockfd packet)
  | .disconnect sockfd => .ok (s.loseFound (getPeerBySocket s.peers sockfd))
  | .expire id => .ok (s.loseFound (getPeerById s.peers id))
  | .poll => s.turn

end TrackerThreads

/-- The threads from the start on. -/
abbrev ThreadsRun (es : List ThreadEvent) (s : TrackerThreads) : Prop :=
  Run TrackerThreads.step (fun _ _ => True) .initial es s

/-! ## What a step does -/

namespace TrackerThreads

variable {s t : TrackerThreads} {ev : TrackerEvent} {e : ThreadEvent} {es : List ThreadEvent} {id : ℤ}

/-- The main thread has taken a message from the queue of its point. -/
def took (s : TrackerThreads) (rest : List TrackerEvent) (tracker : Tracker) (ev : TrackerEvent) :
    TrackerThreads :=
  { s with
    queues := Function.update s.queues s.point rest
    tracker := tracker
    handled := s.handled ++ [ev] }

theorem push_queues (s : TrackerThreads) (ev : TrackerEvent) (queue : TrackerPoll) :
    (s.push ev).queues queue = s.queues queue ++ if queue = ev.poll then [ev] else [] := by
  unfold push
  dsimp only
  rw [Function.update_apply]
  split_ifs with hq
  · rw [hq]
  · rw [List.append_nil]

theorem took_queues (s : TrackerThreads) (rest : List TrackerEvent) (tracker : Tracker)
    (ev : TrackerEvent) (queue : TrackerPoll) :
    (s.took rest tracker ev).queues queue = if queue = s.point then rest else s.queues queue :=
  Function.update_apply s.queues s.point rest queue

/-- The client that the network thread loses. -/
def loses (s : TrackerThreads) : ThreadEvent → Option Peer
  | .disconnect sockfd => getPeerBySocket s.peers sockfd
  | .expire id => getPeerById s.peers id
  | _ => none

theorem mem_of_loses {client : Peer} (h : s.loses e = some client) : client ∈ s.peers := by
  cases e with
  | accept | message | poll => cases h
  | disconnect sockfd =>
    have h : getPeerBySocket s.peers sockfd = some client := h
    unfold getPeerBySocket at h
    split_ifs at h
    exact List.mem_of_find?_eq_some h
  | expire id =>
    have h : getPeerById s.peers id = some client := h
    unfold getPeerById at h
    split_ifs at h
    exact List.mem_of_find?_eq_some h

/-- What a step of one of the threads does. -/
inductive Steps (s : TrackerThreads) : ThreadEvent → TrackerThreads → Prop
  | accepted {ipAddr : List UInt8} {sockfd : ℤ} {slot : ℕ} : 0 ≤ sockfd →
      Steps s (.accept ipAddr sockfd slot)
        ((s.addPeer ipAddr sockfd slot).push (.newClient s.idCounter))
  | ignored {e : ThreadEvent} : e ≠ .poll → s.loses e = none → Steps s e s
  | received {sockfd : ℤ} {packet : ClientPacket} {ev : TrackerEvent} : ev.poll ≠ .newClients →
      ev.poll ≠ .lostClients → Steps s (.message sockfd packet) (s.push ev)
  | lost {e : ThreadEvent} {client : Peer} : s.loses e = some client →
      Steps s e (s.losePeer client.id)
  | advanced : s.queues s.point = [] → Steps s .poll { s with point := s.point.next }
  | took {ev : TrackerEvent} {rest : List TrackerEvent} {tracker : Tracker}
      {sent : List (ℤ × TrackerMessage)} : s.queues s.point = ev :: rest →
      s.tracker.step ev = .ok (tracker, sent) → Steps s .poll (s.took rest tracker ev)

theorem steps_loseFound (he : e ≠ .poll) : Steps s e (s.loseFound (s.loses e)) := by
  cases hloses : s.loses e with
  | none => exact .ignored he hloses
  | some client => exact .lost hloses

theorem steps_of_step (h : s.step e = .ok t) : Steps s e t := by
  cases e with
  | accept ipAddr sockfd slot =>
    cases h
    unfold processNewConnection
    split_ifs with hfail
    · exact .ignored (by simp) rfl
    · exact .accepted (not_lt.mp hfail)
  | message sockfd packet =>
    cases h
    unfold handleClientMsg
    cases getPeerBySocket s.peers sockfd with
    | none => exact .ignored (by simp) rfl
    | some client =>
      cases packet with
      | heartbeat | clientState => exact .ignored (by simp) rfl
      | chunkGot file chunk => exact .received (by simp [TrackerEvent.poll]) (by simp [TrackerEvent.poll])
      | clientUpdate additions deletions =>
        exact .received (by simp [TrackerEvent.poll]) (by simp [TrackerEvent.poll])
      | requestMaster => exact .received (by simp [TrackerEvent.poll]) (by simp [TrackerEvent.poll])
  | disconnect sockfd =>
    cases h
    exact steps_loseFound (e := .disconnect sockfd) (by simp)
  | expire id =>
    cases h
    exact steps_loseFound (e := .expire id) (by simp)
  | poll =>
    have h : s.turn = .ok t := h
    unfold turn at h
    cases hqueue : s.queues s.point with
    | nil =>
      rw [hqueue] at h
      cases h
      exact .advanced hqueue
    | cons ev rest =>
      rw [hqueue] at h
      obtain ⟨⟨tracker, sent⟩, hstep, h⟩ := bind_eq_ok.mp h
      cases h
      exact .took hqueue hstep

/-! ## Every message once, and each kind in its order -/

/-- The main thread alone: what it handles, whatever it sends. -/
def mainStep (tracker : Tracker) (ev : TrackerEvent) : Except Abort Tracker :=
  (tracker.step ev).map Prod.fst

/-- What has been handled is a run of the tracker, and what has been queued is what has been handled
and what is still in the queues, kind by kind. -/
structure Refines (s : TrackerThreads) : Prop where
  run : Run mainStep (fun _ _ => True) .initial s.handled s.tracker
  fifo : ∀ queue, s.queued.filter (fun ev => ev.poll = queue) =
    s.handled.filter (fun ev => ev.poll = queue) ++ s.queues queue

theorem refines_initial : Refines initial where
  run := .nil _
  fifo _ := rfl

theorem Refines.push (hs : s.Refines) (ev : TrackerEvent) : (s.push ev).Refines where
  run := hs.run
  fifo queue := by
    show (s.queued ++ [ev]).filter _ = s.handled.filter _ ++ _
    rw [List.filter_append, hs.fifo, push_queues, List.append_assoc]
    congr 2
    by_cases hq : queue = ev.poll
    · rw [if_pos hq, List.filter_cons_of_pos (by simpa using hq.symm), List.filter_nil]
    · rw [if_neg hq, List.filter_cons_of_neg (by simpa using Ne.symm hq), List.filter_nil]

/-- Every message is in the queue of its kind. -/
theorem Refines.poll_eq (hs : s.Refines) {queue : TrackerPoll} (h : ev ∈ s.queues queue) :
    ev.poll = queue := by
  have hmem : ev ∈ s.queued.filter fun ev => ev.poll = queue := by
    rw [hs.fifo]
    exact List.mem_append_right _ h
  exact of_decide_eq_true (List.mem_filter.mp hmem).2

theorem Refines.took (hs : s.Refines) {rest : List TrackerEvent} {tracker : Tracker}
    {sent : List (ℤ × TrackerMessage)} (hqueue : s.queues s.point = ev :: rest)
    (hstep : s.tracker.step ev = .ok (tracker, sent)) : (s.took rest tracker ev).Refines where
  run := hs.run.append (.cons trivial (by rw [mainStep, hstep]; rfl) (.nil _))
  fifo queue := by
    have hpoll : ev.poll = s.point := hs.poll_eq (by rw [hqueue]; exact List.mem_cons_self)
    show s.queued.filter _ = (s.handled ++ [ev]).filter _ ++ _
    rw [hs.fifo, List.filter_append, took_queues]
    by_cases hq : queue = s.point
    · rw [if_pos hq, hq, hqueue, List.filter_cons_of_pos (by simpa using hpoll), List.append_assoc]
      rfl
    · rw [if_neg hq, List.filter_cons_of_neg (by rw [hpoll]; simpa using Ne.symm hq),
        List.filter_nil, List.append_nil]

theorem Refines.steps (hs : s.Refines) (h : Steps s e t) : t.Refines := by
  cases h with
  | @accepted ipAddr sockfd slot =>
    have hadd : (s.addPeer ipAddr sockfd slot).Refines := ⟨hs.run, hs.fifo⟩
    exact hadd.push _
  | ignored => exact hs
  | received => exact hs.push _
  | @lost e client =>
    have hdelete : (s.deletePeer client.id).Refines := ⟨hs.run, hs.fifo⟩
    exact hdelete.push _
  | advanced => exact ⟨hs.run, hs.fifo⟩
  | took hqueue hstep => exact hs.took hqueue hstep

/-! ## The two peer tables -/

/-- The ids in the network thread's peer table. -/
def ids (s : TrackerThreads) : List ℤ := s.peers.map Peer.id

/-- The clients whose connection is still queued. -/
def arrivals (s : TrackerThreads) : List ℤ := (s.queues .newClients).map TrackerEvent.peer

/-- The clients whose departure is still queued. -/
def departures (s : TrackerThreads) : List ℤ := (s.queues .lostClients).map TrackerEvent.peer

theorem arrivals_push (s : TrackerThreads) (ev : TrackerEvent) :
    (s.push ev).arrivals = s.arrivals ++ if .newClients = ev.poll then [ev.peer] else [] := by
  unfold arrivals
  rw [push_queues, List.map_append]
  split_ifs <;> rfl

theorem departures_push (s : TrackerThreads) (ev : TrackerEvent) :
    (s.push ev).departures = s.departures ++ if .lostClients = ev.poll then [ev.peer] else [] := by
  unfold departures
  rw [push_queues, List.map_append]
  split_ifs <;> rfl

/-- Both threads have the same peers, but for those whose connection or departure is still queued. No
client is there twice. The main thread looks for a client that is not in its table, and so beyond the
end of it, exactly when it polls a departure before the connection. -/
structure Agrees (s : TrackerThreads) : Prop where
  perm : (s.tracker.peerTable.peers ++ s.arrivals).Perm (s.ids ++ s.departures)
  nodup : (s.ids ++ s.departures).Nodup
  outOfBounds : ∀ id ∈ s.departures,
    removePeerFromTable s.tracker.peerTable id = .error .outOfBounds ↔ id ∈ s.arrivals

/-- Every client has an id of its own, below the counter. -/
structure Fresh (s : TrackerThreads) : Prop where
  perm : (s.tracker.peerTable.peers ++ s.arrivals).Perm (s.ids ++ s.departures)
  nodup : (s.ids ++ s.departures).Nodup
  counter : 1 ≤ s.idCounter
  bounds : ∀ id ∈ s.ids ++ s.departures, 1 ≤ id ∧ id < s.idCounter

theorem fresh_initial : Fresh initial where
  perm := .refl _
  nodup := .nil
  counter := le_refl 1
  bounds _ h := absurd h List.not_mem_nil

theorem removePeerFromTable_eq_error {pt : PeerTable} :
    removePeerFromTable pt id = .error .outOfBounds ↔ id ∉ pt.peerIDs := by
  unfold removePeerFromTable
  cases hfind : pt.peerIDs.findIdx? fun slot => slot = id with
  | none =>
    have hnot := List.findIdx?_eq_none_iff.mp hfind
    simp only [true_iff]
    intro hmem
    simpa using hnot id hmem
  | some i =>
    obtain ⟨hlt, hslot, -⟩ := List.findIdx?_eq_some_iff_getElem.mp hfind
    simp only [reduceCtorEq, false_iff, not_not]
    exact of_decide_eq_true hslot ▸ List.getElem_mem hlt

theorem Fresh.agrees (hs : s.Fresh) : s.Agrees where
  perm := hs.perm
  nodup := hs.nodup
  outOfBounds id hid := by
    have hmem : id ∈ s.ids ++ s.departures := List.mem_append_right _ hid
    have hpos : 1 ≤ id := (hs.bounds id hmem).1
    have hdisjoint := List.disjoint_of_nodup_append (hs.perm.nodup_iff.mpr hs.nodup)
    rw [removePeerFromTable_eq_error]
    constructor
    · intro hnot
      rcases List.mem_append.mp (hs.perm.mem_iff.mpr hmem) with hpeer | harrival
      · exact absurd (mem_peers.mp hpeer).1 hnot
      · exact harrival
    · intro harrival hslot
      exact hdisjoint (mem_peers.mpr ⟨hslot, hpos⟩) harrival

/-- A message of another kind. -/
theorem Fresh.push (hs : s.Fresh) (hnew : ev.poll ≠ .newClients) (hlost : ev.poll ≠ .lostClients) :
    (s.push ev).Fresh := by
  have harrivals : (s.push ev).arrivals = s.arrivals := by
    rw [arrivals_push, if_neg hnew.symm, List.append_nil]
  have hdepartures : (s.push ev).departures = s.departures := by
    rw [departures_push, if_neg hlost.symm, List.append_nil]
  exact ⟨by rw [harrivals, hdepartures]; exact hs.perm, by rw [hdepartures]; exact hs.nodup,
    hs.counter, by rw [hdepartures]; exact hs.bounds⟩

theorem ids_addPeer (s : TrackerThreads) (ipAddr : List UInt8) (sockfd : ℤ) (slot : ℕ) :
    (s.addPeer ipAddr sockfd slot).ids.Perm (s.idCounter :: s.ids) :=
  (List.perm_insertIdx _ _ (Nat.min_le_right _ _)).map Peer.id

theorem arrivals_accepted (s : TrackerThreads) (ipAddr : List UInt8) (sockfd : ℤ) (slot : ℕ) :
    ((s.addPeer ipAddr sockfd slot).push (.newClient s.idCounter)).arrivals =
      s.arrivals ++ [s.idCounter] := arrivals_push _ _

theorem departures_accepted (s : TrackerThreads) (ipAddr : List UInt8) (sockfd : ℤ) (slot : ℕ) :
    ((s.addPeer ipAddr sockfd slot).push (.newClient s.idCounter)).departures = s.departures :=
  (departures_push _ _).trans (List.append_nil _)

theorem arrivals_losePeer (s : TrackerThreads) (id : ℤ) : (s.losePeer id).arrivals = s.arrivals :=
  (arrivals_push _ _).trans (List.append_nil _)

theorem departures_losePeer (s : TrackerThreads) (id : ℤ) :
    (s.losePeer id).departures = s.departures ++ [id] :=
  departures_push _ _

theorem Fresh.accepted (hs : s.Fresh) (ipAddr : List UInt8) (sockfd : ℤ) (slot : ℕ) :
    ((s.addPeer ipAddr sockfd slot).push (.newClient s.idCounter)).Fresh := by
  have harrivals := arrivals_accepted s ipAddr sockfd slot
  have hdepartures := departures_accepted s ipAddr sockfd slot
  have hall : (((s.addPeer ipAddr sockfd slot).push (.newClient s.idCounter)).ids ++
      s.departures).Perm (s.idCounter :: (s.ids ++ s.departures)) :=
    (ids_addPeer s ipAddr sockfd slot).append_right _
  refine ⟨?_, ?_, by have := hs.counter; exact Int.le_add_one this, fun id hid => ?_⟩
  · rw [harrivals, hdepartures, ← List.append_assoc]
    exact (List.perm_append_singleton _ _).trans ((hs.perm.cons _).trans hall.symm)
  · rw [hdepartures, hall.nodup_iff]
    exact List.nodup_cons.mpr ⟨fun h => absurd (hs.bounds _ h).2 (lt_irrefl _), hs.nodup⟩
  · rw [hdepartures, hall.mem_iff] at hid
    rcases List.mem_cons.mp hid with rfl | hid
    · exact ⟨hs.counter, Int.lt_succ _⟩
    · exact ⟨(hs.bounds id hid).1, lt_trans (hs.bounds id hid).2 (Int.lt_succ _)⟩

theorem Fresh.losePeer (hs : s.Fresh) {client : Peer} (hclient : client ∈ s.peers) :
    (s.losePeer client.id).Fresh := by
  have hids : s.ids.Perm (client.id :: (s.deletePeer client.id).ids) := by
    obtain ⟨p, l₁, l₂, -, hp, hl, herase⟩ := List.exists_of_eraseP
      (p := fun peer => decide (peer.id = client.id)) hclient (decide_eq_true rfl)
    have hp : p.id = client.id := of_decide_eq_true hp
    show (s.peers.map _).Perm (client.id :: (s.peers.eraseP _).map _)
    rw [herase, hl, List.map_append, List.map_append, List.map_cons, hp]
    exact List.perm_middle
  have harrivals := arrivals_losePeer s client.id
  have hdepartures := departures_losePeer s client.id
  have hall : (s.ids ++ s.departures).Perm
      ((s.losePeer client.id).ids ++ (s.losePeer client.id).departures) := by
    rw [hdepartures, ← List.append_assoc]
    exact (hids.append_right _).trans (List.perm_append_singleton _ _).symm
  exact ⟨by rw [harrivals]; exact hs.perm.trans hall, hall.nodup_iff.mp hs.nodup, hs.counter,
    fun id hid => hs.bounds id (hall.mem_iff.mpr hid)⟩

theorem arrivals_took (s : TrackerThreads) (rest : List TrackerEvent) (tracker : Tracker)
    (ev : TrackerEvent) : (s.took rest tracker ev).arrivals =
      if .newClients = s.point then rest.map TrackerEvent.peer else s.arrivals := by
  unfold arrivals
  rw [took_queues]
  split_ifs <;> rfl

theorem departures_took (s : TrackerThreads) (rest : List TrackerEvent) (tracker : Tracker)
    (ev : TrackerEvent) : (s.took rest tracker ev).departures =
      if .lostClients = s.point then rest.map TrackerEvent.peer else s.departures := by
  unfold departures
  rw [took_queues]
  split_ifs <;> rfl

/-- A message that leaves the peers alone. -/
theorem Fresh.tookOther (hs : s.Fresh) {rest : List TrackerEvent} {tracker : Tracker}
    (hpeers : tracker.peerTable = s.tracker.peerTable) (hnew : s.point ≠ .newClients)
    (hlost : s.point ≠ .lostClients) : (s.took rest tracker ev).Fresh := by
  have harrivals : (s.took rest tracker ev).arrivals = s.arrivals := by
    rw [arrivals_took, if_neg hnew.symm]
  have hdepartures : (s.took rest tracker ev).departures = s.departures := by
    rw [departures_took, if_neg hlost.symm]
  refine ⟨?_, by rw [hdepartures]; exact hs.nodup, hs.counter, by rw [hdepartures]; exact hs.bounds⟩
  rw [harrivals, hdepartures]
  show (tracker.peerTable.peers ++ _).Perm _
  rw [hpeers]
  exact hs.perm

theorem Fresh.tookNewClient (hs : s.Fresh) {rest : List TrackerEvent} {tracker : Tracker}
    (hpoint : s.point = .newClients) (hqueue : s.queues s.point = .newClient id :: rest)
    (htracker : tracker.peerTable = addPeerToTable s.tracker.peerTable id) :
    (s.took rest tracker ev).Fresh := by
  have harrivals : s.arrivals = id :: rest.map TrackerEvent.peer := by
    unfold arrivals
    rw [← hpoint, hqueue]
    rfl
  have hdepartures : (s.took rest tracker ev).departures = s.departures := by
    rw [departures_took, if_neg (by rw [hpoint]; decide)]
  have harrival : id ∈ s.arrivals := by rw [harrivals]; exact List.mem_cons_self
  have hnot : id ∉ s.tracker.peerTable.peers := fun hpeer =>
    List.disjoint_of_nodup_append (hs.perm.nodup_iff.mpr hs.nodup) hpeer harrival
  have hpos := (hs.bounds id (hs.perm.mem_iff.mp (List.mem_append_right _ harrival))).1
  refine ⟨?_, by rw [hdepartures]; exact hs.nodup, hs.counter, by rw [hdepartures]; exact hs.bounds⟩
  rw [arrivals_took, if_pos hpoint.symm, hdepartures]
  show (tracker.peerTable.peers ++ _).Perm (s.ids ++ _)
  rw [htracker]
  refine ((peers_addPeerToTable hpos hnot).append_right _).trans ?_
  have hperm := hs.perm
  rw [harrivals] at hperm
  exact List.perm_middle.symm.trans hperm

theorem Fresh.tookLostClient (hs : s.Fresh) {rest : List TrackerEvent} {tracker : Tracker}
    (hpoint : s.point = .lostClients) (hqueue : s.queues s.point = .lostClient id :: rest)
    (htracker : removePeerFromTable s.tracker.peerTable id = .ok tracker.peerTable) :
    (s.took rest tracker ev).Fresh := by
  have hdepartures : s.departures = id :: rest.map TrackerEvent.peer := by
    unfold departures
    rw [← hpoint, hqueue]
    rfl
  have harrivals : (s.took rest tracker ev).arrivals = s.arrivals := by
    rw [arrivals_took, if_neg (by rw [hpoint]; decide)]
  obtain ⟨hpeers, hslot⟩ := peers_removePeerFromTable htracker
  have hdeparture : id ∈ s.ids ++ s.departures :=
    List.mem_append_right _ (by rw [hdepartures]; exact List.mem_cons_self)
  have hpeer := mem_peers.mpr ⟨hslot, (hs.bounds id hdeparture).1⟩
  have hperm : (id :: (s.tracker.peerTable.peers.erase id ++ s.arrivals)).Perm
      (id :: (s.ids ++ rest.map TrackerEvent.peer)) := by
    refine ((List.perm_cons_erase hpeer).append_right s.arrivals).symm.trans (hs.perm.trans ?_)
    rw [hdepartures]
    exact List.perm_middle
  have hall : (s.ids ++ s.departures).Perm (id :: (s.ids ++ rest.map TrackerEvent.peer)) := by
    rw [hdepartures]
    exact List.perm_middle
  refine ⟨?_, ?_, hs.counter, fun q hq => ?_⟩
  · rw [harrivals, departures_took, if_pos hpoint.symm]
    show (tracker.peerTable.peers ++ _).Perm (s.ids ++ _)
    rw [hpeers]
    exact hperm.cons_inv
  · rw [departures_took, if_pos hpoint.symm]
    exact (List.nodup_cons.mp (hall.nodup_iff.mp hs.nodup)).2
  · rw [departures_took, if_pos hpoint.symm] at hq
    exact hs.bounds q (hall.mem_iff.mpr (List.mem_cons_of_mem _ hq))

theorem Fresh.steps (hs : s.Fresh) (hr : s.Refines) (h : Steps s e t) : t.Fresh := by
  cases h with
  | accepted => exact hs.accepted _ _ _
  | ignored => exact hs
  | received hnew hlost => exact hs.push hnew hlost
  | lost hloses => exact hs.losePeer (mem_of_loses hloses)
  | advanced => exact ⟨hs.perm, hs.nodup, hs.counter, hs.bounds⟩
  | @took ev rest tracker sent hqueue hstep =>
    have hpoint : ev.poll = s.point := hr.poll_eq (by rw [hqueue]; exact List.mem_cons_self)
    cases trackerStep hstep with
    | joined => exact hs.tookNewClient hpoint.symm hqueue rfl
    | left hremove => exact hs.tookLostClient hpoint.symm hqueue hremove
    | requested | dropped | got | updated =>
      exact hs.tookOther rfl (by rw [← hpoint]; simp [TrackerEvent.poll])
        (by rw [← hpoint]; simp [TrackerEvent.poll])

/-! ## Departures in time -/

/-- The main thread has left the loop for new clients and not yet the one for lost clients. -/
def AtRisk (s : TrackerThreads) : Prop := s.point = .masterRequests ∨ s.point = .lostClients

instance (s : TrackerThreads) : Decidable s.AtRisk :=
  inferInstanceAs (Decidable (s.point = .masterRequests ∨ s.point = .lostClients))

/-- No client is lost in between whose connection has not been polled. -/
def InTime (s : TrackerThreads) (e : ThreadEvent) : Prop :=
  s.AtRisk → ∀ client ∈ s.loses e, client.id ∉ s.arrivals

/-- No client has both its connection and its departure queued. -/
def Apart (s : TrackerThreads) : Prop := s.AtRisk → s.arrivals.Disjoint s.departures

theorem Apart.steps (hs : s.Apart) (hf : s.Fresh) (he : s.InTime e) (h : Steps s e t) : t.Apart := by
  cases h with
  | @accepted ipAddr sockfd slot =>
    intro hrisk
    rw [arrivals_accepted, departures_accepted, List.disjoint_append_left]
    refine ⟨hs hrisk, List.singleton_disjoint.mpr fun hmem => ?_⟩
    exact lt_irrefl _ (hf.bounds _ (List.mem_append_right _ hmem)).2
  | ignored => exact hs
  | received hnew hlost =>
    intro hrisk
    rw [arrivals_push, departures_push, if_neg hnew.symm, if_neg hlost.symm, List.append_nil,
      List.append_nil]
    exact hs hrisk
  | @lost e client hloses =>
    intro hrisk
    rw [arrivals_losePeer, departures_losePeer, List.disjoint_append_right]
    exact ⟨hs hrisk, List.disjoint_singleton.mpr (he hrisk client hloses)⟩
  | advanced hempty =>
    intro hrisk
    show s.arrivals.Disjoint s.departures
    cases hpoint : s.point with
    | newClients =>
      have harrivals : s.arrivals = [] := by
        unfold arrivals
        rw [← hpoint, hempty]
        rfl
      rw [harrivals]
      exact List.disjoint_nil_left _
    | masterRequests => exact hs (Or.inl hpoint)
    | lostClients => exact hs (Or.inr hpoint)
    | clientGots | clientUpdates =>
      have hrisk : s.point.next = .masterRequests ∨ s.point.next = .lostClients := hrisk
      rw [hpoint] at hrisk
      rcases hrisk with h | h <;> cases h
  | @took ev rest tracker sent hqueue hstep =>
    intro hrisk
    have hdisjoint := hs hrisk
    have hpoint : s.point ≠ .newClients := by
      rintro hpoint
      rcases hrisk with h | h <;>
        · have h : s.point = _ := h
          rw [hpoint] at h
          cases h
    rw [arrivals_took, departures_took, if_neg hpoint.symm]
    split_ifs with hlost
    · refine List.disjoint_of_subset_right (fun x hx => ?_) hdisjoint
      show x ∈ (s.queues .lostClients).map TrackerEvent.peer
      rw [hlost, hqueue]
      exact List.mem_cons_of_mem _ hx
    · exact hdisjoint

end TrackerThreads

open TrackerThreads

variable {s t : TrackerThreads} {es es' : List ThreadEvent}

theorem threads_invariant (h : ThreadsRun es s) : s.Refines ∧ s.Fresh :=
  h.invariant (I := fun s => s.Refines ∧ s.Fresh)
    (fun _ _ _ hs _ hst =>
      ⟨hs.1.steps (steps_of_step hst), hs.2.steps hs.1 (steps_of_step hst)⟩)
    ⟨refines_initial, fresh_initial⟩

/-- **Nothing is lost between the threads.** However the threads take turns, the main thread has handled
a run of `Tracker.step`, and of every kind of message it has handled, in their order, those that are no
longer queued. -/
theorem threads_refine (h : ThreadsRun es s) : s.Refines := (threads_invariant h).1

/-- **The two peer tables.** However the threads take turns, their tables differ by what is queued, and
the main thread removes a client beyond the end of its table exactly when the connection of the client
is still queued. -/
theorem threads_agree (h : ThreadsRun es s) : s.Agrees := (threads_invariant h).2.agrees

namespace TrackerThreads

variable {s t : TrackerThreads} {ev : TrackerEvent} {e : ThreadEvent}

/-! ## When the network is quiet -/

/-- How many messages are queued. -/
def pending (s : TrackerThreads) : ℕ :=
  (s.queues .newClients).length + (s.queues .masterRequests).length +
    (s.queues .lostClients).length + (s.queues .clientGots).length +
    (s.queues .clientUpdates).length

end TrackerThreads

def TrackerPoll.index : TrackerPoll → ℕ
  | .newClients => 0
  | .masterRequests => 1
  | .lostClients => 2
  | .clientGots => 3
  | .clientUpdates => 4

/-- How many queues the main loop polls before it comes to this one. -/
def TrackerPoll.turnsTo (point queue : TrackerPoll) : ℕ := (queue.index + 5 - point.index) % 5

theorem TrackerPoll.turnsTo_le (point queue : TrackerPoll) : point.turnsTo queue ≤ 4 :=
  Nat.le_of_lt_succ (Nat.mod_lt _ (by decide))

theorem TrackerPoll.turnsTo_next {point queue : TrackerPoll} (h : queue ≠ point) :
    point.next.turnsTo queue + 1 = point.turnsTo queue := by
  cases point <;> cases queue <;> first | rfl | exact absurd rfl h

namespace TrackerThreads

variable {s t : TrackerThreads} {ev : TrackerEvent} {n : ℕ}

theorem pending_took {rest : List TrackerEvent} (tracker : Tracker)
    (hqueue : s.queues s.point = ev :: rest) :
    (s.took rest tracker ev).pending + 1 = s.pending := by
  unfold pending
  simp only [took_queues]
  cases hpoint : s.point with
  | newClients | masterRequests | lostClients | clientGots | clientUpdates =>
    rw [hpoint] at hqueue
    simp only [hqueue, List.length_cons, reduceCtorEq, if_true, if_false]
    omega

/-- Within `n` turns the main thread comes to the end of every queue, if nothing new is queued. -/
def Within (n : ℕ) (s : TrackerThreads) : Prop :=
  ∀ queue, s.queues queue ≠ [] → s.pending + s.point.turnsTo queue ≤ n

theorem Within.poll (hs : s.Within (n + 1)) (h : Steps s .poll t) : t.Within n := by
  intro queue hne
  cases h with
  | ignored hpoll => exact absurd rfl hpoll
  | lost hloses => cases hloses
  | advanced hempty =>
    have hne : s.queues queue ≠ [] := hne
    have hother : queue ≠ s.point := fun h => hne (h ▸ hempty)
    have hle := hs queue hne
    have hnext := TrackerPoll.turnsTo_next hother
    show s.pending + s.point.next.turnsTo queue ≤ n
    omega
  | @took ev rest tracker sent hqueue hstep =>
    have hold : s.queues queue ≠ [] := by
      rw [took_queues] at hne
      split_ifs at hne with hq
      · rw [hq, hqueue]
        exact List.cons_ne_nil _ _
      · exact hne
    have hle := hs queue hold
    have hpending := pending_took tracker hqueue
    show (s.took rest tracker ev).pending + s.point.turnsTo queue ≤ n
    omega

theorem Within.polls (hs : s.Within n)
    (h : Run step (fun _ _ => True) s (List.replicate n .poll) t) : t.Within 0 := by
  induction n generalizing s with
  | zero =>
    cases h
    exact hs
  | succ n ih =>
    rw [List.replicate_succ] at h
    cases h with
    | cons _ hst hrest => exact ih (hs.poll (steps_of_step hst)) hrest

theorem Within.empty (hs : s.Within 0) (queue : TrackerPoll) : s.queues queue = [] := by
  by_contra hne
  have hle := hs queue hne
  have hpos := List.length_pos_iff.mpr hne
  have hpending : (s.queues queue).length ≤ s.pending := by
    unfold pending
    cases queue <;> omega
  omega

/-- Only the network thread changes its table. -/
theorem ids_polls (h : Run step (fun _ _ => True) s (List.replicate n .poll) t) : t.ids = s.ids := by
  induction n generalizing s with
  | zero =>
    cases h
    rfl
  | succ n ih =>
    rw [List.replicate_succ] at h
    cases h with
    | cons _ hst hrest =>
      rw [ih hrest]
      cases steps_of_step hst with
      | ignored | advanced | took => rfl
      | lost hloses => cases hloses

end TrackerThreads

open TrackerThreads

variable {s t : TrackerThreads} {es : List ThreadEvent}

/-- **The tables settle.** When nothing more comes from the network, then after as many turns as there
are messages and four more the main thread has handled them all, and has the peers that the network
thread has. -/
theorem threads_settle {n : ℕ} (h : ThreadsRun es s) (hn : s.pending + 4 ≤ n)
    (hpolls : Run TrackerThreads.step (fun _ _ => True) s (List.replicate n .poll) t) :
    (∀ queue, t.queues queue = []) ∧ t.tracker.peerTable.peers.Perm s.ids := by
  have hwithin : s.Within n := fun queue _ =>
    le_trans (Nat.add_le_add_left (TrackerPoll.turnsTo_le _ _) _) hn
  have hempty := (hwithin.polls hpolls).empty
  have hagree := (threads_invariant (h.append hpolls)).2.perm
  unfold arrivals departures at hagree
  rw [hempty, hempty, ids_polls hpolls] at hagree
  exact ⟨hempty, by simpa using hagree⟩

namespace ThreadsExample

/-- Two clients connect, one asks for the master, and the connection of the other breaks. -/
def events : List ThreadEvent :=
  [.accept [10, 0, 0, 1] 7 0, .accept [10, 0, 0, 2] 8 1, .poll, .message 7 .requestMaster,
    .disconnect 8]

theorem run_events (es : List ThreadEvent) (test : TrackerThreads → Bool)
    (h : (runIf TrackerThreads.step (fun _ _ => true) .initial es).any test = true) :
    ∃ s, ThreadsRun es s ∧ test s = true := by
  obtain ⟨s, hs, htest⟩ := (Option.any_eq_true _ _).mp h
  exact ⟨s, run_of_runIf (fun _ _ _ => trivial) hs, htest⟩

end ThreadsExample

theorem threads_refine_two :
    ∃ s, ThreadsRun ThreadsExample.events s ∧ s.handled.length = 1 ∧ s.Refines := by
  obtain ⟨s, hs, hlength⟩ := ThreadsExample.run_events ThreadsExample.events
    (fun s => decide (s.handled.length = 1)) (by decide +kernel)
  exact ⟨s, hs, of_decide_eq_true hlength, threads_refine hs⟩

theorem threads_agree_two :
    ∃ s, ThreadsRun ThreadsExample.events s ∧ s.departures = [2] ∧ s.Agrees := by
  obtain ⟨s, hs, hdepartures⟩ := ThreadsExample.run_events ThreadsExample.events
    (fun s => decide (s.departures = [2])) (by decide +kernel)
  exact ⟨s, hs, of_decide_eq_true hdepartures, threads_agree hs⟩

theorem threads_settle_two : ∃ s t, ThreadsRun ThreadsExample.events s ∧
    Run TrackerThreads.step (fun _ _ => True) s (List.replicate 7 .poll) t ∧
    (∀ queue, t.queues queue = []) ∧ t.tracker.peerTable.peers.Perm s.ids := by
  obtain ⟨s, hs, htest⟩ := ThreadsExample.run_events ThreadsExample.events
    (fun s => decide (s.pending = 3) &&
      (runIf TrackerThreads.step (fun _ _ => true) s (List.replicate 7 .poll)).isSome) (by decide +kernel)
  rw [Bool.and_eq_true, decide_eq_true_eq] at htest
  obtain ⟨t, ht⟩ := Option.isSome_iff_exists.mp htest.2
  have hpolls : Run TrackerThreads.step (fun _ _ => True) s (List.replicate 7 .poll) t :=
    run_of_runIf (fun _ _ _ => trivial) ht
  exact ⟨s, t, hs, hpolls, threads_settle hs (by omega) hpolls⟩

end DartSync
