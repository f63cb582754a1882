import DartSync.Client.Network

/-!
# The sockets of peers

The peer table is the only place where the network thread keeps the sockets of peers, and it puts
a table without sockets in the place of the old one whenever the tracker sends one. Here the open
sockets are counted beside the table. No open socket is forgotten exactly as long as a table arrives
only while no socket is open, a connection is accepted only from a peer without a socket, and no
connection that the client opens itself is refused (`neverForgets_iff`).
-/

namespace DartSync

/-- A client with its network, and the sockets of peers that are open. -/
structure SocketNetwork where
  net : ClientNetwork
  opened : List ℤ

/-- A step of the network, or a turn of `check_req_chunk_q` in which `connect_to_peer` gets a socket
and `connect` fails. -/
inductive SocketEvent
  | net (ev : NetworkEvent)
  | refused (sockfd : ℤ)

/-- The sockets that `clt_network_listen` puts into the select set. The loop of
`clt_network_handle_peer_messages` goes through the same. -/
def selectSet (table : List Peer) : List ℤ := (table.map Peer.socketfd).filter (0 ≤ ·)

/-- The peer for which the next turn of `check_req_chunk_q` opens a socket. -/
def ClientNetwork.connectsTo (s : ClientNetwork) : Option Peer :=
  match s.reqChunk with
  | [] => none
  | item :: _ => (getPeerById s.peerTable item.clientId).filter fun peer => ¬ 0 < peer.socketfd

namespace SocketNetwork

/-- The open sockets after an event. A connection of a peer without a record is closed at once. -/
def openedAfter (s : SocketNetwork) : SocketEvent → List ℤ
  | .net (.checkReqChunk sockfd) =>
    if s.net.connectsTo.isSome ∧ 0 ≤ sockfd then sockfd :: s.opened else s.opened
  | .net (.connection ipAddr fd) =>
    if (getPeerByIp s.net.peerTable ipAddr).isSome then fd :: s.opened else s.opened
  | .net (.closed fd) =>
    if (getPeerBySocket s.net.peerTable fd).isSome then s.opened.erase fd else s.opened
  | .refused sockfd => if s.net.connectsTo.isSome then sockfd :: s.opened else s.opened
  | .net _ => s.opened

/-- The network after an event. For the queue and the table, a connection that is refused is one
for which there is no socket. -/
def netAfter (s : SocketNetwork) : SocketEvent → Except Abort ClientNetwork
  | .net ev => s.net.step ev
  | .refused _ => .ok (s.net.checkReqChunk (-1))

def step (s : SocketNetwork) (ev : SocketEvent) : Except Abort SocketNetwork := do
  let net ← s.netAfter ev
  return ⟨net, s.openedAfter ev⟩

def initial (dir : Directory) (ft : FileTable) (now : UInt64) (rand : Rand) : SocketNetwork :=
  ⟨.initial dir ft now rand, []⟩

/-! ## What is promised, and when it is kept -/

/-- A new socket is none of those that are open. -/
def NewSocket (s : SocketNetwork) : SocketEvent → Prop
  | .net (.checkReqChunk sockfd) => sockfd ∉ s.opened
  | .net (.connection _ fd) => 0 ≤ fd ∧ fd ∉ s.opened
  | .refused sockfd => 0 ≤ sockfd ∧ sockfd ∉ s.opened
  | .net _ => True

/-- The operating system gives new sockets. -/
def NewSockets : SocketNetwork → List SocketEvent → Prop
  | _, [] => True
  | s, ev :: evs => s.NewSocket ev ∧ ∀ t, s.step ev = .ok t → t.NewSockets evs

/-- Every open socket is in the select set. -/
def Remembers (s : SocketNetwork) : Prop := ∀ fd ∈ s.opened, fd ∈ selectSet s.net.peerTable

/-- A new table has the sockets of the old one for the peers of both. -/
def KeepsSockets (s t : SocketNetwork) : SocketEvent → Prop
  | .net (.peerTable _) => ∀ id peer peer', getPeerById s.net.peerTable id = some peer →
      getPeerById t.net.peerTable id = some peer' → peer'.socketfd = peer.socketfd
  | _ => True

/-- Open sockets are remembered in every state, and by every new table. -/
def NeverForgets : SocketNetwork → List SocketEvent → Prop
  | s, [] => s.Remembers
  | s, ev :: evs => s.Remembers ∧
      ∀ t, s.step ev = .ok t → s.KeepsSockets t ev ∧ t.NeverForgets evs

/-- A table arrives only while no socket is open, a connection only from a peer without a socket, and
a connection that is opened is not refused. The socket 0 counts as a failure for `connect_to_peer`. -/
def Careful (s : SocketNetwork) : SocketEvent → Prop
  | .net (.checkReqChunk sockfd) => ∀ peer, s.net.connectsTo = some peer →
      sockfd < 0 ∨ 0 < sockfd ∧ peer.socketfd < 0
  | .net (.connection ipAddr _) => ∀ peer, getPeerByIp s.net.peerTable ipAddr = some peer →
      peer.socketfd < 0
  | .net (.peerTable _) => s.opened = []
  | .refused _ => s.net.connectsTo = none
  | .net _ => True

def AllCareful : SocketNetwork → List SocketEvent → Prop
  | _, [] => True
  | s, ev :: evs => s.Careful ev ∧ ∀ t, s.step ev = .ok t → t.AllCareful evs

variable {table : List Peer} {peer : Peer} {test : Peer → Bool} {fd fd' sockfd : ℤ}
  {s t : SocketNetwork} {opened : List ℤ} {ev : SocketEvent} {evs : List SocketEvent}

/-! ## The select set -/

theorem mem_selectSet : fd ∈ selectSet table ↔ 0 ≤ fd ∧ ∃ peer ∈ table, peer.socketfd = fd := by
  unfold selectSet
  rw [List.mem_filter, List.mem_map, decide_eq_true_eq, and_comm]

theorem selectSet_cons (peer : Peer) (table : List Peer) :
    selectSet (peer :: table) = selectSet [peer] ++ selectSet table :=
  List.filter_append [peer.socketfd] _

theorem selectSet_of_nonneg (peer : Peer) (h : 0 ≤ peer.socketfd) : selectSet [peer] = [peer.socketfd] :=
  List.filter_eq_self.mpr fun fd hfd => by
    rw [List.mem_singleton.mp hfd]
    exact decide_eq_true h

theorem selectSet_of_neg (peer : Peer) (h : peer.socketfd < 0) : selectSet [peer] = [] :=
  List.filter_eq_nil_iff.mpr fun fd hfd => by
    rw [List.mem_singleton.mp hfd, decide_eq_true_eq]
    exact not_le.mpr h

theorem setSocketfd_of_find_none (h : table.find? test = none) : setSocketfd test fd table = table := by
  induction table with
  | nil => rfl
  | cons peer table ih =>
    rw [List.find?_cons] at h
    cases hp : test peer with
    | true =>
      rw [hp] at h
      cases h
    | false =>
      rw [hp] at h
      rw [setSocketfd_cons, if_neg (by rw [hp]; decide), ih h]

/-- Beside the sockets that it leaves, `setSocketfd` takes one out of the select set and puts one in. -/
theorem selectSet_setSocketfd (h : table.find? test = some peer) : ∃ rest,
    (selectSet table).Perm (selectSet [peer] ++ rest) ∧
      ∀ fd, (selectSet (setSocketfd test fd table)).Perm
        (selectSet [{ peer with socketfd := fd }] ++ rest) := by
  induction table with
  | nil => cases h
  | cons p table ih =>
    rw [List.find?_cons] at h
    cases hp : test p with
    | true =>
      rw [hp] at h
      cases h
      refine ⟨selectSet table, ?_, fun fd => ?_⟩
      · rw [selectSet_cons]
      · rw [setSocketfd_cons, if_pos hp, selectSet_cons]
    | false =>
      rw [hp] at h
      obtain ⟨rest, hold, hnew⟩ := ih h
      refine ⟨selectSet [p] ++ rest, ?_, fun fd => ?_⟩
      · rw [selectSet_cons]
        exact (hold.append_left _).trans (List.perm_append_comm_assoc _ _ _)
      · rw [setSocketfd_cons, if_neg (by rw [hp]; decide), selectSet_cons]
        exact ((hnew fd).append_left _).trans (List.perm_append_comm_assoc _ _ _)

/-! ## Tables that know the open sockets -/

/-- The sockets of the table are the open ones, each once, and -1. -/
structure Knows (table : List Peer) (opened : List ℤ) : Prop where
  perm : (selectSet table).Perm opened
  nodup : opened.Nodup
  low : ∀ peer ∈ table, -1 ≤ peer.socketfd

theorem low_setSocketfd (h : ∀ peer ∈ table, -1 ≤ peer.socketfd) (hfd : -1 ≤ fd) :
    ∀ peer ∈ setSocketfd test fd table, -1 ≤ peer.socketfd := by
  induction table with
  | nil => exact h
  | cons p table ih =>
    obtain ⟨hp, htable⟩ := List.forall_mem_cons.mp h
    rw [setSocketfd]
    split_ifs
    · exact List.forall_mem_cons.mpr ⟨hfd, htable⟩
    · exact List.forall_mem_cons.mpr ⟨hp, ih htable⟩

namespace Knows

variable (h : Knows table opened)
include h

theorem mem_iff : fd ∈ selectSet table ↔ fd ∈ opened := h.perm.mem_iff

/-- A peer without a socket gets one. -/
theorem setSocketfd (hfind : table.find? test = some peer) (hpeer : peer.socketfd < 0)
    (hfd : 0 ≤ fd) (hnew : fd ∉ opened) :
    Knows (DartSync.setSocketfd test fd table) (fd :: opened) where
  perm := by
    obtain ⟨rest, hold, hset⟩ := selectSet_setSocketfd hfind
    rw [selectSet_of_neg peer hpeer, List.nil_append] at hold
    have hset := hset fd
    rw [selectSet_of_nonneg { peer with socketfd := fd } hfd] at hset
    exact hset.trans ((hold.symm.trans h.perm).cons fd)
  nodup := List.nodup_cons.mpr ⟨hnew, h.nodup⟩
  low := low_setSocketfd h.low (by omega)

/-- The socket of a peer is closed. -/
theorem closeSocketfd (hfind : table.find? test = some peer) (hpeer : peer.socketfd = fd)
    (hfd : 0 ≤ fd) : Knows (DartSync.setSocketfd test (-1) table) (opened.erase fd) where
  perm := by
    obtain ⟨rest, hold, hset⟩ := selectSet_setSocketfd hfind
    rw [selectSet_of_nonneg peer (hpeer.symm ▸ hfd), hpeer] at hold
    have hset := hset (-1)
    rw [selectSet_of_neg { peer with socketfd := -1 } neg_one_lt_zero] at hset
    have hrest := (hold.symm.trans h.perm).erase fd
    rw [List.singleton_append, List.erase_cons_head] at hrest
    exact hset.trans hrest
  nodup := h.nodup.erase fd
  low := low_setSocketfd h.low le_rfl

/-- A peer with a socket gets another one: the first is forgotten. -/
theorem forgets (hfind : table.find? test = some peer) (hpeer : 0 ≤ peer.socketfd)
    (hne : peer.socketfd ≠ fd) : peer.socketfd ∈ opened ∧
      peer.socketfd ∉ selectSet (DartSync.setSocketfd test fd table) := by
  obtain ⟨rest, hold, hset⟩ := selectSet_setSocketfd hfind
  rw [selectSet_of_nonneg peer hpeer] at hold
  have hnodup := (hold.symm.trans h.perm).nodup_iff.mpr h.nodup
  refine ⟨(hold.symm.trans h.perm).mem_iff.mp List.mem_cons_self, fun hmem => ?_⟩
  rcases List.mem_append.mp ((hset fd).mem_iff.mp hmem) with hmem | hmem
  · obtain ⟨-, p, hp, heq⟩ := mem_selectSet.mp hmem
    rw [List.mem_singleton.mp hp] at heq
    exact hne heq.symm
  · exact (List.nodup_cons.mp hnodup).1 hmem

end Knows

/-! ## One event -/

theorem foldl_send_peerTable (sent : List ClientMessage) (net : ClientNetwork) :
    (sent.foldl ClientNetwork.send net).peerTable = net.peerTable := by
  induction sent generalizing net with
  | nil => rfl
  | cons m sent ih =>
    rw [List.foldl_cons, ih]
    cases m with
    | chunkRequest peerId filepath chunkId requestId =>
      show (net.sendChunkRequest peerId filepath chunkId requestId).peerTable = net.peerTable
      unfold ClientNetwork.sendChunkRequest
      split_ifs <;> rfl
    | _ => rfl

theorem handle_peerTable {net net' : ClientNetwork} {ev : ClientEvent} (h : net.handle ev = .ok net') :
    net'.peerTable = net.peerTable := by
  obtain ⟨⟨client, sent⟩, -, h⟩ := bind_eq_ok.mp h
  cases h
  exact foldl_send_peerTable sent _

theorem receive_peerTable {net net' : ClientNetwork} (h : net.receive = .ok net') :
    net'.peerTable = net.peerTable := by
  unfold ClientNetwork.receive at h
  split at h
  · cases h
    rfl
  · have htable := handle_peerTable h
    exact htable

theorem handlePeerMsg_peerTable (net : ClientNetwork) (fd : ℤ) (item : ChunkData) :
    (net.handlePeerMsg fd item).peerTable = net.peerTable := by
  unfold ClientNetwork.handlePeerMsg
  split <;> rfl

/-- Without a peer to connect to, the turn leaves the table. -/
theorem checkReqChunk_of_connectsTo_none {net : ClientNetwork} (h : net.connectsTo = none) (sockfd : ℤ) :
    (net.checkReqChunk sockfd).peerTable = net.peerTable := by
  unfold ClientNetwork.connectsTo at h
  unfold ClientNetwork.checkReqChunk
  split
  · rfl
  · next item rest hq =>
    rw [hq] at h
    split
    · rfl
    · next peer hpeer =>
      dsimp only at h
      rw [hpeer, Option.filter_some] at h
      split_ifs at h with hopen
      rw [if_pos (by simpa using hopen)]

/-- With one, it gets the socket, if that is positive. -/
theorem checkReqChunk_of_connectsTo {net : ClientNetwork} (h : net.connectsTo = some peer) :
    ∃ test, net.peerTable.find? test = some peer ∧ ∀ sockfd, (net.checkReqChunk sockfd).peerTable =
      if sockfd < 1 then net.peerTable else DartSync.setSocketfd test sockfd net.peerTable := by
  unfold ClientNetwork.connectsTo at h
  unfold ClientNetwork.checkReqChunk
  cases hq : net.reqChunk with
  | nil =>
    rw [hq] at h
    cases h
  | cons item rest =>
    rw [hq] at h
    obtain ⟨hpeer, hclosed⟩ := Option.filter_eq_some_iff.mp h
    rw [decide_eq_true_eq] at hclosed
    refine ⟨fun peer => peer.id = item.clientId, ?_, fun sockfd => ?_⟩
    · unfold getPeerById at hpeer
      split_ifs at hpeer
      exact hpeer
    · dsimp only
      rw [hpeer]
      dsimp only
      rw [if_neg hclosed]
      split_ifs <;> rfl

/-- The table knows the open sockets. -/
def Known (s : SocketNetwork) : Prop := Knows s.net.peerTable s.opened

theorem step_ok (h : s.step ev = .ok t) :
    s.netAfter ev = .ok t.net ∧ t.opened = s.openedAfter ev := by
  obtain ⟨net, hnet, h⟩ := bind_eq_ok.mp h
  cases h
  exact ⟨hnet, rfl⟩

theorem Known.of_eq (h : s.Known) (htable : t.net.peerTable = s.net.peerTable)
    (hopened : t.opened = s.opened) : t.Known := by
  unfold Known
  rw [htable, hopened]
  exact h

theorem Known.remembers (h : s.Known) : s.Remembers := fun _ => h.mem_iff.mpr

/-- A socket is open that is not in the table. -/
theorem Known.not_remembers (h : s.Known) (hnew : fd ∉ s.opened)
    (htable : t.net.peerTable = s.net.peerTable) (hfd : fd ∈ t.opened) : ¬ t.Remembers := by
  intro hrem
  have hmem := hrem fd hfd
  rw [htable] at hmem
  exact hnew (h.mem_iff.mp hmem)

/-- A peer that has a socket gets another one. -/
theorem Known.not_remembers_of_replaced (h : s.Known) (hfind : s.net.peerTable.find? test = some peer)
    (hpeer : 0 ≤ peer.socketfd) (hnew : fd ∉ s.opened)
    (htable : t.net.peerTable = DartSync.setSocketfd test fd s.net.peerTable)
    (hopened : t.opened = fd :: s.opened) : ¬ t.Remembers := by
  intro hrem
  have hne : peer.socketfd ≠ fd := by
    rintro rfl
    exact hnew (h.mem_iff.mp (mem_selectSet.mpr ⟨hpeer, peer, List.mem_of_find?_eq_some hfind, rfl⟩))
  obtain ⟨hold, hlost⟩ := h.forgets hfind hpeer hne
  have hmem := hrem _ (hopened ▸ List.mem_cons_of_mem fd hold)
  rw [htable] at hmem
  exact hlost hmem

/-- `connect_to_peer` -/
theorem Known.checkReqChunk (h : s.Known) (hnew : sockfd ∉ s.opened)
    (hstep : s.step (.net (.checkReqChunk sockfd)) = .ok t) :
    (s.Careful (.net (.checkReqChunk sockfd)) → t.Known) ∧
      (t.Remembers → s.Careful (.net (.checkReqChunk sockfd))) := by
  obtain ⟨hnet, hopened⟩ := step_ok hstep
  have hnet : t.net = s.net.checkReqChunk sockfd := (Except.ok.inj hnet).symm
  unfold openedAfter at hopened
  dsimp only at hopened
  cases hconn : s.net.connectsTo with
  | none =>
    rw [hconn, if_neg (fun hopen => by cases hopen.1)] at hopened
    have htable := checkReqChunk_of_connectsTo_none hconn sockfd
    rw [← hnet] at htable
    refine ⟨fun _ => h.of_eq htable hopened, fun _ peer hpeer => ?_⟩
    rw [hconn] at hpeer
    cases hpeer
  | some peer =>
    obtain ⟨test, hfind, htable⟩ := checkReqChunk_of_connectsTo hconn
    replace htable := htable sockfd
    rw [← hnet] at htable
    rw [hconn] at hopened
    refine ⟨fun hcare => ?_, fun hrem peer' hpeer' => ?_⟩
    · rcases hcare peer hconn with hneg | ⟨hpos, hpeer⟩
      · rw [if_neg (fun hopen => not_lt.mpr hopen.2 hneg)] at hopened
        rw [if_pos (by omega)] at htable
        exact h.of_eq htable hopened
      · rw [if_pos ⟨rfl, hpos.le⟩] at hopened
        rw [if_neg (by omega)] at htable
        unfold Known
        rw [htable, hopened]
        exact h.setSocketfd hfind hpeer hpos.le hnew
    · obtain rfl := Option.some.inj (hconn.symm.trans hpeer')
      by_cases hneg : sockfd < 0
      · exact Or.inl hneg
      rw [if_pos ⟨rfl, not_lt.mp hneg⟩] at hopened
      have hmem : sockfd ∈ t.opened := hopened ▸ List.mem_cons_self
      by_cases hzero : sockfd < 1
      · rw [if_pos hzero] at htable
        exact absurd hrem (h.not_remembers hnew htable hmem)
      rw [if_neg hzero] at htable
      refine Or.inr ⟨by omega, not_le.mp fun hopen => ?_⟩
      exact h.not_remembers_of_replaced hfind hopen hnew htable hopened hrem

/-- `clt_network_process_new_connections` -/
theorem Known.newConnection {ipAddr : List UInt8} (h : s.Known) (hfd : 0 ≤ fd) (hnew : fd ∉ s.opened)
    (hstep : s.step (.net (.connection ipAddr fd)) = .ok t) :
    (s.Careful (.net (.connection ipAddr fd)) → t.Known) ∧
      (t.Remembers → s.Careful (.net (.connection ipAddr fd))) := by
  obtain ⟨hnet, hopened⟩ := step_ok hstep
  have htable : t.net.peerTable =
      DartSync.setSocketfd (fun peer => peer.ipAddr = ipAddr) fd s.net.peerTable := by
    rw [← Except.ok.inj hnet]
    rfl
  unfold openedAfter at hopened
  dsimp only at hopened
  cases hfind : getPeerByIp s.net.peerTable ipAddr with
  | none =>
    rw [hfind, if_neg nofun] at hopened
    rw [setSocketfd_of_find_none hfind] at htable
    refine ⟨fun _ => h.of_eq htable hopened, fun _ peer hpeer => ?_⟩
    rw [hfind] at hpeer
    cases hpeer
  | some peer =>
    rw [hfind, Option.isSome_some, if_pos rfl] at hopened
    refine ⟨fun hcare => ?_, fun hrem peer' hpeer' => ?_⟩
    · unfold Known
      rw [htable, hopened]
      exact h.setSocketfd hfind (hcare peer hfind) hfd hnew
    · obtain rfl := Option.some.inj (hfind.symm.trans hpeer')
      refine not_le.mp fun hopen => ?_
      exact h.not_remembers_of_replaced hfind hopen hnew htable hopened hrem

/-- `clt_network_handle_peer_messages` -/
theorem Known.closeConnection (h : s.Known) (hstep : s.step (.net (.closed fd)) = .ok t) :
    t.Known := by
  obtain ⟨hnet, hopened⟩ := step_ok hstep
  have hnet : t.net = s.net.closeConnection fd := (Except.ok.inj hnet).symm
  unfold openedAfter at hopened
  dsimp only at hopened
  unfold ClientNetwork.closeConnection at hnet
  cases hpeer : getPeerBySocket s.net.peerTable fd with
  | none =>
    rw [hpeer] at hnet hopened
    rw [if_neg nofun] at hopened
    exact h.of_eq (by rw [hnet]) hopened
  | some peer =>
    rw [hpeer] at hnet hopened
    rw [Option.isSome_some, if_pos rfl] at hopened
    unfold getPeerBySocket at hpeer
    split_ifs at hpeer with hfd
    have heq : peer.socketfd = fd := by simpa using List.find?_some hpeer
    unfold Known
    rw [hnet, hopened]
    exact h.closeSocketfd hpeer heq (not_lt.mp hfd)

theorem selectSet_deserializePeerTable (peers : List (ℤ × List UInt8)) :
    selectSet (deserializePeerTable peers) = [] := by
  rw [List.eq_nil_iff_forall_not_mem]
  intro fd hfd
  obtain ⟨hpos, peer, hpeer, rfl⟩ := mem_selectSet.mp hfd
  obtain ⟨p, -, rfl⟩ := List.mem_map.mp hpeer
  exact absurd hpos (not_le.mpr neg_one_lt_zero)

/-- `PEER_TABLE` -/
theorem Known.newPeerTable {peers : List (ℤ × List UInt8)} (h : s.Known)
    (hstep : s.step (.net (.peerTable peers)) = .ok t) :
    (s.opened = [] → t.Known ∧ s.KeepsSockets t (.net (.peerTable peers))) ∧
      (t.Remembers → s.opened = []) := by
  obtain ⟨hnet, hopened⟩ := step_ok hstep
  replace hopened : t.opened = s.opened := hopened
  have htable : t.net.peerTable = deserializePeerTable peers := by
    rw [← Except.ok.inj hnet]
    rfl
  have hunset : ∀ peer ∈ t.net.peerTable, peer.socketfd = -1 := by
    intro peer hpeer
    rw [htable] at hpeer
    obtain ⟨p, -, rfl⟩ := List.mem_map.mp hpeer
    rfl
  refine ⟨fun hnone => ⟨⟨?_, ?_, fun peer hpeer => (hunset peer hpeer).ge⟩, ?_⟩, fun hrem => ?_⟩
  · rw [htable, selectSet_deserializePeerTable, hopened, hnone]
  · rw [hopened]
    exact h.nodup
  · intro id peer peer' hpeer hpeer'
    have hmem : peer ∈ s.net.peerTable := by
      unfold getPeerById at hpeer
      split_ifs at hpeer
      exact List.mem_of_find?_eq_some hpeer
    have hmem' : peer' ∈ t.net.peerTable := by
      unfold getPeerById at hpeer'
      split_ifs at hpeer'
      exact List.mem_of_find?_eq_some hpeer'
    -- no peer of the old table has a socket either
    have hneg : ¬ 0 ≤ peer.socketfd := fun hpos => by
      have hopen := h.mem_iff.mp (mem_selectSet.mpr ⟨hpos, peer, hmem, rfl⟩)
      rw [hnone] at hopen
      cases hopen
    have hlow := h.low peer hmem
    rw [hunset peer' hmem']
    omega
  · rw [List.eq_nil_iff_forall_not_mem]
    intro fd hfd
    have hmem := hrem fd (hopened ▸ hfd)
    rw [htable, selectSet_deserializePeerTable] at hmem
    cases hmem

/-- A connection that is refused. -/
theorem Known.refused (h : s.Known) (hnew : sockfd ∉ s.opened)
    (hstep : s.step (.refused sockfd) = .ok t) :
    (s.Careful (.refused sockfd) → t.Known) ∧ (t.Remembers → s.Careful (.refused sockfd)) := by
  obtain ⟨hnet, hopened⟩ := step_ok hstep
  have hnet : t.net = s.net.checkReqChunk (-1) := (Except.ok.inj hnet).symm
  unfold openedAfter at hopened
  dsimp only at hopened
  cases hconn : s.net.connectsTo with
  | none =>
    rw [hconn, if_neg nofun] at hopened
    have htable := checkReqChunk_of_connectsTo_none hconn (-1)
    rw [← hnet] at htable
    exact ⟨fun _ => h.of_eq htable hopened, fun _ => hconn⟩
  | some peer =>
    obtain ⟨test, -, htable⟩ := checkReqChunk_of_connectsTo hconn
    replace htable := htable (-1)
    rw [← hnet, if_pos (by decide)] at htable
    rw [hconn, Option.isSome_some, if_pos rfl] at hopened
    refine ⟨fun hcare => ?_, fun hrem => ?_⟩
    · cases hconn.symm.trans hcare
    · exact absurd hrem (h.not_remembers hnew htable (hopened ▸ List.mem_cons_self))

/-- A careful event forgets no socket, and no other event remembers all of them. -/
theorem Known.step (h : s.Known) (hnew : s.NewSocket ev) (hstep : s.step ev = .ok t) :
    (s.Careful ev → t.Known ∧ s.KeepsSockets t ev) ∧ (t.Remembers → s.Careful ev) := by
  cases ev with
  | refused sockfd =>
    obtain ⟨hkeep, hcare⟩ := h.refused hnew.2 hstep
    exact ⟨fun hc => ⟨hkeep hc, trivial⟩, hcare⟩
  | net ev =>
    cases ev with
    | client ev =>
      obtain ⟨hnet, hopened⟩ := step_ok hstep
      exact ⟨fun _ => ⟨h.of_eq (handle_peerTable hnet) hopened, trivial⟩, fun _ => trivial⟩
    | receive =>
      obtain ⟨hnet, hopened⟩ := step_ok hstep
      exact ⟨fun _ => ⟨h.of_eq (receive_peerTable hnet) hopened, trivial⟩, fun _ => trivial⟩
    | peerMsg fd item =>
      obtain ⟨hnet, hopened⟩ := step_ok hstep
      have htable := handlePeerMsg_peerTable s.net fd item
      rw [Except.ok.inj hnet] at htable
      exact ⟨fun _ => ⟨h.of_eq htable hopened, trivial⟩, fun _ => trivial⟩
    | checkReqChunk sockfd =>
      obtain ⟨hkeep, hcare⟩ := h.checkReqChunk hnew hstep
      exact ⟨fun hc => ⟨hkeep hc, trivial⟩, hcare⟩
    | closed fd => exact ⟨fun _ => ⟨h.closeConnection hstep, trivial⟩, fun _ => trivial⟩
    | connection ipAddr fd =>
      obtain ⟨hkeep, hcare⟩ := h.newConnection hnew.1 hnew.2 hstep
      exact ⟨fun hc => ⟨hkeep hc, trivial⟩, hcare⟩
    | peerTable peers => exact h.newPeerTable hstep

/-! ## Runs -/

/-- Only the client aborts. -/
theorem careful_of_error {e : Abort} (h : s.step ev = .error e) : s.Careful ev := by
  cases ev with
  | refused sockfd => cases h
  | net ev =>
    cases ev with
    | client | receive | peerMsg | closed => trivial
    | checkReqChunk | connection | peerTable => cases h

theorem NeverForgets.remembers (h : s.NeverForgets evs) : s.Remembers := by
  cases evs with
  | nil => exact h
  | cons ev evs => exact h.1

theorem Known.neverForgets_iff_allCareful (h : s.Known) (hnew : s.NewSockets evs) :
    s.NeverForgets evs ↔ s.AllCareful evs := by
  induction evs generalizing s with
  | nil => exact ⟨fun _ => trivial, fun _ => h.remembers⟩
  | cons ev evs ih =>
    obtain ⟨hev, hevs⟩ := hnew
    refine ⟨fun hkeep => ?_, fun hcare => ⟨h.remembers, fun t hstep => ?_⟩⟩
    · obtain ⟨-, hkeep⟩ := hkeep
      cases hstep : s.step ev with
      | error e => exact ⟨careful_of_error hstep, fun t ht => by rw [hstep] at ht; cases ht⟩
      | ok t =>
        have hnext := (hkeep t hstep).2
        have hcare := (h.step hev hstep).2 hnext.remembers
        have ht := ((h.step hev hstep).1 hcare).1
        refine ⟨hcare, fun t' hstep' => ?_⟩
        cases hstep.symm.trans hstep'
        exact (ih ht (hevs t hstep)).mp hnext
    · obtain ⟨ht, hsockets⟩ := (h.step hev hstep).1 hcare.1
      exact ⟨hsockets, (ih ht (hevs t hstep)).mpr (hcare.2 t hstep)⟩

theorem known_initial (dir : Directory) (ft : FileTable) (now : UInt64) (rand : Rand) :
    (initial dir ft now rand).Known where
  perm := List.Perm.refl _
  nodup := List.nodup_nil
  low _ h := absurd h List.not_mem_nil

/-- **Sockets.** From the start, the network forgets no open socket exactly as long as every event
is careful. -/
theorem neverForgets_iff (dir : Directory) (ft : FileTable) (now : UInt64) (rand : Rand)
    (evs : List SocketEvent) (hnew : (initial dir ft now rand).NewSockets evs) :
    (initial dir ft now rand).NeverForgets evs ↔ (initial dir ft now rand).AllCareful evs :=
  (known_initial dir ft now rand).neverForgets_iff_allCareful hnew

/-- Peer 2 is known, and connects. -/
def peerConnects : List SocketEvent :=
  [.net (.peerTable [(2, [10, 0, 0, 2])]), .net (.connection [10, 0, 0, 2] 7)]

theorem newSockets_peerConnects : (initial .empty filetableNew 0 fun _ => 0).NewSockets peerConnects := by
  refine ⟨trivial, fun s hs => ?_⟩
  cases hs
  refine ⟨⟨by decide, List.not_mem_nil⟩, fun s hs => trivial⟩

theorem neverForgets_peerConnects :
    (initial .empty filetableNew 0 fun _ => 0).NeverForgets peerConnects ↔
      (initial .empty filetableNew 0 fun _ => 0).AllCareful peerConnects :=
  neverForgets_iff _ _ _ _ _ newSockets_peerConnects

/-- Peer 3 joins while peer 2 is connected on socket 7. -/
theorem forgets_peerJoins : ∃ evs, (initial .empty filetableNew 0 fun _ => 0).NewSockets evs ∧
    ¬ (initial .empty filetableNew 0 fun _ => 0).NeverForgets evs := by
  refine ⟨peerConnects ++ [.net (.peerTable [(2, [10, 0, 0, 2]), (3, [10, 0, 0, 3])])], ?_, ?_⟩
  · refine ⟨trivial, fun s hs => ?_⟩
    cases hs
    exact ⟨⟨by decide, List.not_mem_nil⟩, fun s hs => ⟨trivial, fun _ _ => trivial⟩⟩
  · rintro ⟨-, h⟩
    obtain ⟨-, -, h⟩ := h _ rfl
    obtain ⟨-, -, h⟩ := h _ rfl
    obtain ⟨-, h⟩ := h _ rfl
    have hmem := h 7 List.mem_cons_self
    rw [show selectSet _ = [] from rfl] at hmem
    cases hmem

end SocketNetwork

end DartSync
