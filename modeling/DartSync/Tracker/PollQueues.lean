import DartSync.Packets
import DartSync.PeerTable.Codec

/-!
# What the tracker sends

`poll_queues` of `network_tracker.c`. The tracker queues messages without knowing who is connected,
and between two polls clients come and go. A poll has to send the messages of each queue in their
order, those of clients that have left apart. It does so exactly when no master is queued for a
client that has left (`check_send_master_q` would read its record) and no transaction update for one
that has not (`check_txn_update_q` sends nothing); and it leaves nothing for the next poll exactly
when in three of the queues only the last message is to a client that has left
(`tolerates_iff`).
-/

namespace DartSync

/-- `tracker_data_t` -/
structure TrackerData where
  clientId : ℤ
  dataLen : Int32
  data : List UInt8
  deriving DecidableEq

/-- `queues_from_tracker` -/
inductive OutQueue
  | txnUpdate
  | fileAcq
  | fsUpdate
  | addPeer
  | removePeer
  | sendMaster
  | sendMasterFt
  deriving DecidableEq

abbrev OutQueues := OutQueue → List TrackerData

/-- A header, and what follows it, on a socket. -/
structure Sent where
  socketfd : ℤ
  pkt : Pkt
  data : List UInt8
  deriving DecidableEq

/-! ## Sending -/

/-- `send_client_message`; a client without a record or without a socket gets nothing. -/
def sendClientMessage (table : List Peer) (data : TrackerData) (type : TrackerToClient) : List Sent :=
  match getPeerById table data.clientId with
  | none => []
  | some client =>
    if client.socketfd < 0 then []
    else [⟨client.socketfd, ⟨type.code, data.dataLen⟩, data.data⟩]

/-- `send_peer_table_to_client` -/
def sendPeerTableToClient (table : List Peer) (newClientFd : ℤ) : List Sent :=
  if newClientFd < 0 then []
  else
    let buf := PeerTableT.peerBytes table
    [⟨newClientFd, ⟨TrackerToClient.peerTable.code, .ofInt buf.length⟩, buf⟩]

/-- The loop that the check functions have in common: what a turn sends, and whether it is the last
one because the function returns. -/
def drain (turn : TrackerData → Except Abort (List Sent × Bool)) :
    List TrackerData → Except Abort (List Sent × List TrackerData)
  | [] => .ok ([], [])
  | queueItem :: rest => do
    let (sent, returns) ← turn queueItem
    if returns then return (sent, rest)
    else
      let (sent', rest') ← drain turn rest
      return (sent ++ sent', rest')

variable (table : List Peer)

/-- `check_txn_update_q` -/
def checkTxnUpdateQ : List TrackerData → Except Abort (List Sent × List TrackerData) :=
  drain fun _ => .ok ([], false)

/-- `check_file_acq_q` -/
def checkFileAcqQ : List TrackerData → Except Abort (List Sent × List TrackerData) :=
  drain fun queueItem => .ok (sendClientMessage table queueItem .fileAcqUpdate, false)

/-- `check_fs_update_q` -/
def checkFsUpdateQ : List TrackerData → Except Abort (List Sent × List TrackerData) :=
  drain fun queueItem =>
    match getPeerById table queueItem.clientId with
    | none => .ok ([], true)
    | some _ => .ok (sendClientMessage table queueItem .fsUpdate, false)

/-- `check_add_peer_q` -/
def checkAddPeerQ : List TrackerData → Except Abort (List Sent × List TrackerData) :=
  drain fun queueItem =>
    match getPeerById table queueItem.clientId with
    | none => .ok ([], true)
    | some client => .ok (sendPeerTableToClient table client.socketfd, false)

/-- `check_remove_peer_q` -/
def checkRemovePeerQ : List TrackerData → Except Abort (List Sent × List TrackerData) :=
  drain fun queueItem =>
    match getPeerById table queueItem.clientId with
    | none => .ok ([], true)
    | some client => .ok (sendPeerTableToClient table client.socketfd, false)

/-- `check_send_master_q`, which prints the id of the record. -/
def checkSendMasterQ : List TrackerData → Except Abort (List Sent × List TrackerData) :=
  drain fun queueItem =>
    match getPeerById table queueItem.clientId with
    | none => .error .nullPointer
    | some _ => .ok (sendClientMessage table queueItem .masterStatus, false)

/-- `check_send_master_ft_q` -/
def checkSendMasterFtQ : List TrackerData → Except Abort (List Sent × List TrackerData) :=
  drain fun queueItem => .ok (sendClientMessage table queueItem .masterFt, false)

/-- `poll_queues`: what is sent, and what is left in the queues. -/
def pollQueues (q : OutQueues) : Except Abort (List Sent × OutQueues) := do
  let (txnUpdate, txnUpdateQ) ← checkTxnUpdateQ (q .txnUpdate)
  let (fileAcq, fileAcqQ) ← checkFileAcqQ table (q .fileAcq)
  let (fsUpdate, fsUpdateQ) ← checkFsUpdateQ table (q .fsUpdate)
  let (addPeer, addPeerQ) ← checkAddPeerQ table (q .addPeer)
  let (removePeer, removePeerQ) ← checkRemovePeerQ table (q .removePeer)
  let (sendMaster, sendMasterQ) ← checkSendMasterQ table (q .sendMaster)
  let (sendMasterFt, sendMasterFtQ) ← checkSendMasterFtQ table (q .sendMasterFt)
  return (txnUpdate ++ fileAcq ++ fsUpdate ++ addPeer ++ removePeer ++ sendMaster ++ sendMasterFt,
    fun
    | .txnUpdate => txnUpdateQ
    | .fileAcq => fileAcqQ
    | .fsUpdate => fsUpdateQ
    | .addPeer => addPeerQ
    | .removePeer => removePeerQ
    | .sendMaster => sendMasterQ
    | .sendMasterFt => sendMasterFtQ)

/-! ## What a poll has to do -/

/-- The client has a record and a socket. -/
def connected (id : ℤ) : Option Peer := (getPeerById table id).filter fun client => 0 ≤ client.socketfd

/-- The message that an item of a queue stands for, unless its client has left. -/
def OutQueue.message (kind : OutQueue) (item : TrackerData) : Option Sent :=
  (connected table item.clientId).map fun client =>
    let forward (type : TrackerToClient) : Sent :=
      ⟨client.socketfd, ⟨type.code, item.dataLen⟩, item.data⟩
    let buf := PeerTableT.peerBytes table
    let peerTable : Sent :=
      ⟨client.socketfd, ⟨TrackerToClient.peerTable.code, .ofInt buf.length⟩, buf⟩
    match kind with
    | .txnUpdate => forward .transactionUpdate
    | .fileAcq => forward .fileAcqUpdate
    | .fsUpdate => forward .fsUpdate
    | .addPeer | .removePeer => peerTable
    | .sendMaster => forward .masterStatus
    | .sendMasterFt => forward .masterFt

/-- The queues in the order in which they are polled. -/
def OutQueue.all : List OutQueue :=
  [.txnUpdate, .fileAcq, .fsUpdate, .addPeer, .removePeer, .sendMaster, .sendMasterFt]

/-- A poll takes items off the front of every queue, at least one if there are any, sends what those
to connected clients stand for, and nothing else. -/
structure Serves (q : OutQueues) (sent : List Sent) (q' : OutQueues) (taken : OutQueues) : Prop where
  split : ∀ kind, q kind = taken kind ++ q' kind
  progress : ∀ kind, q kind ≠ [] → taken kind ≠ []
  sent_eq : sent = OutQueue.all.flatMap fun kind => (taken kind).filterMap (kind.message table)

/-- Between two polls items are queued, and clients come and go: `table` is what the poll finds. An
item that is queued during the poll, before its queue is empty, counts as well. -/
structure PollRound where
  pushed : OutQueues
  table : List Peer

def OutQueues.push (q pushed : OutQueues) : OutQueues := fun kind => q kind ++ pushed kind

/-- Every poll of the sequence serves the queues; `left` holds of what it leaves in them. -/
def Tolerates (left : OutQueues → Prop) : OutQueues → List PollRound → Prop
  | _, [] => True
  | q, r :: rs => ∃ sent q' taken, pollQueues r.table (q.push r.pushed) = .ok (sent, q') ∧
      Serves r.table (q.push r.pushed) sent q' taken ∧ left q' ∧ Tolerates left q' rs

/-- Every poll of the sequence finds queues and a table with the property. -/
def EveryPoll (P : List Peer → OutQueues → Prop) : OutQueues → List PollRound → Prop
  | _, [] => True
  | q, r :: rs => P r.table (q.push r.pushed) ∧
      ∀ sent q', pollQueues r.table (q.push r.pushed) = .ok (sent, q') → EveryPoll P q' rs

/-- Whoever is sent a master has a record, and nobody connected is sent a transaction update. -/
structure IsAddressed (q : OutQueues) : Prop where
  sendMaster : ∀ item ∈ q .sendMaster, (getPeerById table item.clientId).isSome
  txnUpdate : ∀ item ∈ q .txnUpdate, connected table item.clientId = none

/-- In the queues whose check functions return early, only the last item may be to a client without
a record. -/
def IsLastToGone (q : OutQueues) : Prop :=
  ∀ kind ∈ [OutQueue.fsUpdate, .addPeer, .removePeer], ∀ item ∈ (q kind).dropLast,
    (getPeerById table item.clientId).isSome

variable {table} {turn : TrackerData → Except Abort (List Sent × Bool)} {q : List TrackerData}
  {f : TrackerData → List Sent} {g : TrackerData → Bool} {item : TrackerData} {sent : List Sent}
  {rest : List TrackerData} {m : Sent}

/-! ## The loop -/

/-- A turn, and what the loop does behind it. -/
theorem drain_cons_eq_ok : drain turn (item :: q) = .ok (sent, rest) ↔
    ∃ sent' returns, turn item = .ok (sent', returns) ∧
      if returns then sent = sent' ∧ rest = q
      else ∃ sent'', drain turn q = .ok (sent'', rest) ∧ sent = sent' ++ sent'' := by
  show (turn item >>= _) = _ ↔ _
  rw [bind_eq_ok, Prod.exists]
  refine exists_congr fun sent' => exists_congr fun returns => and_congr_right fun _ => ?_
  cases returns with
  | true =>
    exact ⟨fun h => by cases h; exact ⟨rfl, rfl⟩, fun ⟨hsent, hrest⟩ => by rw [hsent, hrest]; rfl⟩
  | false =>
    constructor
    · intro h
      obtain ⟨⟨sent'', rest'⟩, hdrain, h⟩ := bind_eq_ok.mp h
      cases h
      exact ⟨sent'', hdrain, rfl⟩
    · rintro ⟨sent'', hdrain, rfl⟩
      exact bind_eq_ok.mpr ⟨_, hdrain, rfl⟩

/-- If no turn fails, the loop ends behind the first item on which it returns. -/
theorem drain_ok (h : ∀ item ∈ q, turn item = .ok (f item, g item)) :
    ∃ taken rest, drain turn q = .ok (taken.flatMap f, rest) ∧ q = taken ++ rest ∧
      (q ≠ [] → taken ≠ []) ∧ (rest = [] ↔ ∀ item ∈ q.dropLast, g item = false) := by
  induction q with
  | nil => exact ⟨[], [], rfl, rfl, id, by simp⟩
  | cons item q ih =>
    obtain ⟨hitem, hq⟩ := List.forall_mem_cons.mp h
    cases hg : g item with
    | true =>
      rw [hg] at hitem
      refine ⟨[item], q, drain_cons_eq_ok.mpr ⟨_, true, hitem, by simp⟩, rfl,
        fun _ => List.cons_ne_nil _ _, ?_⟩
      cases q with
      | nil => simp
      | cons item' q =>
        refine iff_of_false (List.cons_ne_nil _ _) fun hall => ?_
        have := hall item (by rw [List.dropLast_cons_cons]; exact List.mem_cons_self)
        rw [hg] at this
        cases this
    | false =>
      obtain ⟨taken, rest, hdrain, hsplit, -, hrest⟩ := ih hq
      rw [hg] at hitem
      refine ⟨item :: taken, rest, ?_, by rw [hsplit]; rfl, fun _ => List.cons_ne_nil _ _, ?_⟩
      · exact drain_cons_eq_ok.mpr ⟨_, false, hitem, _, hdrain, List.flatMap_cons⟩
      · rw [hrest]
        cases q with
        | nil => simp
        | cons item' q => rw [List.dropLast_cons_cons, List.forall_mem_cons, and_iff_right hg]

/-- If no turn returns, a turn that fails is reached. -/
theorem turn_ok_of_drain (hok : drain turn q = .ok (sent, rest))
    (hgo : ∀ item sent returns, turn item = .ok (sent, returns) → returns = false)
    (hitem : item ∈ q) : ∃ sent', turn item = .ok (sent', false) := by
  induction q generalizing sent rest with
  | nil => cases hitem
  | cons item' q ih =>
    obtain ⟨sent', returns, hturn, hok⟩ := drain_cons_eq_ok.mp hok
    obtain rfl := hgo _ _ _ hturn
    rw [if_neg Bool.false_ne_true] at hok
    obtain ⟨sent'', hdrain, -⟩ := hok
    rcases List.mem_cons.mp hitem with rfl | hitem
    · exact ⟨sent', hturn⟩
    · exact ih hdrain hitem

/-- Everything is sent by a turn. -/
theorem mem_drain (hok : drain turn q = .ok (sent, rest)) (hm : m ∈ sent) :
    ∃ item sent' returns, turn item = .ok (sent', returns) ∧ m ∈ sent' := by
  induction q generalizing sent rest with
  | nil =>
    cases hok
    cases hm
  | cons item q ih =>
    obtain ⟨sent', returns, hturn, hok⟩ := drain_cons_eq_ok.mp hok
    split_ifs at hok
    · exact ⟨item, _, _, hturn, hok.1 ▸ hm⟩
    · obtain ⟨sent'', hdrain, rfl⟩ := hok
      rcases List.mem_append.mp hm with hm | hm
      · exact ⟨item, _, _, hturn, hm⟩
      · exact ih hdrain hm

/-! ## The queues -/

/-- The check function of a queue. -/
def OutQueue.check (table : List Peer) : OutQueue → List TrackerData →
    Except Abort (List Sent × List TrackerData)
  | .txnUpdate => checkTxnUpdateQ
  | .fileAcq => checkFileAcqQ table
  | .fsUpdate => checkFsUpdateQ table
  | .addPeer => checkAddPeerQ table
  | .removePeer => checkRemovePeerQ table
  | .sendMaster => checkSendMasterQ table
  | .sendMasterFt => checkSendMasterFtQ table

theorem pollQueues_ok_iff {qs qs' : OutQueues} : pollQueues table qs = .ok (sent, qs') ↔
    ∃ out : OutQueue → List Sent,
      (∀ kind : OutQueue, kind.check table (qs kind) = .ok (out kind, qs' kind)) ∧
      sent = OutQueue.all.flatMap out := by
  unfold pollQueues
  constructor
  · intro h
    obtain ⟨⟨o1, q1⟩, h1, h⟩ := bind_eq_ok.mp h
    obtain ⟨⟨o2, q2⟩, h2, h⟩ := bind_eq_ok.mp h
    obtain ⟨⟨o3, q3⟩, h3, h⟩ := bind_eq_ok.mp h
    obtain ⟨⟨o4, q4⟩, h4, h⟩ := bind_eq_ok.mp h
    obtain ⟨⟨o5, q5⟩, h5, h⟩ := bind_eq_ok.mp h
    obtain ⟨⟨o6, q6⟩, h6, h⟩ := bind_eq_ok.mp h
    obtain ⟨⟨o7, q7⟩, h7, h⟩ := bind_eq_ok.mp h
    cases h
    refine ⟨fun
      | .txnUpdate => o1
      | .fileAcq => o2
      | .fsUpdate => o3
      | .addPeer => o4
      | .removePeer => o5
      | .sendMaster => o6
      | .sendMasterFt => o7, fun kind => ?_, ?_⟩
    · cases kind <;> assumption
    · simp [OutQueue.all]
  · rintro ⟨out, hout, rfl⟩
    have h1 : checkTxnUpdateQ (qs .txnUpdate) = _ := hout .txnUpdate
    have h2 : checkFileAcqQ table (qs .fileAcq) = _ := hout .fileAcq
    have h3 : checkFsUpdateQ table (qs .fsUpdate) = _ := hout .fsUpdate
    have h4 : checkAddPeerQ table (qs .addPeer) = _ := hout .addPeer
    have h5 : checkRemovePeerQ table (qs .removePeer) = _ := hout .removePeer
    have h6 : checkSendMasterQ table (qs .sendMaster) = _ := hout .sendMaster
    have h7 : checkSendMasterFtQ table (qs .sendMasterFt) = _ := hout .sendMasterFt
    rw [h1, h2, h3, h4, h5, h6, h7]
    refine congrArg Except.ok (Prod.ext ?_ (funext fun kind => ?_))
    · simp [OutQueue.all]
    · cases kind <;> rfl

theorem connected_of_getPeerById {client : Peer} {id : ℤ} (h : getPeerById table id = some client) :
    connected table id = if client.socketfd < 0 then none else some client := by
  unfold connected
  rw [h, Option.filter_some]
  by_cases hfd : client.socketfd < 0
  · rw [if_pos hfd, if_neg (by simpa using hfd)]
  · rw [if_neg hfd, if_pos (by simpa using hfd)]

/-- A message that is forwarded is sent if the client is connected. -/
theorem sendClientMessage_eq (type : TrackerToClient) : sendClientMessage table item type =
    ((connected table item.clientId).map fun client =>
      (⟨client.socketfd, ⟨type.code, item.dataLen⟩, item.data⟩ : Sent)).toList := by
  unfold sendClientMessage
  cases hfind : getPeerById table item.clientId with
  | none =>
    unfold connected
    rw [hfind]
    rfl
  | some client =>
    rw [connected_of_getPeerById hfind]
    dsimp only
    split_ifs <;> rfl

/-- So is the peer table. -/
theorem sendPeerTableToClient_eq {client : Peer} (h : getPeerById table item.clientId = some client) :
    sendPeerTableToClient table client.socketfd = (OutQueue.addPeer.message table item).toList := by
  unfold sendPeerTableToClient OutQueue.message
  rw [connected_of_getPeerById h]
  split_ifs <;> rfl

/-- The items to connected clients that a queue must not, or must only, have. -/
def OutQueue.Addressed (table : List Peer) : OutQueue → TrackerData → Prop
  | .sendMaster, item => (getPeerById table item.clientId).isSome
  | .txnUpdate, item => connected table item.clientId = none
  | _, _ => True

/-- The check functions that return early. -/
def OutQueue.ReturnsEarly (kind : OutQueue) : Prop :=
  kind ∈ [OutQueue.fsUpdate, .addPeer, .removePeer]

instance : DecidablePred OutQueue.ReturnsEarly := fun kind =>
  inferInstanceAs (Decidable (kind ∈ [OutQueue.fsUpdate, .addPeer, .removePeer]))

theorem message_of_gone (kind : OutQueue) (h : getPeerById table item.clientId = none) :
    kind.message table item = none := by
  unfold OutQueue.message connected
  rw [h]
  rfl

/-- A turn of a check function sends what its item stands for. -/
theorem check_eq_drain (table : List Peer) (kind : OutQueue) : ∃ turn, kind.check table = drain turn ∧
    ∀ item, kind.Addressed table item → turn item = .ok ((kind.message table item).toList,
      decide (kind.ReturnsEarly ∧ getPeerById table item.clientId = none)) := by
  cases kind with
  | txnUpdate =>
    refine ⟨_, rfl, fun item h => ?_⟩
    replace h : connected table item.clientId = none := h
    unfold OutQueue.message
    rw [h, decide_eq_false fun hearly => absurd hearly.1 (by decide)]
    rfl
  | fileAcq | sendMasterFt =>
    refine ⟨_, rfl, fun item _ => ?_⟩
    rw [sendClientMessage_eq, decide_eq_false fun hearly => absurd hearly.1 (by decide)]
    rfl
  | sendMaster =>
    refine ⟨_, rfl, fun item h => ?_⟩
    obtain ⟨client, hfind⟩ := Option.isSome_iff_exists.mp h
    rw [hfind, decide_eq_false fun hearly => absurd hearly.1 (by decide), sendClientMessage_eq]
    rfl
  | fsUpdate =>
    refine ⟨_, rfl, fun item _ => ?_⟩
    cases hfind : getPeerById table item.clientId with
    | none =>
      rw [message_of_gone _ hfind, decide_eq_true ⟨by decide, rfl⟩]
      rfl
    | some client =>
      rw [decide_eq_false fun hgone => nomatch hgone.2]
      rw [sendClientMessage_eq]
      rfl
  | addPeer | removePeer =>
    refine ⟨_, rfl, fun item _ => ?_⟩
    cases hfind : getPeerById table item.clientId with
    | none =>
      rw [message_of_gone _ hfind, decide_eq_true ⟨by decide, rfl⟩]
      rfl
    | some client =>
      rw [decide_eq_false fun hgone => nomatch hgone.2]
      exact congrArg (fun sent => Except.ok (sent, false)) (sendPeerTableToClient_eq hfind)

/-- A check function sends what the items that it takes stand for. -/
theorem check_ok (kind : OutQueue) (h : ∀ item ∈ q, kind.Addressed table item) :
    ∃ taken rest, kind.check table q = .ok (taken.filterMap (kind.message table), rest) ∧
      q = taken ++ rest ∧ (q ≠ [] → taken ≠ []) ∧
      (rest = [] ↔ (kind.ReturnsEarly → ∀ item ∈ q.dropLast,
        (getPeerById table item.clientId).isSome)) := by
  obtain ⟨turn, hdrain, hturn⟩ := check_eq_drain table kind
  obtain ⟨taken, rest, hok, hsplit, hprogress, hrest⟩ := drain_ok fun item hitem =>
    hturn item (h item hitem)
  refine ⟨taken, rest, ?_, hsplit, hprogress, hrest.trans ?_⟩
  · rw [hdrain, hok, List.filterMap_eq_flatMap_toList]
  · simp only [decide_eq_false_iff_not, not_and, Option.isSome_iff_ne_none, ne_eq]
    exact ⟨fun h hearly item hitem => h item hitem hearly, fun h item hitem hearly => h hearly item hitem⟩

/-! ## A poll -/

variable {qs qs' taken : OutQueues}

theorem isAddressed_iff : IsAddressed table qs ↔
    ∀ kind : OutQueue, ∀ item ∈ qs kind, kind.Addressed table item := by
  refine ⟨fun h kind => ?_, fun h => ⟨h .sendMaster, h .txnUpdate⟩⟩
  cases kind with
  | sendMaster => exact h.sendMaster
  | txnUpdate => exact h.txnUpdate
  | _ => exact fun _ _ => trivial

/-- A poll whose messages are addressed well serves the queues. -/
theorem pollQueues_of_isAddressed (h : IsAddressed table qs) : ∃ sent qs' taken,
    pollQueues table qs = .ok (sent, qs') ∧ Serves table qs sent qs' taken ∧
      ((∀ kind, qs' kind = []) ↔ IsLastToGone table qs) := by
  rw [isAddressed_iff] at h
  choose taken qs' hok hsplit hprogress hrest using fun kind => check_ok kind (h kind)
  refine ⟨_, qs', taken, pollQueues_ok_iff.mpr ⟨_, hok, rfl⟩, ⟨hsplit, hprogress, rfl⟩, ?_⟩
  simp only [hrest]
  rfl

theorem type_of_mem_sendClientMessage {type : TrackerToClient}
    (hm : m ∈ sendClientMessage table item type) : m.pkt.type = type.code := by
  rw [sendClientMessage_eq, Option.mem_toList, Option.map_eq_some_iff] at hm
  obtain ⟨client, -, rfl⟩ := hm
  rfl

theorem type_of_mem_sendPeerTableToClient {fd : ℤ} (hm : m ∈ sendPeerTableToClient table fd) :
    m.pkt.type = TrackerToClient.peerTable.code := by
  unfold sendPeerTableToClient at hm
  split_ifs at hm
  · cases hm
  · rw [List.mem_singleton.mp hm]

/-- No check function sends a transaction update. -/
theorem check_not_txnUpdate (kind : OutQueue) (hok : kind.check table q = .ok (sent, rest))
    (hm : m ∈ sent) : m.pkt.type ≠ TrackerToClient.transactionUpdate.code := by
  cases kind with
  | txnUpdate =>
    obtain ⟨item, sent', returns, hturn, hm⟩ := mem_drain hok hm
    cases hturn
    cases hm
  | fileAcq | sendMasterFt =>
    obtain ⟨item, sent', returns, hturn, hm⟩ := mem_drain hok hm
    cases hturn
    rw [type_of_mem_sendClientMessage hm]
    decide
  | fsUpdate | sendMaster =>
    obtain ⟨item, sent', returns, hturn, hm⟩ := mem_drain hok hm
    cases hfind : getPeerById table item.clientId with
    | none =>
      simp only [hfind] at hturn
      cases hturn <;> cases hm
    | some client =>
      simp only [hfind] at hturn
      cases hturn
      rw [type_of_mem_sendClientMessage hm]
      decide
  | addPeer | removePeer =>
    obtain ⟨item, sent', returns, hturn, hm⟩ := mem_drain hok hm
    cases hfind : getPeerById table item.clientId with
    | none =>
      simp only [hfind] at hturn
      cases hturn
      cases hm
    | some client =>
      simp only [hfind] at hturn
      cases hturn
      rw [type_of_mem_sendPeerTableToClient hm]
      decide

/-- A poll that serves the queues has found messages that are addressed well. -/
theorem isAddressed_of_serves (hok : pollQueues table qs = .ok (sent, qs'))
    (h : Serves table qs sent qs' taken) : IsAddressed table qs := by
  obtain ⟨out, hcheck, hsent⟩ := pollQueues_ok_iff.mp hok
  constructor
  · intro item hitem
    obtain ⟨sent', hturn⟩ := turn_ok_of_drain (hcheck .sendMaster) (fun item sent returns hturn => by
      split at hturn <;> cases hturn
      rfl) hitem
    by_contra hgone
    rw [Option.not_isSome_iff_eq_none.mp hgone] at hturn
    cases hturn
  · intro item hitem
    -- the whole queue is taken, but nothing is sent for it
    have htaken : qs .txnUpdate = taken .txnUpdate := by
      have hturn : ∀ item ∈ qs .txnUpdate, (.ok ([], false) : Except Abort (List Sent × Bool)) =
          .ok ([], false) := fun _ _ => rfl
      obtain ⟨taken', rest, hdrain, -, -, hrest⟩ := drain_ok hturn
      have hq' : qs' .txnUpdate = rest := by
        have heq := (hcheck .txnUpdate).symm.trans hdrain
        exact (Prod.ext_iff.mp (Except.ok.inj heq)).2
      have hsplit := h.split .txnUpdate
      rwa [hq', hrest.mpr fun _ _ => rfl, List.append_nil] at hsplit
    by_contra hconn
    obtain ⟨client, hconn⟩ := Option.ne_none_iff_exists'.mp hconn
    have hmem : (⟨client.socketfd, ⟨TrackerToClient.transactionUpdate.code, item.dataLen⟩, item.data⟩ :
        Sent) ∈ sent := by
      rw [h.sent_eq]
      refine List.mem_flatMap.mpr ⟨.txnUpdate, List.mem_cons_self, ?_⟩
      refine List.mem_filterMap.mpr ⟨item, htaken ▸ hitem, ?_⟩
      unfold OutQueue.message
      rw [hconn]
      rfl
    rw [hsent] at hmem
    obtain ⟨kind, -, hmem⟩ := List.mem_flatMap.mp hmem
    exact check_not_txnUpdate kind (hcheck kind) hmem rfl

/-! ## Successive polls -/

variable {rs : List PollRound}

/-- What is the same for one poll is the same for every sequence of them. -/
theorem tolerates_iff_everyPoll {left : OutQueues → Prop} {P : List Peer → OutQueues → Prop}
    (hpoll : ∀ table qs, P table qs ↔ ∃ sent qs' taken, pollQueues table qs = .ok (sent, qs') ∧
      Serves table qs sent qs' taken ∧ left qs') : Tolerates left qs rs ↔ EveryPoll P qs rs := by
  induction rs generalizing qs with
  | nil => exact Iff.rfl
  | cons r rs ih =>
    constructor
    · rintro ⟨sent, qs', taken, hok, hserves, hleft, hrest⟩
      refine ⟨(hpoll _ _).mpr ⟨sent, qs', taken, hok, hserves, hleft⟩, fun sent' qs'' hok' => ?_⟩
      cases hok.symm.trans hok'
      exact ih.mp hrest
    · rintro ⟨hP, hrest⟩
      obtain ⟨sent, qs', taken, hok, hserves, hleft⟩ := (hpoll _ _).mp hP
      exact ⟨sent, qs', taken, hok, hserves, hleft, ih.mpr (hrest sent qs' hok)⟩

theorem isAddressed_iff_serves : IsAddressed table qs ↔ ∃ sent qs' taken,
    pollQueues table qs = .ok (sent, qs') ∧ Serves table qs sent qs' taken ∧ True := by
  refine ⟨fun h => ?_, fun ⟨sent, qs', taken, hok, hserves, _⟩ => isAddressed_of_serves hok hserves⟩
  obtain ⟨sent, qs', taken, hok, hserves, -⟩ := pollQueues_of_isAddressed h
  exact ⟨sent, qs', taken, hok, hserves, trivial⟩

theorem isLastToGone_iff_serves : IsAddressed table qs ∧ IsLastToGone table qs ↔ ∃ sent qs' taken,
    pollQueues table qs = .ok (sent, qs') ∧ Serves table qs sent qs' taken ∧ ∀ kind, qs' kind = [] := by
  constructor
  · rintro ⟨h, hlast⟩
    obtain ⟨sent, qs', taken, hok, hserves, hleft⟩ := pollQueues_of_isAddressed h
    exact ⟨sent, qs', taken, hok, hserves, hleft.mpr hlast⟩
  · rintro ⟨sent, qs', taken, hok, hserves, hleft⟩
    have h := isAddressed_of_serves hok hserves
    obtain ⟨sent', qs'', taken', hok', -, hleft'⟩ := pollQueues_of_isAddressed h
    cases hok.symm.trans hok'
    exact ⟨h, hleft'.mp hleft⟩

/-- **The queues of the tracker.** Whatever is in the queues, successive polls serve them exactly as
long as every poll finds them addressed well, and each leaves nothing exactly if besides only last
items are to clients that have left. -/
theorem tolerates_iff (qs : OutQueues) (rs : List PollRound) :
    (Tolerates (fun _ => True) qs rs ↔ EveryPoll IsAddressed qs rs) ∧
      (Tolerates (fun qs' => ∀ kind, qs' kind = []) qs rs ↔
        EveryPoll (fun table qs => IsAddressed table qs ∧ IsLastToGone table qs) qs rs) :=
  ⟨tolerates_iff_everyPoll fun _ _ => isAddressed_iff_serves,
    tolerates_iff_everyPoll fun _ _ => isLastToGone_iff_serves⟩

/-- Client 1 asks for the master and is gone at the poll. -/
theorem not_tolerates_gone : ¬ Tolerates (fun _ => True)
    (fun kind => if kind = .sendMaster then [⟨1, 0, []⟩] else []) [⟨fun _ => [], []⟩] := by
  rintro ⟨sent, qs', taken, hok, -⟩
  cases hok

end DartSync
