import DartSync.Client.WorkQueue
import DartSync.PeerTable

/-!
# The network thread of a client

`network_client.c`, as far as chunks are requested: `send_chunk_request` queues a request,
`check_req_chunk_q` sends it to a peer, and `handle_peer_msg` queues the answer. A step of the model
is one event of the client, one turn of a loop of the network thread, or what the peers and the
tracker do to the connections. Each of them can lose requests on the way.
-/

namespace DartSync

/-- `chunk_data_t`. Requests and rejections come without data. -/
structure ChunkData where
  jobId : ℤ
  clientId : ℤ
  chunkNum : ℤ
  fileName : CString
  data : Option (List UInt8)

/-- The client with its network: the peer table, the queues `ME_2_CLT_REQ_CHUNK` and
`CLT_2_ME_RECEIVE_CHUNK`, and on each socket the requests sent whose answer has not been read. -/
structure ClientNetwork where
  client : Client
  peerTable : List Peer
  reqChunk : List ChunkData
  receiveChunk : List ChunkData
  wire : List (ℤ × ChunkData)

namespace ClientNetwork

/-! ## Requests and answers -/

/-- `send_chunk_request` -/
def sendChunkRequest (s : ClientNetwork) (peerId : ℤ) (filepath : CString)
    (chunkId requestId : ℤ) : ClientNetwork :=
  if (getPeerById s.peerTable peerId).isNone then s
  else { s with reqChunk := s.reqChunk ++ [⟨requestId, peerId, chunkId, filepath, none⟩] }

/-- What the client hands to the network, requests apart, does not touch the requests. -/
def send (s : ClientNetwork) : ClientMessage → ClientNetwork
  | .chunkRequest peerId filepath chunkId requestId =>
    s.sendChunkRequest peerId filepath chunkId requestId
  | _ => s

/-- An event of the client. -/
def handle (s : ClientNetwork) (ev : ClientEvent) : Except Abort ClientNetwork := do
  let (client, sent) ← s.client.step ev
  return sent.foldl send { s with client := client }

/-- `receive_chunk`, and what `main` does with it. -/
def receive (s : ClientNetwork) : Except Abort ClientNetwork :=
  match s.receiveChunk with
  | [] => .ok s
  | item :: rest => { s with receiveChunk := rest }.handle
      (.chunk item.fileName item.chunkNum item.data item.jobId)

/-- One turn of `check_req_chunk_q`; `sockfd` is the socket that `connect_to_peer` gets if it needs
one, and below 1 if it fails. A request that cannot be sent is dropped. -/
def checkReqChunk (s : ClientNetwork) (sockfd : ℤ) : ClientNetwork :=
  match s.reqChunk with
  | [] => s
  | item :: rest =>
    match getPeerById s.peerTable item.clientId with
    | none => { s with reqChunk := rest }
    | some peer =>
      if 0 < peer.socketfd then
        { s with reqChunk := rest, wire := s.wire ++ [(peer.socketfd, item)] }
      else if sockfd < 1 then { s with reqChunk := rest }
      else { s with
        reqChunk := rest
        peerTable := setSocketfd (fun peer => peer.id = item.clientId) sockfd s.peerTable
        wire := s.wire ++ [(sockfd, item)] }

/-- `handle_peer_msg` on a chunk or a rejection. Only the sockets of peers are read. -/
def handlePeerMsg (s : ClientNetwork) (fd : ℤ) (item : ChunkData) : ClientNetwork :=
  match getPeerBySocket s.peerTable fd with
  | none => s
  | some peer => { s with
      wire := s.wire.eraseP fun x => x.1 = fd ∧ x.2.jobId = item.jobId
      receiveChunk := s.receiveChunk ++ [{ item with clientId := peer.id }] }

/-! ## Connections -/

/-- `clt_network_handle_peer_messages`, when nothing can be read from the socket of a peer. -/
def closeConnection (s : ClientNetwork) (fd : ℤ) : ClientNetwork :=
  match getPeerBySocket s.peerTable fd with
  | none => s
  | some _ => { s with
      peerTable := setSocketfd (fun peer => peer.socketfd = fd) (-1) s.peerTable
      wire := s.wire.filter fun x => x.1 ≠ fd }

/-- `clt_network_process_new_connections` -/
def newConnection (s : ClientNetwork) (ipAddr : List UInt8) (fd : ℤ) : ClientNetwork :=
  { s with peerTable := setSocketfd (fun peer => peer.ipAddr = ipAddr) fd s.peerTable }

/-- The `PEER_TABLE` case of `handle_tracker_msg`. The additions and deletions reach the client as
events of their own. -/
def newPeerTable (s : ClientNetwork) (peers : List (ℤ × List UInt8)) : ClientNetwork :=
  { s with peerTable := deserializePeerTable peers }

end ClientNetwork

/-! ## Steps -/

/-- What happens to a client and its network. -/
inductive NetworkEvent
  | client (ev : ClientEvent)
  | receive
  | checkReqChunk (sockfd : ℤ)
  | peerMsg (fd : ℤ) (item : ChunkData)
  | closed (fd : ℤ)
  | connection (ipAddr : List UInt8) (fd : ℤ)
  | peerTable (peers : List (ℤ × List UInt8))

def ClientNetwork.step (s : ClientNetwork) : NetworkEvent → Except Abort ClientNetwork
  | .client ev => s.handle ev
  | .receive => s.receive
  | .checkReqChunk sockfd => .ok (s.checkReqChunk sockfd)
  | .peerMsg fd item => .ok (s.handlePeerMsg fd item)
  | .closed fd => .ok (s.closeConnection fd)
  | .connection ipAddr fd => .ok (s.newConnection ipAddr fd)
  | .peerTable peers => .ok (s.newPeerTable peers)

def ClientNetwork.initial (dir : Directory) (ft : FileTable) (now : UInt64) (rand : Rand) :
    ClientNetwork where
  client := .initial dir ft now rand
  peerTable := []
  reqChunk := []
  receiveChunk := []
  wire := []

end DartSync
