import DartSync.Client.Steps
import DartSync.Library.Lanes
import DartSync.Tracker

/-!
# From the tracker's queues to the main loop of a client

The tracker's main thread queues each message for a client by its type, its network thread empties
these queues one after the other (`poll_queues`), and the client's network thread sorts what it
receives into queues of its own (`handle_tracker_msg`). `main` waits for the master file system and
then for the master file table, and from then on polls its queues in a fixed order. Each step of the
model is one turn of one of these loops.
-/

namespace DartSync

/-! ## Queues -/

/-- The queues from the tracker, and those of the client that they end in. A client learns of other
peers by a new peer table. -/
inductive TrackerQueue
  | fileAcq
  | fsUpdate
  | addPeer
  | removePeer
  | sendMaster
  | sendMasterFt
  deriving DecidableEq

/-- The queue that a message goes into. -/
def TrackerMessage.queue : TrackerMessage → TrackerQueue
  | .peerAdded _ => .addPeer
  | .peerRemoved _ => .removePeer
  | .fsUpdate _ _ _ => .fsUpdate
  | .gotChunk _ _ _ => .fileAcq
  | .master _ => .sendMaster
  | .masterFiletable _ => .sendMasterFt

/-- Where `main` is: in `SendMasterFSRequest` or at a poll of the main loop. -/
inductive LoopPoint
  | recvMaster
  | recvMasterFt (master : Folder)
  | peersAdded
  | peersDeleted
  | chunkRequests
  | chunks
  | chunkGots
  | diffs
  | masters
  | workQueue
  | checkLocal

/-- The queue from the tracker that is polled there. -/
def LoopPoint.queue : LoopPoint → Option TrackerQueue
  | .recvMaster => some .sendMaster
  | .recvMasterFt _ => some .sendMasterFt
  | .chunkGots => some .fileAcq
  | .diffs => some .fsUpdate
  | .masters => some .sendMaster
  | _ => none

/-- What comes next when the queue is empty. `SendMasterFSRequest` sleeps and polls again. -/
def LoopPoint.next : LoopPoint → LoopPoint
  | .recvMaster => .recvMaster
  | .recvMasterFt master => .recvMasterFt master
  | .peersAdded => .peersDeleted
  | .peersDeleted => .chunkRequests
  | .chunkRequests => .chunks
  | .chunks => .chunkGots
  | .chunkGots => .diffs
  | .diffs => .masters
  | .masters => .workQueue
  | .workQueue => .checkLocal
  | .checkLocal => .peersAdded

/-- The events that do not come from these queues are handled where they are polled. -/
def LoopPoint.polls : LoopPoint → ClientEvent → Bool
  | .peersAdded, .peerAdded _ => true
  | .peersDeleted, .peerDeleted _ => true
  | .chunkRequests, .chunkRequest _ _ _ _ => true
  | .chunks, .chunk _ _ _ _ => true
  | .workQueue, .workQueue => true
  | .checkLocal, .checkLocal _ => true
  | _, _ => false

/-! ## Steps -/

/-- A client, where its main thread is, and what the tracker has queued for it. `ft` is not set
before the master file table has come. -/
structure MainLoop where
  client : Client
  point : LoopPoint
  lanes : Lanes TrackerMessage.queue

namespace MainLoop

/-- The message that is polled next, and the queues without it. -/
def polled (s : MainLoop) : Option (TrackerMessage × Lanes TrackerMessage.queue) :=
  s.point.queue.bind s.lanes.take

/-- An event of the client. -/
def handle (s : MainLoop) (ev : ClientEvent) : Except Abort MainLoop := do
  let (client, _) ← s.client.step ev
  return { s with client := client }

/-- The handling of a message. A queue holds no messages of other types. -/
def receive (s : MainLoop) (message : TrackerMessage) : Except Abort MainLoop :=
  match s.point, message with
  | .recvMaster, .master fs => .ok { s with point := .recvMasterFt fs }
  | .recvMasterFt master, .masterFiletable ft =>
    { s with point := .peersAdded, client := { s.client with ft := ft } }.handle (.master master)
  | .chunkGots, .gotChunk owner file chunk => s.handle (.chunkGot owner file chunk)
  | .diffs, .fsUpdate originator additions deletions => s.handle (.diff additions deletions originator)
  | .masters, .master fs => s.handle (.master fs)
  | _, _ => .ok s

/-- A poll of another queue, which has `ev` or is empty; the last two are calls, not loops. -/
def poll (s : MainLoop) : Option ClientEvent → Except Abort MainLoop
  | none => .ok { s with point := s.point.next }
  | some ev =>
    if s.point.polls ev then
      match s.point with
      | .workQueue | .checkLocal => { s with point := s.point.next }.handle ev
      | _ => s.handle ev
    else .ok s

/-- One turn of the loop where the main thread is. -/
def turn (s : MainLoop) (ev : Option ClientEvent) : Except Abort MainLoop :=
  match s.polled with
  | some (message, lanes) => { s with lanes := lanes }.receive message
  | none => s.poll ev

end MainLoop

/-- What happens between the tracker's main thread and the client's. -/
inductive LoopEvent
  | sends (message : TrackerMessage)
  | transmits (queue : TrackerQueue)
  | delivers
  | turn (ev : Option ClientEvent)
  | edit (dir : Directory)

def MainLoop.step (s : MainLoop) : LoopEvent → Except Abort MainLoop
  | .sends message => .ok { s with lanes := s.lanes.send message }
  | .transmits queue => .ok { s with lanes := s.lanes.transmit queue }
  | .delivers => .ok { s with lanes := s.lanes.deliver }
  | .turn ev => s.turn ev
  | .edit dir => s.handle (.edit dir)

/-- The client when it has requested the master. -/
def MainLoop.initial (dir : Directory) (now : UInt64) (rand : Rand) : MainLoop where
  client := .initial dir filetableNew now rand
  point := .recvMaster
  lanes := .empty _

/-! ## What a turn does -/

variable {s t : MainLoop} {message : TrackerMessage} {lanes : Lanes TrackerMessage.queue}
  {ev : ClientEvent}

theorem MainLoop.handle_ok (h : s.handle ev = .ok t) :
    ∃ client sent, s.client.step ev = .ok (client, sent) ∧ t = { s with client := client } := by
  obtain ⟨⟨client, sent⟩, hstep, h⟩ := bind_eq_ok.mp h
  cases h
  exact ⟨client, sent, hstep, rfl⟩

/-- A message that has been polled comes from the queue of the point. -/
theorem MainLoop.polled_eq_some (h : s.polled = some (message, lanes)) :
    s.point.queue = some message.queue ∧ s.lanes.take message.queue = some (message, lanes) := by
  obtain ⟨queue, hqueue, htake⟩ := Option.bind_eq_some_iff.mp h
  obtain rfl := Lanes.kind_of_take htake
  exact ⟨hqueue, htake⟩

/-- The handling of a polled message. -/
inductive Received (s : MainLoop) : TrackerMessage → MainLoop → Prop
  | master {fs : Folder} : s.point = .recvMaster →
      Received s (.master fs) { s with point := .recvMasterFt fs }
  | masterFiletable {master : Folder} {ft : FileTable} {client : Client}
      {sent : List ClientMessage} : s.point = .recvMasterFt master →
      Client.step { s.client with ft := ft } (.master master) = .ok (client, sent) →
      Received s (.masterFiletable ft) { s with point := .peersAdded, client := client }
  | gotChunk {owner chunk : ℤ} {file : CString} {client : Client} {sent : List ClientMessage} :
      s.point = .chunkGots → s.client.step (.chunkGot owner file chunk) = .ok (client, sent) →
      Received s (.gotChunk owner file chunk) { s with client := client }
  | fsUpdate {originator : ℤ} {additions deletions : Folder} {client : Client}
      {sent : List ClientMessage} : s.point = .diffs →
      s.client.step (.diff additions deletions originator) = .ok (client, sent) →
      Received s (.fsUpdate originator additions deletions) { s with client := client }
  | laterMaster {fs : Folder} {client : Client} {sent : List ClientMessage} :
      s.point = .masters → s.client.step (.master fs) = .ok (client, sent) →
      Received s (.master fs) { s with client := client }

theorem LoopPoint.queue_eq_some {point : LoopPoint} {queue : TrackerQueue}
    (h : point.queue = some queue) :
    point = .recvMaster ∧ queue = .sendMaster ∨
      (∃ master, point = .recvMasterFt master ∧ queue = .sendMasterFt) ∨
      point = .chunkGots ∧ queue = .fileAcq ∨ point = .diffs ∧ queue = .fsUpdate ∨
      point = .masters ∧ queue = .sendMaster := by
  cases point <;> cases h <;> simp

/-- The queue of the point decides what is done with the message. -/
theorem MainLoop.receive_ok (hqueue : s.point.queue = some message.queue)
    (h : s.receive message = .ok t) : Received s message t := by
  unfold MainLoop.receive at h
  rcases LoopPoint.queue_eq_some hqueue with ⟨hpoint, hkind⟩ | ⟨master, hpoint, hkind⟩ |
    ⟨hpoint, hkind⟩ | ⟨hpoint, hkind⟩ | ⟨hpoint, hkind⟩
  all_goals
    rw [hpoint] at h
    cases message <;> cases hkind
  · cases h
    exact .master hpoint
  · obtain ⟨client, sent, hstep, rfl⟩ := MainLoop.handle_ok h
    exact .masterFiletable hpoint hstep
  · obtain ⟨client, sent, hstep, rfl⟩ := MainLoop.handle_ok h
    exact .gotChunk hpoint hstep
  · obtain ⟨client, sent, hstep, rfl⟩ := MainLoop.handle_ok h
    exact .fsUpdate hpoint hstep
  · obtain ⟨client, sent, hstep, rfl⟩ := MainLoop.handle_ok h
    exact .laterMaster hpoint hstep

/-- A turn takes a message from the queues of the tracker, or goes on, possibly with an event of
another kind. -/
theorem MainLoop.turn_ok {ev : Option ClientEvent} (h : s.turn ev = .ok t) :
    (∃ message lanes, s.polled = some (message, lanes) ∧
      Received { s with lanes := lanes } message t) ∨
    (s.polled = none ∧ t.lanes = s.lanes ∧ (t.point = s.point ∨ t.point = s.point.next) ∧
      (t.client = s.client ∨ ∃ x sent, ev = some x ∧ s.point.polls x = true ∧
        s.client.step x = .ok (t.client, sent))) := by
  unfold MainLoop.turn at h
  cases hpolled : s.polled with
  | some polled =>
    obtain ⟨message, lanes⟩ := polled
    rw [hpolled] at h
    obtain ⟨hqueue, htake⟩ := MainLoop.polled_eq_some hpolled
    exact Or.inl ⟨message, lanes, rfl, MainLoop.receive_ok hqueue h⟩
  | none =>
    rw [hpolled] at h
    dsimp only at h
    refine Or.inr ⟨rfl, ?_⟩
    cases ev with
    | none =>
      cases h
      exact ⟨rfl, Or.inr rfl, Or.inl rfl⟩
    | some ev =>
      unfold MainLoop.poll at h
      dsimp only at h
      split_ifs at h with hpolls
      · split at h
        all_goals
          obtain ⟨client, sent, hstep, rfl⟩ := MainLoop.handle_ok h
        · exact ⟨rfl, Or.inr rfl, Or.inr ⟨ev, sent, rfl, hpolls, hstep⟩⟩
        · exact ⟨rfl, Or.inr rfl, Or.inr ⟨ev, sent, rfl, hpolls, hstep⟩⟩
        · exact ⟨rfl, Or.inl rfl, Or.inr ⟨ev, sent, rfl, hpolls, hstep⟩⟩
      · cases h
        exact ⟨rfl, Or.inl rfl, Or.inl rfl⟩

end DartSync
