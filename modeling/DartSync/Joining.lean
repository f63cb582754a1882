import DartSync.Client.MainLoop
import DartSync.Library.Runs
import DartSync.Tracker.Departures
import DartSync.Tracker.Updates

/-!
# A client that joins

A client connects, which puts it into the peer table of the tracker, and requests the master. The
tracker handles the two messages one after the other, and may handle updates of other clients in
between. An update that comes after the connection and before the request is in the snapshot and is
broadcast to the client as well; one that comes after the request, when the request overtakes the
connection, is in neither. If nothing comes in between, then the client gets the snapshot and after it
every later update, once and in order (`seesOnce_of_undisturbed`).
-/

namespace DartSync

open Runs

/-! ## Runs -/

/-- What a client has made of the messages of the tracker. -/
inductive Seen
  | snapshot (fs : Folder)
  | update (message : TrackerMessage)

/-- The updates among them. -/
def updatesOf (seen : List Seen) : List TrackerMessage :=
  seen.filterMap fun
    | .snapshot _ => none
    | .update message => some message

/-- The author of an update. -/
def TrackerMessage.author : TrackerMessage → Option ℤ
  | .fsUpdate originator _ _ => some originator
  | _ => none

/-- The messages that are for `p`. -/
def messagesTo (p : ℤ) (sent : List (ℤ × TrackerMessage)) : List TrackerMessage :=
  (sent.filter fun x => x.1 = p).map Prod.snd

/-- The updates of the others. -/
def updatesOfOthers (p : ℤ) (updates : List TrackerMessage) : List TrackerMessage :=
  updates.filter fun message => message.author ≠ some p

/-- The tracker and the client that joins, with a record of the updates. -/
structure Joining where
  tracker : Tracker
  loop : MainLoop
  /-- The updates that the tracker has accepted, as it broadcasts them. -/
  updates : List TrackerMessage
  /-- How many updates the tracker had accepted when it served the request, and the snapshot. -/
  served : Option (ℕ × Folder)
  /-- What the client has adopted and applied. -/
  seen : List Seen

/-- The tracker handles a message, or something happens between the tracker and the client. -/
inductive JoiningEvent
  | tracker (ev : TrackerEvent)
  | client (ev : LoopEvent)

/-- What the client makes of the message that it polls. The first master is adopted when the master
file table has come. -/
def MainLoop.sees (s : MainLoop) : LoopEvent → List Seen
  | .turn _ =>
    match s.point, s.polled with
    | .recvMasterFt master, some _ => [.snapshot master]
    | .diffs, some (message, _) => [.update message]
    | .masters, some (.master fs, _) => [.snapshot fs]
    | _, _ => []
  | _ => []

namespace Joining

/-- The record after the tracker has handled a message. -/
def record (s : Joining) (p : ℤ) : TrackerEvent → Joining
  | .clientUpdate clientID additions deletions =>
    { s with updates := s.updates ++ [.fsUpdate clientID additions deletions] }
  | .masterRequest peerID =>
    if peerID = p then { s with served := some (s.updates.length, s.tracker.fs) } else s
  | _ => s

def step (p : ℤ) (s : Joining) : JoiningEvent → Except Abort Joining
  | .tracker ev => do
    let (tracker, sent) ← s.tracker.step ev
    return { s.record p ev with
      tracker := tracker
      loop := { s.loop with lanes := s.loop.lanes.sendAll (messagesTo p sent) } }
  | .client ev => do
    let loop ← s.loop.step ev
    return { s with loop := loop, seen := s.seen ++ s.loop.sees ev }

def initial (dir : Directory) (now : UInt64) (rand : Rand) : Joining where
  tracker := .initial
  loop := .initial dir now rand
  updates := []
  served := none
  seen := []

/-- The client connects once, requests the master once and stays; only the tracker sends. -/
def Legal (p : ℤ) (s : Joining) : JoiningEvent → Prop
  | .tracker (.newClient peerID) => peerID = p → p ∉ s.tracker.peerTable.peerIDs
  | .tracker (.masterRequest peerID) => peerID = p → s.served = none
  | .tracker (.lostClient peerID) => peerID ≠ p
  | .client (.sends _) => False
  | _ => True

/-- No update of the others is handled between the connection and the request, whichever comes first,
and no departure between the connection and the request leaves files without an owner. -/
def Undisturbed (p : ℤ) (s : Joining) : JoiningEvent → Prop
  | .tracker (.clientUpdate clientID _ _) =>
    clientID = p ∨ (p ∈ s.tracker.peerTable.peerIDs ↔ s.served.isSome = true)
  | .tracker (.lostClient peerID) => p ∈ s.tracker.peerTable.peerIDs → s.served = none →
    filesToPrune (filetableRemovePeer s.tracker.filetable peerID) = []
  | _ => True

/-- After its request has been served, the client sees the snapshot first, and the later updates of
the others are those that it has applied since and those on their way. -/
def SeesOnce (p : ℤ) (s : Joining) : Prop :=
  ∀ n fs, s.served = some (n, fs) → (∀ first ∈ s.seen.head?, first = .snapshot fs) ∧
    updatesOf s.seen ++ s.loop.lanes.inFlight .fsUpdate = updatesOfOthers p (s.updates.drop n)

end Joining

/-! ## What the tracker sends to the client -/

variable {p peerID : ℤ} {pt pt' : PeerTable} {slots slots' : List ℤ} {message : TrackerMessage}
  {fs : Folder} {n : ℕ}

theorem messagesTo_append (sent sent' : List (ℤ × TrackerMessage)) :
    messagesTo p (sent ++ sent') = messagesTo p sent ++ messagesTo p sent' := by
  unfold messagesTo
  rw [List.filter_append, List.map_append]

theorem messagesTo_map (ids : List ℤ) (message : TrackerMessage) :
    messagesTo p (ids.map fun id => (id, message)) = List.replicate (ids.count p) message := by
  induction ids with
  | nil => rfl
  | cons id ids ih =>
    have hcons : messagesTo p ((id :: ids).map fun id => (id, message)) =
        (if id = p then [message] else []) ++ messagesTo p (ids.map fun id => (id, message)) := by
      unfold messagesTo
      by_cases hid : id = p <;> simp [hid]
    rw [hcons, ih]
    by_cases hid : id = p
    · rw [if_pos hid, hid, List.count_cons_self, List.replicate_succ, List.singleton_append]
    · rw [if_neg hid, List.count_cons_of_ne hid, List.nil_append]

/-- A broadcast reaches every slot of the client. -/
theorem messagesTo_broadcast (hp : 1 ≤ p) (hne : p ≠ peerID) :
    messagesTo p (broadcast pt peerID message) = List.replicate (pt.peerIDs.count p) message := by
  unfold broadcast
  rw [messagesTo_map, List.count_filter]
  simp only [ne_eq, decide_eq_true_eq]
  omega

theorem messagesTo_broadcast_self : messagesTo p (broadcast pt p message) = [] := by
  unfold broadcast
  rw [messagesTo_map, List.count_eq_zero.mpr (by simp), List.replicate_zero]

theorem eq_of_mem_messagesTo_broadcast {x : TrackerMessage}
    (h : x ∈ messagesTo p (broadcast pt peerID message)) : x = message := by
  unfold broadcast at h
  rw [messagesTo_map] at h
  exact List.eq_of_mem_replicate h

/-- A broadcast does not use the other queues. -/
theorem filter_messagesTo_broadcast {queue : TrackerQueue} (h : message.queue ≠ queue) :
    (messagesTo p (broadcast pt peerID message)).filter (fun m => m.queue = queue) = [] := by
  rw [List.filter_eq_nil_iff]
  intro x hx
  rw [eq_of_mem_messagesTo_broadcast hx]
  simpa using h

/-! ## The slots of the client -/

theorem count_peers (hp : 1 ≤ p) : pt.peers.count p = pt.peerIDs.count p :=
  List.count_filter (decide_eq_true hp)

theorem count_addPeerToSlot (hp : 1 ≤ p) (hne : peerID ≠ p)
    (h : addPeerToSlot peerID slots = some slots') : slots'.count p = slots.count p := by
  induction slots generalizing slots' with
  | nil => cases h
  | cons slot slots ih =>
    rw [addPeerToSlot] at h
    split_ifs at h with hslot hfree
    · cases h
      rfl
    · cases h
      rw [List.count_cons_of_ne hne, List.count_cons_of_ne (by omega)]
    · obtain ⟨rest, hrest, rfl⟩ := Option.map_eq_some_iff.mp h
      rw [List.count_cons, List.count_cons, ih hrest]

theorem count_addPeerToTable (hp : 1 ≤ p) (hne : peerID ≠ p) :
    (addPeerToTable pt peerID).peerIDs.count p = pt.peerIDs.count p := by
  unfold addPeerToTable
  cases hslot : addPeerToSlot peerID pt.peerIDs with
  | some slots => exact count_addPeerToSlot hp hne hslot
  | none =>
    have hfree : (List.replicate (pt.peerIDs.length - 1) (-1 : ℤ)).count p = 0 :=
      List.count_eq_zero.mpr fun h => by have := List.eq_of_mem_replicate h; omega
    dsimp only
    rw [List.count_append, List.count_cons_of_ne hne, hfree, Nat.add_zero]

theorem count_addPeerToTable_self (hp : 1 ≤ p) (hnot : p ∉ pt.peerIDs) :
    (addPeerToTable pt p).peerIDs.count p = 1 := by
  have hpeers : p ∉ pt.peers := fun h => hnot (mem_peers.mp h).1
  rw [← count_peers hp, (peers_addPeerToTable hp hpeers).count_eq, List.count_cons_self,
    List.count_eq_zero.mpr hpeers]

theorem count_removePeerFromTable (hp : 1 ≤ p) (hne : peerID ≠ p)
    (h : removePeerFromTable pt peerID = .ok pt') : pt'.peerIDs.count p = pt.peerIDs.count p := by
  rw [← count_peers hp, ← count_peers hp, (peers_removePeerFromTable h).1,
    List.count_erase_of_ne hne.symm]

/-! ## The invariant -/

/-- The point is in the main loop. -/
def LoopPoint.IsMain : LoopPoint → Prop
  | .recvMaster | .recvMasterFt _ => False
  | _ => True

namespace Joining

variable {s t : Joining} {ev : JoiningEvent}

/-- How far the client is with the snapshot. -/
inductive Stage (fs : Folder) (s : Joining) : Prop
  | waiting (l : List TrackerMessage) : s.loop.point = .recvMaster →
      s.loop.lanes.inFlight .sendMaster = .master fs :: l → s.seen = [] → Stage fs s
  | hasMaster : s.loop.point = .recvMasterFt fs → s.seen = [] → Stage fs s
  | adopted (l : List Seen) : s.loop.point.IsMain → s.seen = .snapshot fs :: l → Stage fs s

/-- The request has not been served: nothing is on its way. -/
structure Unserved (s : Joining) : Prop where
  point : s.loop.point = .recvMaster
  masters : s.loop.lanes.inFlight .sendMaster = []
  diffs : s.loop.lanes.inFlight .fsUpdate = []
  seen : s.seen = []

/-- The request has been served after `n` updates with the snapshot `fs`. -/
structure Served (p : ℤ) (s : Joining) (n : ℕ) (fs : Folder) : Prop where
  le : n ≤ s.updates.length
  stage : s.Stage fs
  updates : updatesOf s.seen ++ s.loop.lanes.inFlight .fsUpdate =
    updatesOfOthers p (s.updates.drop n)
  /-- A request that overtakes the connection is served with the last update. -/
  connected : p ∉ s.tracker.peerTable.peerIDs → updatesOfOthers p (s.updates.drop n) = []

structure Inv (p : ℤ) (s : Joining) : Prop where
  count : s.tracker.peerTable.peerIDs.count p ≤ 1
  unserved : s.served = none → s.Unserved
  served : ∀ n fs, s.served = some (n, fs) → s.Served p n fs

theorem inv_initial {dir : Directory} {now : UInt64} {rand : Rand} (hp : 1 ≤ p) :
    Inv p (initial dir now rand) where
  count := by
    have hfree : (List.replicate 16 (-1 : ℤ)).count p = 0 :=
      List.count_eq_zero.mpr fun h => by have := List.eq_of_mem_replicate h; omega
    show (List.replicate 16 (-1 : ℤ)).count p ≤ 1
    omega
  unserved _ := ⟨rfl, rfl, rfl, rfl⟩
  served := nofun

/-- **Once.** The invariant says that the client sees every update once. -/
theorem Inv.seesOnce (hs : s.Inv p) : s.SeesOnce p := by
  intro n fs hserved
  have h := hs.served n fs hserved
  refine ⟨?_, h.updates⟩
  rcases h.stage with ⟨l, -, -, hseen⟩ | ⟨-, hseen⟩ | ⟨l, -, hseen⟩
  · rw [hseen]
    exact nofun
  · rw [hseen]
    exact nofun
  · rw [hseen]
    intro first hfirst
    exact (Option.some.inj hfirst).symm

/-- Nothing happens but that other messages, and masters after the request, are sent. -/
theorem Inv.frame (hs : s.Inv p) (hpoint : t.loop.point = s.loop.point) (hseen : t.seen = s.seen)
    (hserved : t.served = s.served)
    (hcount : t.tracker.peerTable.peerIDs.count p ≤ 1)
    (hmem : p ∈ s.tracker.peerTable.peerIDs → p ∈ t.tracker.peerTable.peerIDs)
    (hdiffs : t.loop.lanes.inFlight .fsUpdate = s.loop.lanes.inFlight .fsUpdate)
    {l : List TrackerMessage}
    (hmasters : t.loop.lanes.inFlight .sendMaster = s.loop.lanes.inFlight .sendMaster ++ l)
    (hl : s.served = none → l = [])
    (hupdates : ∀ n ≤ s.updates.length, n ≤ t.updates.length ∧
      updatesOfOthers p (t.updates.drop n) = updatesOfOthers p (s.updates.drop n)) : t.Inv p where
  count := hcount
  unserved h := by
    rw [hserved] at h
    obtain ⟨hpoint', hmasters', hdiffs', hseen'⟩ := hs.unserved h
    refine ⟨by rw [hpoint, hpoint'], ?_, by rw [hdiffs, hdiffs'], by rw [hseen, hseen']⟩
    rw [hmasters, hmasters', hl h, List.append_nil]
  served n fs h := by
    rw [hserved] at h
    obtain ⟨hle, hstage, hup, hconnected⟩ := hs.served n fs h
    obtain ⟨hle', heq⟩ := hupdates n hle
    refine ⟨hle', ?_, by rw [hseen, hdiffs, heq, hup], fun hnot => ?_⟩
    · rcases hstage with ⟨l', hp', hm', hs'⟩ | ⟨hp', hs'⟩ | ⟨l', hp', hs'⟩
      · exact .waiting (l' ++ l) (by rw [hpoint, hp']) (by rw [hmasters, hm']; rfl)
          (by rw [hseen, hs'])
      · exact .hasMaster (by rw [hpoint, hp']) (by rw [hseen, hs'])
      · exact .adopted l' (by rw [hpoint]; exact hp') (by rw [hseen, hs'])
    · rw [heq]
      exact hconnected fun h => hnot (hmem h)

/-! ## Steps of the tracker -/

/-- The tracker handles a message that is no update, and sends no snapshot that was asked for. -/
theorem Inv.sends (hs : s.Inv p) {tracker : Tracker} {sent : List (ℤ × TrackerMessage)}
    (hcount : tracker.peerTable.peerIDs.count p ≤ 1)
    (hmem : p ∈ s.tracker.peerTable.peerIDs → p ∈ tracker.peerTable.peerIDs)
    (hdiffs : (messagesTo p sent).filter (fun m => m.queue = .fsUpdate) = [])
    (hmasters : s.served = none →
      (messagesTo p sent).filter (fun m => m.queue = .sendMaster) = []) :
    Inv p { s with
      tracker := tracker
      loop := { s.loop with lanes := s.loop.lanes.sendAll (messagesTo p sent) } } := by
  refine hs.frame rfl rfl rfl hcount hmem ?_ (Lanes.inFlight_sendAll _ _ _) hmasters
    fun n hn => ⟨hn, rfl⟩
  show (s.loop.lanes.sendAll _).inFlight .fsUpdate = _
  rw [Lanes.inFlight_sendAll, hdiffs, List.append_nil]

theorem updatesOf_append (l l' : List Seen) : updatesOf (l ++ l') = updatesOf l ++ updatesOf l' :=
  List.filterMap_append

/-- The later updates of the others, after one more update. -/
theorem updatesOfOthers_drop_append {updates : List TrackerMessage} (hn : n ≤ updates.length)
    (message : TrackerMessage) : updatesOfOthers p ((updates ++ [message]).drop n) =
      updatesOfOthers p (updates.drop n) ++ if message.author = some p then [] else [message] := by
  unfold updatesOfOthers
  rw [List.drop_append_of_le_length hn, List.filter_append]
  by_cases hby : message.author = some p <;> simp [hby]

/-- The request is served. -/
theorem Inv.masterRequest (hs : s.Inv p) (hserved : s.served = none) :
    Inv p { s with
      served := some (s.updates.length, s.tracker.fs)
      loop := { s.loop with lanes := (s.loop.lanes.sendAll
        [.master s.tracker.fs, .masterFiletable s.tracker.filetable]) } } where
  count := hs.count
  unserved := nofun
  served n fs h := by
    obtain ⟨hpoint, hmasters, hdiffs, hseen⟩ := hs.unserved hserved
    cases h
    have hnone : updatesOfOthers p (s.updates.drop s.updates.length) = [] := by
      rw [List.drop_length]
      rfl
    refine ⟨le_rfl, .waiting [] hpoint ?_ hseen, ?_, fun _ => hnone⟩
    · show (s.loop.lanes.sendAll _).inFlight .sendMaster = _
      rw [Lanes.inFlight_sendAll, hmasters]
      rfl
    · show updatesOf s.seen ++ (s.loop.lanes.sendAll _).inFlight .fsUpdate = _
      rw [Lanes.inFlight_sendAll, hdiffs, hseen, hnone]
      rfl

/-- An update is accepted: it is broadcast to the client unless the client made it. -/
theorem Inv.clientUpdate (hs : s.Inv p) (hp : 1 ≤ p) {clientID : ℤ} {additions deletions : Folder}
    {tracker : Tracker} (hpt : tracker.peerTable = s.tracker.peerTable)
    (hcalm : clientID = p ∨ (p ∈ s.tracker.peerTable.peerIDs ↔ s.served.isSome = true)) :
    Inv p { s with
      updates := s.updates ++ [.fsUpdate clientID additions deletions]
      tracker := tracker
      loop := { s.loop with lanes := s.loop.lanes.sendAll (messagesTo p
        (filesystemUpdateBroadcast s.tracker.peerTable additions deletions clientID)) } } := by
  have hlen (n : ℕ) (hn : n ≤ s.updates.length) :
      n ≤ (s.updates ++ [TrackerMessage.fsUpdate clientID additions deletions]).length :=
    hn.trans (by rw [List.length_append]; exact Nat.le_add_right _ _)
  have hmasters : (s.loop.lanes.sendAll (messagesTo p (filesystemUpdateBroadcast
      s.tracker.peerTable additions deletions clientID))).inFlight .sendMaster =
        s.loop.lanes.inFlight .sendMaster := by
    have hqueue : (TrackerMessage.fsUpdate clientID additions deletions).queue ≠ .sendMaster := nofun
    rw [Lanes.inFlight_sendAll, filesystemUpdateBroadcast, filter_messagesTo_broadcast hqueue,
      List.append_nil]
  by_cases hother : clientID = p
  · -- the client's own update is not broadcast to it
    refine hs.frame rfl rfl rfl (by rw [hpt]; exact hs.count) (by rw [hpt]; exact id) ?_
      (l := []) (by rw [hmasters, List.append_nil]) (fun _ => rfl) fun n hn => ⟨hlen n hn, ?_⟩
    · show (s.loop.lanes.sendAll _).inFlight .fsUpdate = _
      rw [Lanes.inFlight_sendAll, filesystemUpdateBroadcast, hother, messagesTo_broadcast_self,
        List.filter_nil, List.append_nil]
    · rw [updatesOfOthers_drop_append hn, if_pos (by rw [hother]; rfl), List.append_nil]
  · have hcalm := hcalm.resolve_left hother
    have hdiffs : (s.loop.lanes.sendAll (messagesTo p (filesystemUpdateBroadcast
        s.tracker.peerTable additions deletions clientID))).inFlight .fsUpdate =
          s.loop.lanes.inFlight .fsUpdate ++ List.replicate (s.tracker.peerTable.peerIDs.count p)
            (.fsUpdate clientID additions deletions) := by
      rw [Lanes.inFlight_sendAll, filesystemUpdateBroadcast, messagesTo_broadcast hp (Ne.symm hother),
        List.filter_replicate, if_pos (by rfl)]
    refine ⟨by rw [hpt]; exact hs.count, fun h => ?_, fun n fs h => ?_⟩
    · -- before the request the client is not in the peer table
      obtain ⟨hpoint, hmasters', hdiffs', hseen⟩ := hs.unserved h
      have hnot : p ∉ s.tracker.peerTable.peerIDs := fun hmem => by
        rw [hcalm, show s.served = none from h] at hmem
        cases hmem
      refine ⟨hpoint, hmasters.trans hmasters', ?_, hseen⟩
      exact hdiffs.trans (by rw [hdiffs', List.count_eq_zero.mpr hnot]; rfl)
    · -- after the request it is in one slot
      obtain ⟨hle, hstage, hup, -⟩ := hs.served n fs h
      have hmem : p ∈ s.tracker.peerTable.peerIDs :=
        hcalm.mpr (by rw [show s.served = some (n, fs) from h]; rfl)
      have hcount : s.tracker.peerTable.peerIDs.count p = 1 :=
        le_antisymm hs.count (List.count_pos_iff.mpr hmem)
      refine ⟨hlen n hle, ?_, ?_, fun hnot => absurd (by rw [hpt]; exact hmem) hnot⟩
      · rcases hstage with ⟨l, hp', hm', hs'⟩ | ⟨hp', hs'⟩ | ⟨l, hp', hs'⟩
        · exact .waiting l hp' (hmasters.trans hm') hs'
        · exact .hasMaster hp' hs'
        · exact .adopted l hp' hs'
      · rw [updatesOfOthers_drop_append hle, ← hup, if_neg (by simpa [TrackerMessage.author] using hother)]
        show updatesOf s.seen ++ (s.loop.lanes.sendAll _).inFlight .fsUpdate = _
        rw [hdiffs, hcount, List.append_assoc]
        rfl

/-- A broadcast of another kind. -/
theorem Inv.broadcasts (hs : s.Inv p) {tracker : Tracker}
    (hcount : tracker.peerTable.peerIDs.count p ≤ 1)
    (hmem : p ∈ s.tracker.peerTable.peerIDs → p ∈ tracker.peerTable.peerIDs)
    (hdiff : message.queue ≠ .fsUpdate) (hmaster : message.queue ≠ .sendMaster) :
    Inv p { s with
      tracker := tracker
      loop := { s.loop with
        lanes := s.loop.lanes.sendAll (messagesTo p (broadcast pt peerID message)) } } :=
  hs.sends hcount hmem (filter_messagesTo_broadcast hdiff) fun _ => filter_messagesTo_broadcast hmaster

/-- A master that a departure brings about goes to every slot. -/
theorem messagesTo_pruneFilesystem (hp : 1 ≤ p) {fs fs' : Folder} {ft ft' : FileTable}
    {sent : List (ℤ × TrackerMessage)} (h : pruneFilesystem fs ft pt = .ok (fs', ft', sent)) :
    ∃ k, messagesTo p sent = List.replicate k (.master fs') ∧
      (p ∉ pt.peerIDs ∨ filesToPrune ft = [] → k = 0) := by
  obtain ⟨⟨fs1, ft1⟩, -, h⟩ := bind_eq_ok.mp h
  cases h
  split_ifs with hempty
  · exact ⟨0, rfl, fun _ => rfl⟩
  · refine ⟨pt.peerIDs.count p, ?_, fun hor => List.count_eq_zero.mpr ?_⟩
    · rw [messagesTo_map, List.count_filter]
      simp only [ne_eq, decide_eq_true_eq]
      omega
    · exact hor.resolve_right fun hnil => hempty (List.isEmpty_iff.mpr hnil)

/-- A client has left. -/
theorem Inv.lostClient (hs : s.Inv p) (hp : 1 ≤ p) (hne : peerID ≠ p) {ft : FileTable}
    {pruned : List (ℤ × TrackerMessage)}
    (hcalm : p ∈ s.tracker.peerTable.peerIDs → s.served = none →
      filesToPrune (filetableRemovePeer s.tracker.filetable peerID) = [])
    (hpt : removePeerFromTable s.tracker.peerTable peerID = .ok pt)
    (hprune : pruneFilesystem s.tracker.fs (filetableRemovePeer s.tracker.filetable peerID) pt =
      .ok (fs, ft, pruned)) :
    Inv p { s with
      tracker := ⟨fs, ft, pt⟩
      loop := { s.loop with
        lanes := s.loop.lanes.sendAll (messagesTo p (lostPeerBroadcast pt peerID ++ pruned)) } } := by
  have hcount := count_removePeerFromTable hp hne hpt
  have hmem : p ∈ pt.peerIDs ↔ p ∈ s.tracker.peerTable.peerIDs := by
    rw [← List.count_pos_iff, ← List.count_pos_iff, hcount]
  obtain ⟨k, hpruned, hk⟩ := messagesTo_pruneFilesystem hp hprune
  have hdiff : (TrackerMessage.peerRemoved peerID).queue ≠ .fsUpdate := nofun
  have hmaster : (TrackerMessage.peerRemoved peerID).queue ≠ .sendMaster := nofun
  refine hs.sends (by rw [hcount]; exact hs.count) hmem.mpr ?_ fun hserved => ?_
  · rw [messagesTo_append, List.filter_append, lostPeerBroadcast, filter_messagesTo_broadcast hdiff,
      hpruned, List.filter_replicate]
    rfl
  · have hzero : k = 0 := hk (by
      by_cases hin : p ∈ s.tracker.peerTable.peerIDs
      · exact Or.inr (hcalm hin hserved)
      · exact Or.inl (mt hmem.mp hin))
    rw [messagesTo_append, List.filter_append, lostPeerBroadcast,
      filter_messagesTo_broadcast hmaster, hpruned, hzero]
    rfl

/-- The tracker handles a message. -/
theorem Inv.trackerStep {e : TrackerEvent} (hs : s.Inv p) (hp : 1 ≤ p)
    (hlegal : s.Legal p (.tracker e)) (hcalm : s.Undisturbed p (.tracker e))
    (h : s.step p (.tracker e) = .ok t) : t.Inv p := by
  obtain ⟨⟨tracker, sent⟩, hstep, h⟩ := bind_eq_ok.mp h
  cases h
  cases DartSync.trackerStep hstep with
  | @joined peerID =>
    by_cases hself : peerID = p
    · subst hself
      have hcount := count_addPeerToTable_self hp (hlegal rfl)
      exact hs.broadcasts hcount.le (fun _ => List.count_pos_iff.mp (by rw [hcount]; exact Nat.one_pos))
        nofun nofun
    · have hcount : (addPeerToTable s.tracker.peerTable peerID).peerIDs.count p =
          s.tracker.peerTable.peerIDs.count p := count_addPeerToTable hp hself
      refine hs.broadcasts (by rw [hcount]; exact hs.count) (fun hmem => ?_) nofun nofun
      rwa [← List.count_pos_iff, hcount, List.count_pos_iff]
  | @requested peerID =>
    by_cases hself : peerID = p
    · subst hself
      simpa [record, messagesTo] using hs.masterRequest (hlegal rfl)
    · have hrecord : s.record p (.masterRequest peerID) = s := if_neg hself
      have hnone : messagesTo p [(peerID, .master s.tracker.fs),
          (peerID, .masterFiletable s.tracker.filetable)] = [] := by
        simp [messagesTo, hself]
      rw [hrecord]
      exact hs.sends hs.count id (by rw [hnone]; rfl) fun _ => by rw [hnone]; rfl
  | left hpt hprune => exact hs.lostClient hp hlegal hcalm hpt hprune
  | got => exact hs.broadcasts hs.count id nofun nofun
  | dropped => exact hs.sends hs.count id rfl fun _ => rfl
  | updated => exact hs.clientUpdate hp rfl hcalm

/-! ## Steps of the client -/

theorem sees_of_polled_none {loop : MainLoop} {x : Option ClientEvent} (h : loop.polled = none) :
    loop.sees (.turn x) = [] := by
  unfold MainLoop.sees
  rw [h]
  cases loop.point <;> rfl

theorem isMain_next {point : LoopPoint} (h : point.IsMain) : point.next.IsMain := by
  cases point <;> exact h

/-- The client stays where it is or goes on in its main loop, and polls nothing. -/
theorem Inv.idles (hs : s.Inv p) {loop : MainLoop}
    (hflight : ∀ queue, loop.lanes.inFlight queue = s.loop.lanes.inFlight queue)
    (hpoint : loop.point = s.loop.point ∨ loop.point = s.loop.point.next) :
    Inv p { s with loop := loop } where
  count := hs.count
  unserved h := by
    obtain ⟨hpoint', hmasters, hdiffs, hseen⟩ := hs.unserved h
    refine ⟨?_, (hflight _).trans hmasters, (hflight _).trans hdiffs, hseen⟩
    rw [hpoint'] at hpoint
    exact hpoint.elim id id
  served n fs h := by
    obtain ⟨hle, hstage, hup, hconnected⟩ := hs.served n fs h
    refine ⟨hle, ?_, ?_, hconnected⟩
    · rcases hstage with ⟨l, hp', hm', hs'⟩ | ⟨hp', hs'⟩ | ⟨l, hp', hs'⟩
      · rw [hp'] at hpoint
        exact .waiting l (hpoint.elim id id) ((hflight _).trans hm') hs'
      · rw [hp'] at hpoint
        exact .hasMaster (hpoint.elim id id) hs'
      · refine .adopted l ?_ hs'
        rcases hpoint with heq | heq
        · show loop.point.IsMain
          rw [heq]
          exact hp'
        · show loop.point.IsMain
          rw [heq]
          exact isMain_next hp'
    · show updatesOf s.seen ++ loop.lanes.inFlight .fsUpdate = _
      rw [hflight, hup]

/-- A diff that the client applies is the next one on its way. -/
theorem sees_append_inFlight {loop loop' : MainLoop} {message : TrackerMessage}
    {lanes : Lanes TrackerMessage.queue} (x : Option ClientEvent)
    (hpolled : loop.polled = some (message, lanes))
    (hreceived : Received { loop with lanes := lanes } message loop') :
    updatesOf (loop.sees (.turn x)) ++ loop'.lanes.inFlight .fsUpdate =
      loop.lanes.inFlight .fsUpdate := by
  obtain ⟨-, htake⟩ := MainLoop.polled_eq_some hpolled
  have hother (hne : TrackerQueue.fsUpdate ≠ message.queue) :
      lanes.inFlight .fsUpdate = loop.lanes.inFlight .fsUpdate :=
    Lanes.inFlight_of_take_ne htake hne
  unfold MainLoop.sees
  rw [hpolled]
  cases hreceived with
  | master hpoint =>
    dsimp only at hpoint ⊢
    rw [hpoint]
    exact hother nofun
  | masterFiletable hpoint hstep =>
    dsimp only at hpoint ⊢
    rw [hpoint]
    exact hother nofun
  | gotChunk hpoint hstep =>
    dsimp only at hpoint ⊢
    rw [hpoint]
    exact hother nofun
  | fsUpdate hpoint hstep =>
    dsimp only at hpoint ⊢
    rw [hpoint]
    exact (Lanes.inFlight_of_take htake).symm
  | laterMaster hpoint hstep =>
    dsimp only at hpoint ⊢
    rw [hpoint]
    exact hother nofun

/-- The first master that the client handles is the snapshot. -/
theorem Stage.receives (hstage : s.Stage fs) {loop : MainLoop} {message : TrackerMessage}
    {lanes : Lanes TrackerMessage.queue} (x : Option ClientEvent)
    (hpolled : s.loop.polled = some (message, lanes))
    (hreceived : Received { s.loop with lanes := lanes } message loop) :
    Stage fs { s with loop := loop, seen := s.seen ++ s.loop.sees (.turn x) } := by
  obtain ⟨hqueue, htake⟩ := MainLoop.polled_eq_some hpolled
  have hhead := Lanes.inFlight_of_take htake
  rcases hstage with ⟨l, hp', hm', hs'⟩ | ⟨hp', hs'⟩ | ⟨l, hp', hs'⟩
  · have hsees : s.loop.sees (.turn x) = [] := by
      unfold MainLoop.sees
      rw [hp', hpolled]
    rw [hp'] at hqueue
    rw [← Option.some.inj hqueue, hm'] at hhead
    cases hhead
    rw [hsees, hs']
    cases hreceived with
    | master hpoint => exact .hasMaster rfl rfl
    | laterMaster hpoint hstep =>
      rw [show s.loop.point = .masters from hpoint] at hp'
      cases hp'
  · have hsees : s.loop.sees (.turn x) = [.snapshot fs] := by
      unfold MainLoop.sees
      rw [hp', hpolled]
    rw [hsees, hs']
    cases hreceived with
    | masterFiletable hpoint hstep => exact .adopted [] trivial rfl
    | master hpoint | gotChunk hpoint _ | fsUpdate hpoint _ | laterMaster hpoint _ =>
      dsimp only at hpoint
      rw [hpoint] at hp'
      cases hp'
  · rw [hs', List.cons_append]
    refine .adopted _ ?_ rfl
    cases hreceived with
    | masterFiletable hpoint hstep => trivial
    | master hpoint =>
      dsimp only at hpoint
      rw [hpoint] at hp'
      exact hp'.elim
    | gotChunk hpoint _ | fsUpdate hpoint _ | laterMaster hpoint _ => exact hp'

/-- The client handles a message that it polls. -/
theorem Inv.receives (hs : s.Inv p) {loop : MainLoop} {message : TrackerMessage}
    {lanes : Lanes TrackerMessage.queue} (x : Option ClientEvent)
    (hpolled : s.loop.polled = some (message, lanes))
    (hreceived : Received { s.loop with lanes := lanes } message loop) :
    Inv p { s with loop := loop, seen := s.seen ++ s.loop.sees (.turn x) } := by
  refine ⟨hs.count, fun h => ?_, fun n fs h => ?_⟩
  · -- before the request nothing is on its way
    obtain ⟨hpoint, hmasters, -, -⟩ := hs.unserved h
    obtain ⟨hqueue, htake⟩ := MainLoop.polled_eq_some hpolled
    have hhead := Lanes.inFlight_of_take htake
    rw [hpoint] at hqueue
    rw [← Option.some.inj hqueue, hmasters] at hhead
    cases hhead
  · obtain ⟨hle, hstage, hup, hconnected⟩ := hs.served n fs h
    refine ⟨hle, hstage.receives x hpolled hreceived, ?_, hconnected⟩
    rw [updatesOf_append, List.append_assoc, sees_append_inFlight x hpolled hreceived, hup]

/-- Something happens between the tracker and the client. -/
theorem Inv.clientStep {e : LoopEvent} (hs : s.Inv p) (hlegal : s.Legal p (.client e))
    (h : s.step p (.client e) = .ok t) : t.Inv p := by
  obtain ⟨loop, hloop, h⟩ := bind_eq_ok.mp h
  cases h
  cases e with
  | sends message => exact hlegal.elim
  | transmits queue =>
    cases hloop
    rw [show s.loop.sees (.transmits queue) = [] from rfl, List.append_nil]
    exact hs.idles (Lanes.inFlight_transmit _ _) (Or.inl rfl)
  | delivers =>
    cases hloop
    rw [show s.loop.sees .delivers = [] from rfl, List.append_nil]
    exact hs.idles (Lanes.inFlight_deliver _) (Or.inl rfl)
  | edit dir =>
    obtain ⟨client, sent, -, rfl⟩ := MainLoop.handle_ok hloop
    rw [show s.loop.sees (.edit dir) = [] from rfl, List.append_nil]
    exact hs.idles (fun _ => rfl) (Or.inl rfl)
  | turn x =>
    rcases MainLoop.turn_ok hloop with ⟨message, lanes, hpolled, hreceived⟩ |
      ⟨hpolled, hlanes, hpoint, -⟩
    · exact hs.receives x hpolled hreceived
    · rw [sees_of_polled_none hpolled, List.append_nil]
      exact hs.idles (fun _ => by rw [hlanes]) hpoint

theorem Inv.step (hs : s.Inv p) (hp : 1 ≤ p) (hlegal : s.Legal p ev) (hcalm : s.Undisturbed p ev)
    (h : s.step p ev = .ok t) : t.Inv p := by
  cases ev with
  | tracker e => exact hs.trackerStep hp hlegal hcalm h
  | client e => exact hs.clientStep hlegal h

end Joining

/-! ## All runs -/

/-- **Joining.** If nothing comes between the connection and the request, the client sees every update
of the others once. -/
theorem seesOnce_of_undisturbed {dir : Directory} {now : UInt64} {rand : Rand}
    {evs : List JoiningEvent} {s : Joining} (hp : 1 ≤ p)
    (h : Run (Joining.step p) (fun s ev => s.Legal p ev ∧ s.Undisturbed p ev)
      (.initial dir now rand) evs s) : s.SeesOnce p :=
  (h.invariant (fun _ _ _ hs hev hstep => hs.step hp hev.1 hev.2 hstep)
    (Joining.inv_initial hp)).seesOnce

/-! ## An update between the connection and the request -/

namespace JoiningExample

open UpdateRun

/-- Client 1 joins with an empty directory. -/
def start : Joining := .initial .empty 0 fun _ => 0

def legalTest (p : ℤ) (s : Joining) : JoiningEvent → Bool
  | .tracker (.newClient peerID) => peerID ≠ p || !s.tracker.peerTable.peerIDs.contains p
  | .tracker (.masterRequest peerID) => peerID ≠ p || s.served.isNone
  | .tracker (.lostClient peerID) => peerID ≠ p
  | .client (.sends _) => false
  | _ => true

theorem legal_of_test {p : ℤ} (s : Joining) (ev : JoiningEvent) (h : legalTest p s ev = true) :
    s.Legal p ev := by
  cases ev with
  | tracker e =>
    cases e with
    | newClient peerID => simpa [legalTest, Joining.Legal, or_iff_not_imp_left] using h
    | masterRequest peerID => simpa [legalTest, Joining.Legal, or_iff_not_imp_left] using h
    | lostClient peerID => simpa [legalTest, Joining.Legal] using h
    | clientGot | clientUpdate => trivial
  | client e =>
    cases e with
    | sends message => cases h
    | _ => trivial

def undisturbedTest (p : ℤ) (s : Joining) : JoiningEvent → Bool
  | .tracker (.clientUpdate clientID _ _) =>
    clientID = p || s.tracker.peerTable.peerIDs.contains p = s.served.isSome
  | .tracker (.lostClient _) => false
  | _ => true

theorem undisturbed_of_test {p : ℤ} (s : Joining) (ev : JoiningEvent)
    (h : undisturbedTest p s ev = true) : s.Undisturbed p ev := by
  cases ev with
  | tracker e =>
    cases e with
    | clientUpdate clientID additions deletions =>
      simp only [undisturbedTest, Bool.or_eq_true, decide_eq_true_eq] at h
      refine h.imp_right fun heq => ?_
      rw [← heq, List.contains_iff_mem]
    | lostClient peerID => cases h
    | newClient | masterRequest | clientGot => trivial
  | client e => trivial

/-- Everything that is on its way reaches the client. -/
def arrives : List JoiningEvent :=
  [.client (.transmits .sendMaster), .client (.transmits .sendMasterFt),
    .client (.transmits .fsUpdate), .client .delivers, .client .delivers, .client .delivers]

/-- The client adopts the snapshot and comes to its first poll of the diffs. -/
def adopts : List JoiningEvent := List.replicate 7 (.client (.turn none))

/-- Client 2 adds a folder, client 1 joins, and client 2 adds a file to the folder. -/
def inOrder : List JoiningEvent :=
  [.tracker (.newClient 2), .tracker (.clientUpdate 2 withFolder emptyFilesystem),
    .tracker (.newClient 1), .tracker (.masterRequest 1),
    .tracker (.clientUpdate 2 (filesystemDiff withFolder withFile).1 emptyFilesystem)] ++
    arrives ++ adopts ++ [.client (.turn none)]

/-- Client 2 adds the folder after client 1 has connected. -/
def inBetween : List JoiningEvent :=
  [.tracker (.newClient 2), .tracker (.newClient 1),
    .tracker (.clientUpdate 2 withFolder emptyFilesystem), .tracker (.masterRequest 1)]

/-- The request of client 1 overtakes its connection; client 2 adds the folder in between and later
the file. -/
def overtaken : List JoiningEvent :=
  [.tracker (.newClient 2), .tracker (.masterRequest 1),
    .tracker (.clientUpdate 2 withFolder emptyFilesystem), .tracker (.newClient 1),
    .tracker (.clientUpdate 2 (filesystemDiff withFolder withFile).1 emptyFilesystem)] ++
    arrives ++ adopts

end JoiningExample

open JoiningExample

theorem seesOnce_of_two_updates :
    ∃ s, Run (Joining.step 1) (fun s ev => s.Legal 1 ev ∧ s.Undisturbed 1 ev) start inOrder s ∧
      s.updates.length = 2 ∧ s.seen.length = 2 ∧ s.SeesOnce 1 := by
  have hrun : (runIf (Joining.step 1) (fun s ev => legalTest 1 s ev && undisturbedTest 1 s ev)
      start inOrder).any (fun s => s.updates.length = 2 && s.seen.length = 2) = true := by
    decide +kernel
  obtain ⟨s, hs, htest⟩ := (Option.any_eq_true _ _).mp hrun
  simp only [Bool.and_eq_true, decide_eq_true_eq] at htest
  have hs : Run (Joining.step 1) (fun s ev => s.Legal 1 ev ∧ s.Undisturbed 1 ev) start inOrder s :=
    run_of_runIf (fun s ev h => ⟨legal_of_test s ev (Bool.and_eq_true_iff.mp h).1,
      undisturbed_of_test s ev (Bool.and_eq_true_iff.mp h).2⟩) hs
  exact ⟨s, hs, htest.1, htest.2, seesOnce_of_undisturbed (by decide) hs⟩

/-- The snapshot has the folder, and the update that adds it is on its way as well. -/
theorem update_seen_twice :
    ∃ s fs, Run (Joining.step 1) (Joining.Legal 1) start inBetween s ∧ s.served = some (1, fs) ∧
      s.updates.length = 1 ∧ ¬ s.SeesOnce 1 := by
  have hrun : (runIf (Joining.step 1) (legalTest 1) start inBetween).any (fun s =>
      s.served.any (fun served => served.1 = 1) && s.updates.length = 1 &&
      !(s.loop.lanes.inFlight .fsUpdate).isEmpty) = true := by decide +kernel
  obtain ⟨s, hs, htest⟩ := (Option.any_eq_true _ _).mp hrun
  simp only [Bool.and_eq_true, decide_eq_true_eq] at htest
  obtain ⟨⟨hserved, hlen⟩, hflight⟩ := htest
  obtain ⟨⟨n, fs⟩, hserved, hn⟩ := (Option.any_eq_true _ _).mp hserved
  obtain rfl := of_decide_eq_true hn
  refine ⟨s, fs, run_of_runIf legal_of_test hs, hserved, hlen, fun h => ?_⟩
  have hall := (h 1 fs hserved).2
  rw [List.drop_eq_nil_of_le hlen.le] at hall
  rw [(List.append_eq_nil_iff.mp hall).2] at hflight
  cases hflight

/-- The update that adds the folder is neither in the snapshot nor sent to client 1, which fails when
it adds the file to the folder. -/
theorem update_never_seen :
    ∃ s fs, Run (Joining.step 1) (Joining.Legal 1) start overtaken s ∧ s.served = some (0, fs) ∧
      (updatesOfOthers 1 s.updates).length = 2 ∧
      (updatesOf s.seen ++ s.loop.lanes.inFlight .fsUpdate).length = 1 ∧
      s.step 1 (.client (.turn none)) = .error .found ∧ ¬ s.SeesOnce 1 := by
  have hrun : (runIf (Joining.step 1) (legalTest 1) start overtaken).any (fun s =>
      s.served.any (fun served => served.1 = 0) && (updatesOfOthers 1 s.updates).length = 2 &&
      (updatesOf s.seen ++ s.loop.lanes.inFlight .fsUpdate).length = 1 &&
      failsWith .found (s.step 1 (.client (.turn none)))) = true := by decide +kernel
  obtain ⟨s, hs, htest⟩ := (Option.any_eq_true _ _).mp hrun
  simp only [Bool.and_eq_true, decide_eq_true_eq] at htest
  obtain ⟨⟨⟨hserved, hupdates⟩, hreached⟩, hfail⟩ := htest
  obtain ⟨⟨n, fs⟩, hserved, hn⟩ := (Option.any_eq_true _ _).mp hserved
  obtain rfl := of_decide_eq_true hn
  refine ⟨s, fs, run_of_runIf legal_of_test hs, hserved, hupdates, hreached, failsWith_iff.mp hfail,
    fun h => ?_⟩
  have hall := congrArg List.length (h 0 fs hserved).2
  rw [hreached, List.drop_zero, hupdates] at hall
  cases hall

end DartSync
