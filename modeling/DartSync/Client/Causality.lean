import DartSync.Client.Chunks
import DartSync.Client.MainLoop
import DartSync.Library.Runs

/-!
# Acquisitions and the diffs they depend on

The tracker sends a client the diff that adds a file before it sends acquisitions of the file's
chunks. Diffs and acquisitions go through different queues, at the tracker and at the client, and
both ends empty the queue of the acquisitions first, so an acquisition can overtake the diff that it
depends on, and a later diff can overtake it. Then the entry is not there and
`filetable_set_that_peer_has_file_chunk` ends in `assert(0)`. Acquisitions that are handled in order
find their entry (`findsEntry_of_inOrder`).
-/

namespace DartSync

open FileTable Runs

variable {file : CString} {chunk owner : ℤ} {message m : TrackerMessage}
  {lanes : Lanes TrackerMessage.queue}

/-! ## What a diff says of a file -/

/-- The message is a diff that adds the file. -/
def TrackerMessage.Introduces (file : CString) : TrackerMessage → Prop
  | .fsUpdate _ additions _ => ListsFile (filesystemIteratorRelative true additions) file
  | _ => False

/-- The message is a diff that adds the file, with that chunk. -/
def TrackerMessage.Adds (file : CString) (chunk : ℤ) : TrackerMessage → Prop
  | .fsUpdate _ additions _ => AddsChunk additions file chunk
  | _ => False

/-- The message is a diff that adds or deletes the file. -/
def TrackerMessage.Lists (file : CString) : TrackerMessage → Prop
  | .fsUpdate _ additions deletions =>
    ListsFile (filesystemIteratorRelative true additions) file ∨
      ListsFile (filesystemIteratorRelative true deletions) file
  | _ => False

instance (file : CString) : DecidablePred (TrackerMessage.Lists file)
  | .fsUpdate _ _ _ => inferInstanceAs (Decidable (_ ∨ _))
  | .peerAdded _ | .peerRemoved _ | .gotChunk _ _ _ | .master _ | .masterFiletable _ =>
    inferInstanceAs (Decidable False)

instance (file : CString) (chunk : ℤ) : DecidablePred (TrackerMessage.Adds file chunk)
  | .fsUpdate _ _ _ => inferInstanceAs (Decidable (AddsChunk _ _ _))
  | .peerAdded _ | .peerRemoved _ | .gotChunk _ _ _ | .master _ | .masterFiletable _ =>
    inferInstanceAs (Decidable False)

theorem TrackerMessage.Adds.introduces (h : m.Adds file chunk) : m.Introduces file := by
  cases m with
  | fsUpdate originator additions deletions => exact h.1
  | _ => exact h

theorem TrackerMessage.Adds.lists (h : m.Adds file chunk) : m.Lists file := by
  cases m with
  | fsUpdate originator additions deletions => exact Or.inl h.1
  | _ => exact h

/-! ## Runs -/

/-- A client with a record of what it has been sent and what it has handled. -/
structure CausalRun where
  loop : MainLoop
  /-- The diffs that have been sent. -/
  diffs : List TrackerMessage
  /-- For each acquisition on its way, how many diffs were sent before it. -/
  stamps : List ℕ
  /-- How many diffs have been handled. -/
  handled : ℕ
  /-- The diff that was the last change of a file; none after a master or a local change. -/
  lastDiff : CString → Option ℕ

namespace CausalRun

/-- The record of the last changes after an event of the client. -/
def forget (s : CausalRun) (ev : ClientEvent) (file : CString) : Option ℕ :=
  if s.loop.client.Changes file ev then none else s.lastDiff file

/-- The record after a message has been queued by the tracker. -/
def recordSent (s : CausalRun) (message : TrackerMessage) : CausalRun :=
  match message with
  | .fsUpdate _ _ _ => { s with diffs := s.diffs ++ [message] }
  | .gotChunk _ _ _ => { s with stamps := s.stamps ++ [s.diffs.length] }
  | _ => s

/-- The record after a message has been handled. A new table changes every file. -/
def recordReceived (s : CausalRun) (message : TrackerMessage) : CausalRun :=
  match message with
  | .fsUpdate _ _ _ => { s with
      handled := s.handled + 1
      lastDiff := fun file => if message.Lists file then some s.handled else s.lastDiff file }
  | .gotChunk _ _ _ => { s with stamps := s.stamps.tail }
  | .master fs => { s with lastDiff := s.forget (.master fs) }
  | .masterFiletable _ => { s with lastDiff := fun _ => none }
  | _ => s

def record (s : CausalRun) : LoopEvent → CausalRun
  | .sends message => s.recordSent message
  | .turn ev =>
    match s.loop.polled, ev with
    | some (message, _), _ => s.recordReceived message
    | none, some ev => { s with lastDiff := s.forget ev }
    | none, none => s
  | _ => s

def step (s : CausalRun) (ev : LoopEvent) : Except Abort CausalRun := do
  let loop ← s.loop.step ev
  return { s.record ev with loop := loop }

def initial (dir : Directory) (now : UInt64) (rand : Rand) : CausalRun where
  loop := .initial dir now rand
  diffs := []
  stamps := []
  handled := 0
  lastDiff _ := none

/-- The last diff that lists the file, among the first `n`, adds it with that chunk. -/
def Stands (diffs : List TrackerMessage) (n : ℕ) (file : CString) (chunk : ℤ) : Prop :=
  ∃ i m, i < n ∧ diffs[i]? = some m ∧ m.Adds file chunk ∧
    ∀ j m', i < j → j < n → diffs[j]? = some m' → ¬ m'.Lists file

/-- If an acquisition is polled next, then the diffs sent before it that add the file have been
handled, and the last change of the file that has been handled is a diff sent before it. -/
def InOrder (s : CausalRun) : Prop :=
  ∀ owner file chunk lanes, s.loop.polled = some (.gotChunk owner file chunk, lanes) →
    ∀ n ∈ s.stamps.head?, (∀ m ∈ (s.diffs.take n).drop s.handled, ¬ m.Introduces file) ∧
      ∃ i < n, s.lastDiff file = some i

/-- If an acquisition is polled next, of a chunk that a diff sent before it has added, then its file
has an entry with that chunk, and the turn fails no assertion. -/
def FindsEntry (s : CausalRun) : Prop :=
  ∀ owner file chunk lanes, s.loop.polled = some (.gotChunk owner file chunk, lanes) →
    ∀ n ∈ s.stamps.head?, Stands s.diffs n file chunk →
      s.loop.client.ft.HasChunk file chunk ∧ ∀ ev, ∃ t, s.step (.turn ev) = .ok t

end CausalRun

/-! ## The invariant -/

namespace CausalRun

variable {s t : CausalRun} {diffs : List TrackerMessage} {n : ℕ} {ev : LoopEvent}

structure Inv (s : CausalRun) : Prop where
  /-- The diffs on their way are those that have not been handled. -/
  diffs : s.loop.lanes.inFlight .fsUpdate = s.diffs.drop s.handled
  handled : s.handled ≤ s.diffs.length
  stamps : List.Forall₂ (fun _ n => n ≤ s.diffs.length) (s.loop.lanes.inFlight .fileAcq) s.stamps
  last : ∀ file i, s.lastDiff file = some i → i < s.handled ∧
    (∃ m, s.diffs[i]? = some m ∧ m.Lists file) ∧
    ∀ j m, i < j → j < s.handled → s.diffs[j]? = some m → ¬ m.Lists file
  /-- The entry of a file is the one that its last change made. -/
  chunk : ∀ file i m chunk, s.lastDiff file = some i → s.diffs[i]? = some m →
    m.Adds file chunk → s.loop.client.ft.HasChunk file chunk

theorem inv_initial (dir : Directory) (now : UInt64) (rand : Rand) :
    (initial dir now rand).Inv :=
  ⟨rfl, le_rfl, .nil, nofun, nofun⟩

/-- **In order.** An acquisition that is handled in order finds its entry. -/
theorem Inv.hasChunk (hs : s.Inv) (hin : s.InOrder)
    (hpolled : s.loop.polled = some (.gotChunk owner file chunk, lanes)) (hn : n ∈ s.stamps.head?)
    (hstands : Stands s.diffs n file chunk) : s.loop.client.ft.HasChunk file chunk := by
  obtain ⟨i, m, hi, hm, hadds, hlater⟩ := hstands
  obtain ⟨hwaiting, k, hk, hlast⟩ := hin owner file chunk lanes hpolled n hn
  obtain ⟨hklt, ⟨m', hm', hlists⟩, hlatest⟩ := hs.last file k hlast
  -- the diff that adds the file has been handled
  have hhandled : i < s.handled := by
    by_contra hnot
    refine hwaiting m (List.mem_of_getElem? (i := i - s.handled) ?_) hadds.introduces
    rw [List.getElem?_drop, Nat.add_sub_cancel' (not_lt.mp hnot), List.getElem?_take_of_lt hi, hm]
  -- and it is the last change
  have hki : k = i := by
    rcases lt_trichotomy k i with hlt | heq | hgt
    · exact absurd hadds.lists (hlatest i m hlt hhandled hm)
    · exact heq
    · exact absurd hlists (hlater k m' hgt hk hm')
  exact hs.chunk file i m chunk (hki ▸ hlast) hm hadds

/-! ## Steps -/

theorem step_ok (h : s.step ev = .ok t) :
    ∃ loop, s.loop.step ev = .ok loop ∧ t = { s.record ev with loop := loop } := by
  obtain ⟨loop, hloop, h⟩ := bind_eq_ok.mp h
  cases h
  exact ⟨loop, hloop, rfl⟩

theorem lastDiff_of_forget {x : ClientEvent} {i : ℕ} (h : s.forget x file = some i) :
    s.lastDiff file = some i := by
  unfold forget at h
  split_ifs at h
  exact h

theorem not_changes_of_forget {x : ClientEvent} {i : ℕ} (h : s.forget x file = some i) :
    ¬ s.loop.client.Changes file x := by
  unfold forget at h
  split_ifs at h with hchanges
  exact hchanges

/-- The diffs and their handling are as before, and an entry whose last change is still a diff has
its chunks. -/
theorem Inv.mono (hs : s.Inv) (hdiffs : t.diffs = s.diffs) (hhandled : t.handled = s.handled)
    (hflight : t.loop.lanes.inFlight .fsUpdate = s.loop.lanes.inFlight .fsUpdate)
    (hstamps : List.Forall₂ (fun _ n => n ≤ s.diffs.length) (t.loop.lanes.inFlight .fileAcq) t.stamps)
    (hlast : ∀ file i, t.lastDiff file = some i → s.lastDiff file = some i ∧
      ∀ k, s.loop.client.ft.HasChunk file k → t.loop.client.ft.HasChunk file k) : t.Inv where
  diffs := by rw [hflight, hdiffs, hhandled, hs.diffs]
  handled := by rw [hdiffs, hhandled]; exact hs.handled
  stamps := by rw [hdiffs]; exact hstamps
  last file i hi := by
    rw [hdiffs, hhandled]
    exact hs.last file i (hlast file i hi).1
  chunk file i m k hi hm hadds := by
    rw [hdiffs] at hm
    exact (hlast file i hi).2 k (hs.chunk file i m k (hlast file i hi).1 hm hadds)

/-- The tracker queues a diff. -/
theorem Inv.sendsDiff (hs : s.Inv) (hm : message.queue = .fsUpdate) :
    Inv { s with
      diffs := s.diffs ++ [message]
      loop := { s.loop with lanes := s.loop.lanes.send message } } where
  diffs := by
    show (s.loop.lanes.send message).inFlight .fsUpdate = _
    rw [Lanes.inFlight_send_of_kind hm, hs.diffs, List.drop_append_of_le_length hs.handled]
  handled := by
    show s.handled ≤ (s.diffs ++ [message]).length
    rw [List.length_append]
    exact Nat.le_add_right_of_le hs.handled
  stamps := by
    show List.Forall₂ _ ((s.loop.lanes.send message).inFlight .fileAcq) _
    rw [Lanes.inFlight_send_of_ne (by rw [hm]; decide)]
    refine hs.stamps.imp fun x n hx => ?_
    rw [List.length_append]
    exact Nat.le_add_right_of_le hx
  last file i hi := by
    obtain ⟨hlt, ⟨m, hm, hlists⟩, hlatest⟩ := hs.last file i hi
    have hold (j : ℕ) (hj : j < s.handled) : (s.diffs ++ [message])[j]? = s.diffs[j]? :=
      List.getElem?_append_left (hj.trans_le hs.handled)
    refine ⟨hlt, ⟨m, by rw [hold i hlt, hm], hlists⟩, fun j m' hij hj hm' => ?_⟩
    exact hlatest j m' hij hj (by rw [← hold j hj, hm'])
  chunk file i m k hi hm hadds := by
    have hlt := (hs.last file i hi).1
    have hm : (s.diffs ++ [message])[i]? = some m := hm
    rw [List.getElem?_append_left (hlt.trans_le hs.handled)] at hm
    exact hs.chunk file i m k hi hm hadds

/-- The tracker queues a message that is neither a diff nor an acquisition. -/
theorem Inv.sendsOther (hs : s.Inv) (hdiff : message.queue ≠ .fsUpdate)
    (hacq : message.queue ≠ .fileAcq) :
    Inv { s with loop := { s.loop with lanes := s.loop.lanes.send message } } := by
  refine hs.mono rfl rfl (Lanes.inFlight_send_of_ne hdiff) ?_ fun _ _ hi => ⟨hi, fun _ h => h⟩
  show List.Forall₂ _ ((s.loop.lanes.send message).inFlight .fileAcq) _
  rw [Lanes.inFlight_send_of_ne hacq]
  exact hs.stamps

/-- The client handles a diff. -/
theorem Inv.handlesDiff (hs : s.Inv) {originator : ℤ} {additions deletions : Folder}
    {client : Client} {sent : List ClientMessage}
    (htake : s.loop.lanes.take .fsUpdate = some (.fsUpdate originator additions deletions, lanes))
    (hstep : s.loop.client.step (.diff additions deletions originator) = .ok (client, sent)) :
    Inv { s with
      handled := s.handled + 1
      lastDiff := fun file => if TrackerMessage.Lists file (.fsUpdate originator additions deletions)
        then some s.handled else s.lastDiff file
      loop := { s.loop with client := client, lanes := lanes } } := by
  have hflight := Lanes.inFlight_of_take htake
  rw [hs.diffs] at hflight
  have hlt : s.handled < s.diffs.length := by
    by_contra hnot
    rw [List.drop_eq_nil_of_le (not_lt.mp hnot)] at hflight
    cases hflight
  have hget : s.diffs[s.handled]? = some (.fsUpdate originator additions deletions) := by
    have hhead := congrArg List.head? hflight
    rwa [List.head?_drop] at hhead
  refine ⟨?_, hlt, ?_, fun file i hi => ?_, fun file i m k hi hm hadds => ?_⟩
  · have htail := congrArg List.tail hflight
    rw [List.tail_drop] at htail
    exact htail.symm
  · show List.Forall₂ _ (lanes.inFlight .fileAcq) _
    rw [Lanes.inFlight_of_take_ne htake (by decide)]
    exact hs.stamps
  · dsimp only at hi ⊢
    split_ifs at hi with hlists
    · cases hi
      exact ⟨Nat.lt_succ_self _, ⟨_, hget, hlists⟩, fun j m hj hj' => by omega⟩
    · obtain ⟨hlt', hold, hlatest⟩ := hs.last file i hi
      refine ⟨by omega, hold, fun j m hij hj hm => ?_⟩
      rcases Nat.lt_succ_iff_lt_or_eq.mp hj with hj | rfl
      · exact hlatest j m hij hj hm
      · rw [hget] at hm
        cases hm
        exact hlists
  · dsimp only at hi hm ⊢
    split_ifs at hi with hlists
    · cases hi
      rw [hget] at hm
      cases hm
      exact hasChunk_receiveDiff hadds hstep
    · have hnot : ¬ s.loop.client.Changes file (.diff additions deletions originator) := hlists
      exact hasChunk_step hnot hstep (hs.chunk file i m k hi hm hadds)

/-- The client handles a message that it polls. -/
theorem Inv.receives (hs : s.Inv) {loop : MainLoop}
    (hpolled : s.loop.polled = some (message, lanes))
    (hreceived : Received { s.loop with lanes := lanes } message loop) :
    Inv { s.recordReceived message with loop := loop } := by
  obtain ⟨hqueue, htake⟩ := MainLoop.polled_eq_some hpolled
  have hother (queue : TrackerQueue) (hne : queue ≠ message.queue) :
      lanes.inFlight queue = s.loop.lanes.inFlight queue := Lanes.inFlight_of_take_ne htake hne
  cases hreceived with
  | master hpoint =>
    refine hs.mono rfl rfl (hother _ nofun) ?_ fun file i hi => ?_
    · exact (hother .fileAcq nofun).symm ▸ hs.stamps
    · exact ⟨lastDiff_of_forget hi, fun _ h => h⟩
  | masterFiletable hpoint hstep =>
    refine hs.mono rfl rfl (hother _ nofun) ?_ nofun
    exact (hother .fileAcq nofun).symm ▸ hs.stamps
  | gotChunk hpoint hstep =>
    refine hs.mono rfl rfl (hother _ nofun) ?_ fun _ _ hi => ⟨hi, fun k h => ?_⟩
    · have hflight : s.loop.lanes.inFlight .fileAcq = _ :: _ := Lanes.inFlight_of_take htake
      have hstamps := hs.stamps
      rw [hflight] at hstamps
      obtain ⟨n, ns, -, hrest, hns⟩ := List.forall₂_cons_left_iff.mp hstamps
      show List.Forall₂ _ (lanes.inFlight .fileAcq) s.stamps.tail
      rw [hns]
      exact hrest
    · exact hasChunk_step (show ¬ Client.Changes _ _ (.chunkGot _ _ _) from id) hstep h
  | fsUpdate hpoint hstep => exact hs.handlesDiff htake hstep
  | laterMaster hpoint hstep =>
    refine hs.mono rfl rfl (hother _ nofun) ?_ fun file i hi => ?_
    · exact (hother .fileAcq nofun).symm ▸ hs.stamps
    · exact ⟨lastDiff_of_forget hi, fun _ h => hasChunk_step (not_changes_of_forget hi) hstep h⟩

/-- The client polls nothing, and may handle another event. -/
theorem Inv.polls (hs : s.Inv) {loop : MainLoop} {x : ClientEvent} (hlanes : loop.lanes = s.loop.lanes)
    (hclient : loop.client = s.loop.client ∨
      ∃ sent, s.loop.client.step x = .ok (loop.client, sent)) :
    Inv { s with lastDiff := s.forget x, loop := loop } := by
  have hflight (queue : TrackerQueue) :
      loop.lanes.inFlight queue = s.loop.lanes.inFlight queue := by rw [hlanes]
  refine hs.mono rfl rfl (hflight _) ((hflight _).symm ▸ hs.stamps) fun file i hi =>
    ⟨lastDiff_of_forget hi, fun k h => ?_⟩
  rcases hclient with hclient | ⟨sent, hstep⟩
  · show loop.client.ft.HasChunk _ _
    rwa [hclient]
  · exact hasChunk_step (not_changes_of_forget hi) hstep h

/-- Every step keeps the invariant. -/
theorem Inv.step (hs : s.Inv) (h : s.step ev = .ok t) : t.Inv := by
  obtain ⟨loop, hloop, rfl⟩ := step_ok h
  cases ev with
  | sends message =>
    cases hloop
    cases message with
    | fsUpdate originator additions deletions => exact hs.sendsDiff rfl
    | gotChunk owner file chunk =>
      have hqueue : (TrackerMessage.gotChunk owner file chunk).queue = .fileAcq := rfl
      refine hs.mono rfl rfl ?_ ?_ fun _ _ hi => ⟨hi, fun _ h => h⟩
      · exact Lanes.inFlight_send_of_ne (by rw [hqueue]; decide)
      · show List.Forall₂ _ ((s.loop.lanes.send _).inFlight .fileAcq) (s.stamps ++ [s.diffs.length])
        rw [Lanes.inFlight_send_of_kind hqueue]
        exact List.rel_append hs.stamps (.cons le_rfl .nil)
    | peerAdded _ | peerRemoved _ | master _ | masterFiletable _ => exact hs.sendsOther nofun nofun
  | transmits queue =>
    cases hloop
    refine hs.mono rfl rfl (Lanes.inFlight_transmit _ _ _) ?_ fun _ _ hi => ⟨hi, fun _ h => h⟩
    show List.Forall₂ _ ((s.loop.lanes.transmit queue).inFlight .fileAcq) _
    rw [Lanes.inFlight_transmit]
    exact hs.stamps
  | delivers =>
    cases hloop
    refine hs.mono rfl rfl (Lanes.inFlight_deliver _ _) ?_ fun _ _ hi => ⟨hi, fun _ h => h⟩
    show List.Forall₂ _ (s.loop.lanes.deliver.inFlight .fileAcq) _
    rw [Lanes.inFlight_deliver]
    exact hs.stamps
  | edit dir =>
    obtain ⟨client, sent, hstep, rfl⟩ := MainLoop.handle_ok hloop
    refine hs.mono rfl rfl rfl hs.stamps fun _ _ hi => ⟨hi, fun _ h => ?_⟩
    exact hasChunk_step (show ¬ Client.Changes _ _ (.edit dir) from id) hstep h
  | turn x =>
    rcases MainLoop.turn_ok hloop with ⟨message, lanes, hpolled, hreceived⟩ |
      ⟨hpolled, hlanes, -, hclient⟩
    · have hrecord : s.record (.turn x) = s.recordReceived message := by
        unfold record
        dsimp only
        rw [hpolled]
      rw [hrecord]
      exact hs.receives hpolled hreceived
    · unfold record
      dsimp only
      rw [hpolled]
      cases x with
      | none =>
        have hclient : loop.client = s.loop.client := hclient.resolve_right nofun
        refine hs.mono rfl rfl (by rw [hlanes]) (hlanes.symm ▸ hs.stamps) fun _ _ hi => ⟨hi, ?_⟩
        intro k h
        show loop.client.ft.HasChunk _ _
        rwa [hclient]
      | some x =>
        refine hs.polls hlanes (hclient.imp_right ?_)
        rintro ⟨y, sent, heq, -, hstep⟩
        cases heq
        exact ⟨sent, hstep⟩

/-- The turn that handles an acquisition succeeds if the entry is there. -/
theorem step_turn_gotChunk
    (hpolled : s.loop.polled = some (.gotChunk owner file chunk, lanes))
    (hchunk : s.loop.client.ft.HasChunk file chunk) (ev : Option ClientEvent) :
    ∃ t, s.step (.turn ev) = .ok t := by
  obtain ⟨hqueue, -⟩ := MainLoop.polled_eq_some hpolled
  have hpoint : s.loop.point = .chunkGots := by
    rcases LoopPoint.queue_eq_some hqueue with ⟨-, h⟩ | ⟨-, -, h⟩ | ⟨h, -⟩ | ⟨-, h⟩ | ⟨-, h⟩
    · cases h
    · cases h
    · exact h
    · cases h
    · cases h
  obtain ⟨ft, hft⟩ := filetableSetThatPeerHasFileChunk_isOk.mpr hchunk
  refine ⟨{ s.record (.turn ev) with
    loop := { s.loop with lanes := lanes, client := { s.loop.client with ft := ft } } }, ?_⟩
  refine bind_eq_ok.mpr ⟨_, ?_, rfl⟩
  show s.loop.turn ev = _
  unfold MainLoop.turn
  rw [hpolled]
  show MainLoop.receive { s.loop with lanes := lanes } (.gotChunk owner file chunk) = _
  unfold MainLoop.receive
  dsimp only
  rw [hpoint]
  refine bind_eq_ok.mpr ⟨({ s.loop.client with ft := ft }, []), ?_, rfl⟩
  exact bind_eq_ok.mpr ⟨ft, hft, rfl⟩

end CausalRun

/-! ## All runs -/

/-- **Causal order.** In every run an acquisition finds its entry if it is handled in order. -/
theorem findsEntry_of_inOrder {dir : Directory} {now : UInt64} {rand : Rand} {evs : List LoopEvent}
    {s : CausalRun}
    (h : Run CausalRun.step (fun _ _ => True) (.initial dir now rand) evs s)
    (hin : s.InOrder) : s.FindsEntry := by
  have hs : s.Inv := h.invariant (fun _ _ _ hs _ hstep => hs.step hstep)
    (CausalRun.inv_initial dir now rand)
  intro owner file chunk lanes hpolled n hn hstands
  have hchunk := hs.hasChunk hin hpolled hn hstands
  exact ⟨hchunk, CausalRun.step_turn_gotChunk hpolled hchunk⟩

/-! ## A diff and an acquisition that come together -/

namespace CausalityExample

/-- A tree with a file `a` of one byte. -/
def withFile : Folder := ⟨.empty, [⟨.ofBytes [97], 1, 1, 0⟩], []⟩

/-- The path of the file. -/
def fileA : CString := .ofBytes [47, 97]

/-- A client that knows of no file. -/
def start : CausalRun := .initial .empty 0 fun _ => 0

/-- The client gets the empty master and its empty table, and starts its main loop. -/
def adopts : List LoopEvent :=
  [.sends (.master emptyFilesystem), .sends (.masterFiletable filetableNew), .transmits .sendMaster,
    .transmits .sendMasterFt, .delivers, .delivers, .turn none, .turn none]

/-- Peer 2 adds the file. -/
def diff : LoopEvent := .sends (.fsUpdate 2 withFile emptyFilesystem)

/-- Peer 3 gets its chunk. -/
def acquisition : LoopEvent := .sends (.gotChunk 3 fileA 0)

/-- The main loop goes on from its first poll to the poll of the acquisitions. -/
def toChunkGots : List LoopEvent := [.turn none, .turn none, .turn none, .turn none]

/-- Both messages wait when the main loop comes to the acquisitions. -/
def together : List LoopEvent :=
  adopts ++ [diff, acquisition, .transmits .fileAcq, .transmits .fsUpdate, .delivers, .delivers] ++
    toChunkGots

/-- The diff is handled one turn of the main loop before the acquisition comes. -/
def apart : List LoopEvent :=
  adopts ++ [diff, .transmits .fsUpdate, .delivers] ++ toChunkGots ++
    [.turn none, .turn none, .turn none, .turn none, .turn (some .workQueue),
      .turn (some (.checkLocal 0)), acquisition, .transmits .fileAcq, .delivers] ++ toChunkGots

/-- The acquisition is polled next, and the diff was sent before it. -/
def isPolled (s : CausalRun) : Bool :=
  (s.loop.polled.any fun polled => match polled.1 with
    | .gotChunk owner file chunk => owner = 3 && file = fileA && chunk = 0
    | _ => false) &&
  s.stamps.head? = some 1 && s.diffs.length = 1 &&
    s.diffs.all fun m => decide (m.Adds fileA 0)

theorem polled_of_isPolled {s : CausalRun} (h : isPolled s = true) :
    (∃ lanes, s.loop.polled = some (.gotChunk 3 fileA 0, lanes)) ∧ s.stamps.head? = some 1 ∧
      s.diffs.length = 1 ∧ CausalRun.Stands s.diffs 1 fileA 0 := by
  simp only [isPolled, Bool.and_eq_true, decide_eq_true_eq] at h
  obtain ⟨⟨⟨hpolled, hstamps⟩, hlen⟩, hall⟩ := h
  obtain ⟨⟨m, lanes⟩, hpolled, hm⟩ := (Option.any_eq_true _ _).mp hpolled
  obtain ⟨x, hx⟩ := List.length_eq_one_iff.mp hlen
  refine ⟨⟨lanes, ?_⟩, hstamps, hlen, 0, x, Nat.one_pos, by rw [hx]; rfl, ?_, by omega⟩
  · cases m with
    | gotChunk owner file chunk =>
      simp only [Bool.and_eq_true, decide_eq_true_eq] at hm
      obtain ⟨⟨rfl, rfl⟩, rfl⟩ := hm
      exact hpolled
    | _ => cases hm
  · rw [hx, List.all_cons, List.all_nil, Bool.and_true] at hall
    exact of_decide_eq_true hall

end CausalityExample

open CausalityExample

/-- The acquisition comes after the diff has been handled, and the turn records it. -/
theorem findsEntry_after_diff :
    ∃ s lanes, Run CausalRun.step (fun _ _ => True) start apart s ∧
      s.loop.polled = some (.gotChunk 3 fileA 0, lanes) ∧ s.InOrder ∧ s.FindsEntry ∧
      ∃ t, s.step (.turn none) = .ok t := by
  have hrun : (runIf CausalRun.step (fun _ _ => true) start apart).any (fun s =>
      isPolled s && (s.handled = 1 && s.lastDiff fileA = some 0)) = true := by decide +kernel
  obtain ⟨s, hs, htest⟩ := (Option.any_eq_true _ _).mp hrun
  simp only [Bool.and_eq_true, decide_eq_true_eq] at htest
  obtain ⟨htest, hhandled, hlast⟩ := htest
  obtain ⟨⟨lanes, hpolled⟩, hstamps, hlen, hstands⟩ := polled_of_isPolled htest
  have hs : Run CausalRun.step (fun _ _ => True) start apart s :=
    run_of_runIf (fun _ _ _ => trivial) hs
  have hin : s.InOrder := by
    intro owner file chunk lanes' hpolled' n hn
    rw [hpolled] at hpolled'
    rw [hstamps] at hn
    cases hpolled'
    cases hn
    refine ⟨?_, 0, Nat.one_pos, hlast⟩
    rw [hhandled, List.drop_eq_nil_of_le (List.length_take_le _ _)]
    exact List.forall_mem_nil _
  have hfinds := findsEntry_of_inOrder hs hin
  exact ⟨s, lanes, hs, hpolled, hin, hfinds,
    (hfinds 3 fileA 0 lanes hpolled 1 hstamps hstands).2 none⟩

/-- The diff and the acquisition wait together, and the acquisition is handled first. -/
theorem acquisition_overtakes_diff :
    ∃ s, Run CausalRun.step (fun _ _ => True) start together s ∧
      s.step (.turn none) = .error .chunkDoesNotExist ∧ ¬ s.FindsEntry := by
  have hrun : (runIf CausalRun.step (fun _ _ => true) start together).any (fun s =>
      isPolled s && failsWith .chunkDoesNotExist (s.step (.turn none))) = true := by decide +kernel
  obtain ⟨s, hs, htest⟩ := (Option.any_eq_true _ _).mp hrun
  rw [Bool.and_eq_true] at htest
  obtain ⟨⟨lanes, hpolled⟩, hstamps, -, hstands⟩ := polled_of_isPolled htest.1
  have hfail := failsWith_iff.mp htest.2
  refine ⟨s, run_of_runIf (fun _ _ _ => trivial) hs, hfail, fun h => ?_⟩
  obtain ⟨t, ht⟩ := (h 3 fileA 0 lanes hpolled 1 hstamps hstands).2 none
  rw [hfail] at ht
  cases ht

end DartSync
