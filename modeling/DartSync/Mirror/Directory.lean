import DartSync.Client.Follower
import DartSync.Mirror
import DartSync.Swarm

/-!
# The directory of the follower

The author's edits reach the follower as updates of its tree, and its files chunk by chunk. However
edits, checks, messages and chunks interleave, the follower's directory is always a tree that the author
has announced apart from the files in transfer, no update fails an assertion there, and when nothing is
on its way the directory is the author's (`mirror_directory`).
-/

namespace DartSync

open Joining Revisions Runs

namespace Mirror

variable {q p : ℤ} {s t : Mirror} {ev : MirrorEvent}

/-- The client that follows. -/
def follower (s : Mirror) : Client := s.joining.loop.client

/-- The files that the author checks are below 2 GiB. The follower's user changes nothing, its checks
report nothing, and the empty files of the first master are in its directory. -/
def Passive (s : Mirror) : MirrorEvent → Prop
  | .author (.checkLocal _) => IsSmall s.author.dir.filesystemNew
  | .joining (.client (.edit _)) => False
  | .joining (.client (.turn x)) =>
    (∀ now, x = some (.checkLocal now) → s.follower.Quiet (.checkLocal now)) ∧
    ∀ master, s.joining.loop.point = .recvMasterFt master → ∀ y ∈ master.view.entries,
      y.2.isFolder = 0 → y.2.size = 0 → y ∈ s.follower.dir.filesystemNew.view.entries
  | _ => True

/-- The follower has a fresh client until it has adopted the first master, and from then on its directory
shows the version to which its updates have led. -/
structure FollowerInv (s : Mirror) : Prop where
  versions : ∀ v ∈ s.announced, IsVersion v
  table : ∀ path, filetableGetChunkyfile s.joining.tracker.filetable path = none
  tables : ∀ ft, .masterFiletable ft ∈ s.joining.loop.lanes.inFlight .sendMasterFt →
    ∀ path, filetableGetChunkyfile ft path = none
  masters : s.joining.loop.lanes.inFlight .sendMaster = [] ∨
    s.joining.loop.point = .recvMaster ∧ ∃ m, s.joining.loop.lanes.inFlight .sendMaster = [m]
  fresh : ¬ s.joining.loop.point.IsMain → IsFresh s.follower
  shows : s.joining.loop.point.IsMain → ∀ n fs, s.joining.served = some (n, fs) →
    Shows s.follower (s.version (n + (updatesOf s.joining.seen).length))

theorem isFresh_initial {dir : Directory} {now : UInt64} {rand : Rand}
    (hdir : ∀ p, dir.lookup p ≠ none → ∀ n ∈ p, ¬ IsHidden n) :
    IsFresh (.initial dir filetableNew now rand) :=
  ⟨rfl, hdir, getChunkyfile_filetableNew⟩

theorem followerInv_initial {author : Client} {dir : Directory} {now : UInt64} {rand : Rand}
    (hdir : ∀ p, dir.lookup p ≠ none → ∀ n ∈ p, ¬ IsHidden n) :
    FollowerInv (initial author dir now rand) where
  versions _ h := absurd h List.not_mem_nil
  table := getChunkyfile_filetableNew
  tables _ h := absurd h List.not_mem_nil
  masters := Or.inl rfl
  fresh _ := isFresh_initial hdir
  shows h := h.elim

/-! ## What is announced -/

/-- What an author announces is a snapshot. -/
theorem curFs_of_updatesIn {c c' : Client} {e : ClientEvent} {sent : List ClientMessage}
    (h : c.step e = .ok (c', sent)) (hsent : updatesIn sent ≠ []) :
    (∃ now, e = .checkLocal now) ∧ c'.curFs = c.dir.filesystemNew := by
  cases filesStep h with
  | unchanged _ _ _ _ _ _ hno => exact absurd (updatesIn_of_noUpdate hno) hsent
  | resnapshot _ _ hno => exact absurd (updatesIn_of_noUpdate hno) hsent
  | adopted _ _ hno => exact absurd (updatesIn_of_noUpdate hno) hsent
  | reported _ _ _ hcur => exact ⟨⟨_, rfl⟩, hcur⟩
  | edited => exact absurd rfl hsent

theorem FollowerInv.isVersion (hs : s.FollowerInv) (n : ℕ) : IsVersion (s.version n) :=
  forall_revision isVersion_emptyFilesystem hs.versions n

/-- The follower is not ahead of the tracker. -/
theorem Inv.seen_le (hs : s.Inv q p) {n : ℕ} {fs : Folder} (hserved : s.joining.served = some (n, fs)) :
    n + (updatesOf s.joining.seen).length ≤ s.joining.updates.length := by
  obtain ⟨view, -, -, hlength⟩ := hs.mirrors.replica n fs hserved
  omega

/-- The next update that the follower gets leads from its version to the next one. -/
theorem Inv.next_update (hs : s.Inv q p) {n : ℕ} {fs : Folder} {message : TrackerMessage}
    {rest : List TrackerMessage} (hserved : s.joining.served = some (n, fs))
    (hflight : s.joining.loop.lanes.inFlight .fsUpdate = message :: rest) :
    message = updateMessage q (s.version (n + (updatesOf s.joining.seen).length))
      (s.version (n + (updatesOf s.joining.seen).length + 1)) := by
  have hdrop : updatesOf s.joining.seen ++ s.joining.loop.lanes.inFlight .fsUpdate =
      s.joining.updates.drop n :=
    (hs.joining.seesOnce n fs hserved).2.trans (hs.replays.updatesOfOthers n)
  have hn := hs.replays.le n fs hserved
  have hlater : (diffs (updateMessage q) emptyFilesystem s.announced).drop
      (n + (updatesOf s.joining.seen).length) =
        message :: (rest ++ s.outbox.map fun u => .fsUpdate q u.1 u.2) := by
    rw [← hs.updates, ← List.drop_drop, List.drop_append_of_le_length hn, ← hdrop, List.append_assoc,
      List.drop_left, hflight]
    rfl
  exact eq_diff_of_drop hlater

/-! ## Steps of the tracker -/

section Tracker

variable {j : Joining} {e : TrackerEvent} {tracker : Tracker} {sent : List (ℤ × TrackerMessage)}
  {ft : FileTable}

theorem seen_record : (j.record p e).seen = j.seen := by
  cases e with
  | masterRequest peerID =>
    unfold Joining.record
    dsimp only
    split_ifs <;> rfl
  | newClient | lostClient | clientGot | clientUpdate => rfl

theorem served_record (h : e ≠ .masterRequest p) : (j.record p e).served = j.served := by
  cases e with
  | masterRequest peerID => exact congrArg Joining.served (if_neg fun heq => h (by rw [heq]))
  | newClient | lostClient | clientGot | clientUpdate => rfl

/-- The tracker sends the follower a master when it is asked for one; nobody's departure brings one
about. -/
theorem masters_of_trackerStep (hp : 1 ≤ p) (hfollows : j.Follows p (.tracker e))
    (h : j.tracker.step e = .ok (tracker, sent)) :
    e = .masterRequest p ∧
        (messagesTo p sent).filter (fun m => m.queue = .sendMaster) = [.master j.tracker.fs] ∨
      e ≠ .masterRequest p ∧ (messagesTo p sent).filter (fun m => m.queue = .sendMaster) = [] := by
  cases DartSync.trackerStep h with
  | joined => exact Or.inr ⟨by simp, filter_messagesTo_broadcast (by simp [TrackerMessage.queue])⟩
  | @requested peerID =>
    by_cases hself : peerID = p
    · subst hself
      refine Or.inl ⟨rfl, ?_⟩
      simp [messagesTo, TrackerMessage.queue]
    · refine Or.inr ⟨fun heq => hself (TrackerEvent.masterRequest.inj heq), ?_⟩
      simp [messagesTo, hself]
  | @left peerID _ _ _ _ hpt hprune =>
    obtain ⟨k, hpruned, hk⟩ := messagesTo_pruneFilesystem hp hprune
    have hremoved : (TrackerMessage.peerRemoved peerID).queue ≠ .sendMaster := by
      simp [TrackerMessage.queue]
    refine Or.inr ⟨by simp, ?_⟩
    rw [messagesTo_append, List.filter_append, hpruned, hk (Or.inr hfollows), lostPeerBroadcast,
      filter_messagesTo_broadcast hremoved]
    rfl
  | got => exact Or.inr ⟨by simp, filter_messagesTo_broadcast (by simp [TrackerMessage.queue])⟩
  | dropped => exact Or.inr ⟨by simp, rfl⟩
  | updated => exact Or.inr ⟨by simp, filter_messagesTo_broadcast (by simp [TrackerMessage.queue])⟩

theorem table_of_trackerStep (h : j.tracker.step e = .ok (tracker, sent))
    (hmem : .masterFiletable ft ∈ messagesTo p sent) : ft = j.tracker.filetable := by
  obtain ⟨x, hx, hxm⟩ := List.mem_map.mp hmem
  have hsent := Tracker.isSentBy_step h (List.mem_filter.mp hx).1
  rw [hxm] at hsent
  exact hsent.1

/-- The tracker handles a message. -/
theorem FollowerInv.trackerStep (hs : s.FollowerInv) (hinv : s.joining.Inv p) (hp : 1 ≤ p)
    {joining : Joining} {outbox : List (Folder × Folder)} (hlegal : s.joining.Legal p (.tracker e))
    (hfollows : s.joining.Follows p (.tracker e)) (h : s.joining.step p (.tracker e) = .ok joining) :
    FollowerInv { s with outbox := outbox, joining := joining } := by
  obtain ⟨⟨tracker, sent⟩, hstep, h⟩ := bind_eq_ok.mp h
  cases h
  have hmasters := Lanes.inFlight_sendAll s.joining.loop.lanes (messagesTo p sent) .sendMaster
  refine ⟨hs.versions, Tracker.getChunkyfile_step hs.table hstep, fun ft hft => ?_, ?_, hs.fresh,
    fun hmain n fs hserved => ?_⟩
  · have hft : .masterFiletable ft ∈ (s.joining.loop.lanes.sendAll (messagesTo p sent)).inFlight
        .sendMasterFt := hft
    rw [Lanes.inFlight_sendAll, List.mem_append] at hft
    rcases hft with hft | hft
    · exact hs.tables ft hft
    · rw [table_of_trackerStep hstep (List.mem_filter.mp hft).1]
      exact hs.table
  · show (s.joining.loop.lanes.sendAll (messagesTo p sent)).inFlight .sendMaster = [] ∨
      s.joining.loop.point = .recvMaster ∧
        ∃ m, (s.joining.loop.lanes.sendAll (messagesTo p sent)).inFlight .sendMaster = [m]
    rw [hmasters]
    rcases masters_of_trackerStep hp hfollows hstep with ⟨rfl, hnew⟩ | ⟨-, hnone⟩
    · obtain ⟨hpoint, hempty, -⟩ := hinv.unserved (hlegal rfl)
      rw [hnew, hempty]
      exact Or.inr ⟨hpoint, _, rfl⟩
    · rw [hnone, List.append_nil]
      exact hs.masters
  · have hmain : s.joining.loop.point.IsMain := hmain
    have hserved : (s.joining.record p e).served = some (n, fs) := hserved
    have hne : e ≠ .masterRequest p := by
      rintro rfl
      rw [(hinv.unserved (hlegal rfl)).point] at hmain
      exact hmain
    rw [served_record hne] at hserved
    show Shows s.follower (s.version (n + (updatesOf (s.joining.record p e).seen).length))
    rw [seen_record]
    exact hs.shows hmain n fs hserved

end Tracker

/-! ## Steps of the follower -/

theorem quiet_of_polls {point : LoopPoint} {x : ClientEvent} {c : Client} (h : point.polls x = true)
    (hcheck : ∀ now, x = .checkLocal now → c.Quiet (.checkLocal now)) : c.Quiet x := by
  cases x with
  | checkLocal now => exact hcheck now rfl
  | edit | master | diff => cases point <;> cases h
  | peerAdded | peerDeleted | chunkRequest | chunk | chunkGot | workQueue => trivial

/-- Before the main loop nothing is polled but the queues of the tracker. -/
theorem isMain_of_polls {point : LoopPoint} {x : ClientEvent} (h : point.polls x = true) :
    point.IsMain := by
  cases point with
  | recvMaster | recvMasterFt => cases x <;> cases h
  | peersAdded | peersDeleted | chunkRequests | chunks | chunkGots | diffs | masters | workQueue
  | checkLocal => trivial

theorem not_isMain_next {point : LoopPoint} (h : ¬ point.IsMain) : point.next = point := by
  cases point with
  | recvMaster | recvMasterFt => rfl
  | peersAdded | peersDeleted | chunkRequests | chunks | chunkGots | diffs | masters | workQueue
  | checkLocal => exact absurd trivial h

/-- The follower goes on without a message from the tracker. -/
theorem FollowerInv.idles (hs : s.FollowerInv) {loop : MainLoop}
    (hflight : ∀ queue, loop.lanes.inFlight queue = s.joining.loop.lanes.inFlight queue)
    (hpoint : loop.point = s.joining.loop.point ∨ loop.point = s.joining.loop.point.next)
    (hclient : loop.client = s.follower ∨ s.joining.loop.point.IsMain ∧ ∃ x sent,
      s.follower.Quiet x ∧ s.follower.step x = .ok (loop.client, sent)) :
    FollowerInv { s with joining := { s.joining with loop := loop } } := by
  have hmain : loop.point.IsMain → s.joining.loop.point.IsMain := by
    intro h
    by_contra hnot
    rw [not_isMain_next hnot, or_self] at hpoint
    exact hnot (hpoint ▸ h)
  refine ⟨hs.versions, hs.table, fun ft hft => hs.tables ft (hflight .sendMasterFt ▸ hft), ?_,
    fun hnot => ?_, fun h n fs hserved => ?_⟩
  · show loop.lanes.inFlight .sendMaster = [] ∨
      loop.point = .recvMaster ∧ ∃ m, loop.lanes.inFlight .sendMaster = [m]
    rw [hflight]
    refine hs.masters.imp_right fun ⟨hat, hone⟩ => ⟨?_, hone⟩
    rw [hat] at hpoint
    exact hpoint.elim id id
  · have hbefore : ¬ s.joining.loop.point.IsMain := fun h => hnot (by
      show loop.point.IsMain
      rcases hpoint with heq | heq
      · rwa [heq]
      · rw [heq]
        exact isMain_next h)
    show IsFresh loop.client
    rw [hclient.resolve_right fun h => hbefore h.1]
    exact hs.fresh hbefore
  · have hshows := hs.shows (hmain h) n fs hserved
    show Shows loop.client _
    rcases hclient with hsame | ⟨-, x, sent, hquiet, hstep⟩
    · rw [hsame]
      exact hshows
    · exact hshows.step (hs.isVersion _) hquiet hstep

section Receives

variable {loop : MainLoop} {message : TrackerMessage} {lanes : Lanes TrackerMessage.queue}

/-- The first master is the only one. -/
theorem FollowerInv.masters_of_polled (hs : s.FollowerInv)
    (hpolled : s.joining.loop.polled = some (message, lanes)) : lanes.inFlight .sendMaster = [] := by
  obtain ⟨hqueue, htake⟩ := MainLoop.polled_eq_some hpolled
  by_cases hmaster : message.queue = .sendMaster
  · have hhead := Lanes.inFlight_of_take htake
    rw [hmaster] at hhead
    rcases hs.masters with hnone | ⟨-, m, hone⟩
    · rw [hnone] at hhead
      cases hhead
    · rw [hone] at hhead
      exact (List.cons.inj hhead).2.symm
  · rw [Lanes.inFlight_of_take_ne htake (Ne.symm hmaster)]
    refine hs.masters.resolve_right fun ⟨hpoint, _⟩ => ?_
    rw [hpoint] at hqueue
    exact hmaster (Option.some.inj hqueue).symm

/-- The master that is adopted is the snapshot, and like a version of the author. -/
theorem FollowerInv.adopts (hs : s.FollowerInv) (hinv : s.Inv q p) {master fs : Folder} {n : ℕ}
    (hpoint : s.joining.loop.point = .recvMasterFt master)
    (hserved : s.joining.served = some (n, fs)) :
    s.joining.seen = [] ∧ IsVersion master ∧ master.view = (s.version n).view := by
  rcases (hinv.joining.served n fs hserved).stage with ⟨l, hp', -, -⟩ | ⟨hp', hseen⟩ | ⟨l, hp', -⟩
  · rw [hpoint] at hp'
    cases hp'
  · rw [hpoint] at hp'
    cases hp'
    obtain ⟨hwf, hview⟩ := hinv.snapshot n _ hserved
    exact ⟨hseen, (hs.isVersion n).of_view hwf hview, hview⟩
  · rw [hpoint] at hp'
    exact hp'.elim

/-- The follower handles a message. -/
theorem FollowerInv.receives (hs : s.FollowerInv) (hinv : s.Inv q p) (x : Option ClientEvent)
    (hempty : ∀ master, s.joining.loop.point = .recvMasterFt master → ∀ y ∈ master.view.entries,
      y.2.isFolder = 0 → y.2.size = 0 → y ∈ s.follower.dir.filesystemNew.view.entries)
    (hpolled : s.joining.loop.polled = some (message, lanes))
    (hreceived : Received { s.joining.loop with lanes := lanes } message loop) :
    FollowerInv { s with joining := { s.joining with
      loop := loop
      seen := s.joining.seen ++ s.joining.loop.sees (.turn x) } } := by
  obtain ⟨hqueue, htake⟩ := MainLoop.polled_eq_some hpolled
  have hmasters := hs.masters_of_polled hpolled
  have hlanes : loop.lanes = lanes := by cases hreceived <;> rfl
  have hsub : ∀ queue, lanes.inFlight queue ⊆ s.joining.loop.lanes.inFlight queue := by
    intro queue
    by_cases heq : message.queue = queue
    · rw [← heq, Lanes.inFlight_of_take htake]
      exact List.subset_cons_self _ _
    · rw [Lanes.inFlight_of_take_ne htake (Ne.symm heq)]
      exact List.Subset.refl _
  refine ⟨hs.versions, hs.table, fun ft hft => hs.tables ft (hsub _ (hlanes ▸ hft)),
    Or.inl (hlanes ▸ hmasters), fun hnot => ?_, fun hmain n fs hserved => ?_⟩
  · -- only the first master is handled before the main loop
    cases hreceived with
    | master hpoint => exact hs.fresh (by rw [show s.joining.loop.point = _ from hpoint]; exact id)
    | masterFiletable => exact absurd trivial hnot
    | gotChunk hpoint | fsUpdate hpoint | laterMaster hpoint =>
      refine absurd ?_ hnot
      show s.joining.loop.point.IsMain
      rw [show s.joining.loop.point = _ from hpoint]
      trivial
  · have hserved : s.joining.served = some (n, fs) := hserved
    show Shows loop.client (s.version (n + (updatesOf (s.joining.seen ++ _)).length))
    rw [updatesOf_append]
    unfold MainLoop.sees
    rw [hpolled]
    cases hreceived with
    | master => exact hmain.elim
    | @masterFiletable master ft client sent hpoint hstep =>
      have hpoint : s.joining.loop.point = .recvMasterFt master := hpoint
      obtain ⟨hseen, hversion, hview⟩ := hs.adopts hinv hpoint hserved
      obtain ⟨hsnapshot, hvisible, -⟩ := hs.fresh (by rw [hpoint]; exact id)
      have hcome : .masterFiletable ft ∈ s.joining.loop.lanes.inFlight .sendMasterFt :=
        (Lanes.inFlight_of_take htake) ▸ List.mem_cons_self
      have hfresh : IsFresh { s.follower with ft := ft } := ⟨hsnapshot, hvisible, hs.tables ft hcome⟩
      rw [hpoint, hseen]
      exact (hfresh.shows hversion hstep (hempty master hpoint)).of_view hview.symm
    | @gotChunk owner chunk file client sent hpoint hstep =>
      have hpoint : s.joining.loop.point = .chunkGots := hpoint
      have hbefore : s.joining.loop.point.IsMain := by rw [hpoint]; trivial
      have hquiet : s.follower.Quiet (.chunkGot owner file chunk) := trivial
      rw [hpoint]
      show Shows _ (s.version (n + (updatesOf s.joining.seen ++ []).length))
      rw [List.append_nil]
      exact (hs.shows hbefore n fs hserved).step (hs.isVersion _) hquiet hstep
    | @fsUpdate originator additions deletions client sent hpoint hstep =>
      have hpoint : s.joining.loop.point = .diffs := hpoint
      have hbefore : s.joining.loop.point.IsMain := by rw [hpoint]; trivial
      have hnext := hinv.next_update hserved (Lanes.inFlight_of_take htake)
      cases hnext
      rw [hpoint, List.length_append]
      exact (hs.shows hbefore n fs hserved).receiveDiff (hs.isVersion _) (hs.isVersion _) hstep
    | laterMaster hpoint =>
      have hpoint : s.joining.loop.point = .masters := hpoint
      have hcome := Lanes.inFlight_of_take htake
      rcases hs.masters with hnone | ⟨hrecv, -⟩
      · cases hnone.symm.trans hcome
      · rw [hpoint] at hrecv
        cases hrecv

end Receives

/-! ## All steps -/

theorem FollowerInv.author (hs : s.FollowerInv) (hinv : s.Inv q p) {e : ClientEvent} {author : Client}
    {sent : List ClientMessage} (hpassive : s.Passive (.author e))
    (h : s.author.step e = .ok (author, sent)) :
    FollowerInv { s with
      author := author
      outbox := s.outbox ++ updatesIn sent
      announced := s.announced ++ (updatesIn sent).map fun _ => author.curFs } := by
  refine ⟨fun v hv => ?_, hs.table, hs.tables, hs.masters, hs.fresh, fun hmain n fs hserved => ?_⟩
  · rcases List.mem_append.mp hv with hv | hv
    · exact hs.versions v hv
    · obtain ⟨u, hu, rfl⟩ := List.mem_map.mp hv
      obtain ⟨⟨now, rfl⟩, hcur⟩ := curFs_of_updatesIn h (List.ne_nil_of_mem hu)
      rw [hcur]
      exact isVersion_filesystemNew hpassive
  · show Shows s.follower (revision _ _ _)
    rw [hinv.version_joining (hinv.seen_le hserved)]
    exact hs.shows hmain n fs hserved

theorem FollowerInv.clientStep (hs : s.FollowerInv) (hinv : s.Inv q p) {e : LoopEvent} {joining : Joining}
    (hlegal : s.joining.Legal p (.client e)) (hpassive : s.Passive (.joining (.client e)))
    (h : s.joining.step p (.client e) = .ok joining) : FollowerInv { s with joining := joining } := by
  obtain ⟨loop, hloop, h⟩ := bind_eq_ok.mp h
  cases h
  cases e with
  | sends message => exact hlegal.elim
  | transmits queue =>
    cases hloop
    rw [show s.joining.loop.sees (.transmits queue) = [] from rfl, List.append_nil]
    exact hs.idles (Lanes.inFlight_transmit _ _) (Or.inl rfl) (Or.inl rfl)
  | delivers =>
    cases hloop
    rw [show s.joining.loop.sees .delivers = [] from rfl, List.append_nil]
    exact hs.idles (Lanes.inFlight_deliver _) (Or.inl rfl) (Or.inl rfl)
  | edit dir => exact hpassive.elim
  | turn x =>
    obtain ⟨hquiet, hempty⟩ := hpassive
    rcases MainLoop.turn_ok hloop with ⟨message, lanes, hpolled, hreceived⟩ |
      ⟨hpolled, hlanes, hpoint, hclient⟩
    · exact hs.receives hinv x hempty hpolled hreceived
    · rw [sees_of_polled_none hpolled, List.append_nil]
      refine hs.idles (fun _ => by rw [hlanes]) hpoint (hclient.imp_right ?_)
      rintro ⟨ev, sent, rfl, hpolls, hstep⟩
      exact ⟨isMain_of_polls hpolls, ev, sent,
        quiet_of_polls hpolls fun now heq => hquiet now (congrArg some heq), hstep⟩

theorem FollowerInv.step (hs : s.FollowerInv) (hinv : s.Inv q p) (hp : 1 ≤ p) (hq : q ≠ p)
    (hlegal : s.Legal q p ev) (hpassive : s.Passive ev) (h : s.step q p ev = .ok t) : t.FollowerInv := by
  cases ev with
  | author e =>
    obtain ⟨⟨author, sent⟩, hstep, h⟩ := bind_eq_ok.mp h
    cases h
    exact hs.author hinv hpassive hstep
  | handles =>
    unfold Mirror.step at h
    cases houtbox : s.outbox with
    | nil =>
      rw [houtbox] at h
      cases h
      exact hs
    | cons u rest =>
      rw [houtbox] at h
      obtain ⟨joining, hstep, h⟩ := bind_eq_ok.mp h
      cases h
      have hlegal : s.joining.Legal p (.tracker (.clientUpdate q u.1 u.2)) := trivial
      exact hs.trackerStep hinv.joining hp hlegal hq hstep
  | joining e =>
    obtain ⟨joining, hstep, h⟩ := bind_eq_ok.mp h
    cases h
    obtain ⟨-, hlegal, -, hfollows⟩ := hlegal
    cases e with
    | tracker e => exact hs.trackerStep hinv.joining hp hlegal hfollows hstep
    | client e => exact hs.clientStep hinv hlegal hpassive hstep

/-- No file of the author's tree is in transfer. -/
def Idle (s : Mirror) : Prop := ∀ x ∈ s.author.curFs.view.entries, ¬ InTransfer s.follower.ft x

/-- The follower's directory is the version to which its updates have led, the update that it polls next
is handled, and when nothing is on its way the directory is the author's tree. -/
structure DirectoryMirrors (q p : ℤ) (s : Mirror) (n : ℕ) : Prop where
  shows : Shows s.follower (s.version (n + (updatesOf s.joining.seen).length))
  handles : ∀ x, s.joining.loop.point = .diffs → s.joining.loop.polled ≠ none →
    ∃ t, s.step q p (.joining (.client (.turn x))) = .ok t
  settled : s.outbox = [] → s.joining.loop.lanes.inFlight .fsUpdate = [] → s.Idle →
    s.follower.dir.filesystemNew.SameTree s.author.curFs

/-- An update that is polled fails no assertion. -/
theorem FollowerInv.handles (hs : s.FollowerInv) (hinv : s.Inv q p) {n : ℕ} {fs : Folder}
    (hserved : s.joining.served = some (n, fs)) (x : Option ClientEvent)
    (hpoint : s.joining.loop.point = .diffs) (hpolled : s.joining.loop.polled ≠ none) :
    ∃ t, s.step q p (.joining (.client (.turn x))) = .ok t := by
  obtain ⟨⟨message, lanes⟩, hsome⟩ := Option.ne_none_iff_exists'.mp hpolled
  obtain ⟨hqueue, htake⟩ := MainLoop.polled_eq_some hsome
  have hkind : message.queue = .fsUpdate := by
    rw [hpoint] at hqueue
    exact (Option.some.inj hqueue).symm
  have hflight := Lanes.inFlight_of_take htake
  rw [hkind] at hflight
  obtain rfl := hinv.next_update hserved hflight
  have hshows := hs.shows (by rw [hpoint]; trivial) n fs hserved
  obtain ⟨⟨client, sent⟩, hok⟩ := hshows.receiveDiff_isOk (hs.isVersion _) (hs.isVersion _) q
  have hturn : ∃ loop, s.joining.loop.turn x = .ok loop := by
    unfold MainLoop.turn
    rw [hsome]
    unfold MainLoop.receive updateMessage
    dsimp only
    rw [hpoint]
    exact ⟨_, bind_eq_ok.mpr ⟨(client, sent), hok, rfl⟩⟩
  obtain ⟨loop, hloop⟩ := hturn
  exact ⟨_, bind_eq_ok.mpr ⟨_, bind_eq_ok.mpr ⟨loop, hloop, rfl⟩, rfl⟩⟩

theorem FollowerInv.directoryMirrors (hs : s.FollowerInv) (hinv : s.Inv q p)
    (hmain : s.joining.loop.point.IsMain) :
    ∃ n fs, s.joining.served = some (n, fs) ∧ s.DirectoryMirrors q p n := by
  cases hserved : s.joining.served with
  | none =>
    rw [(hinv.joining.unserved hserved).point] at hmain
    exact hmain.elim
  | some x =>
    obtain ⟨n, fs⟩ := x
    have hshows := hs.shows hmain n fs hserved
    refine ⟨n, fs, rfl, hshows, hs.handles hinv hserved, fun houtbox hflight hidle => ?_⟩
    have hmirrors := hinv.mirrors
    obtain ⟨view, -, -, hlength⟩ := hmirrors.replica n fs hserved
    have hhandled := hmirrors.handled
    rw [hflight, List.length_nil, Nat.add_zero] at hlength
    rw [houtbox, List.length_nil, Nat.add_zero] at hhandled
    have hcurrent : s.version (n + (updatesOf s.joining.seen).length) = s.author.curFs := by
      rw [hmirrors.current, hlength, hhandled]
    rw [hcurrent] at hshows
    exact hshows.sameTree (hcurrent ▸ hs.isVersion _) hidle

end Mirror

open Mirror

/-- **Directories.** From the first master on, the follower's directory shows a tree that the author has
announced, the next update is handled, and when nothing is on its way the directory is the author's. -/
theorem mirror_directory {author : Client} {dir : Directory} {now : UInt64} {rand : Rand} {q p : ℤ}
    {evs : List MirrorEvent} {s : Mirror} (hp : 1 ≤ p) (hq : q ≠ p)
    (hauthor : author.curFs = emptyFilesystem) (hdir : ∀ p, dir.lookup p ≠ none → ∀ n ∈ p, ¬ IsHidden n)
    (h : Run (Mirror.step q p) (fun s ev => s.Legal q p ev ∧ s.Passive ev)
      (.initial author dir now rand) evs s) (hmain : s.joining.loop.point.IsMain) :
    ∃ n fs, s.joining.served = some (n, fs) ∧ s.DirectoryMirrors q p n := by
  obtain ⟨hinv, hs⟩ := h.invariant (I := fun s => s.Inv q p ∧ s.FollowerInv)
    (fun _ _ _ hs hev hstep => ⟨hs.1.step hp hq hev.1 hstep, hs.2.step hs.1 hp hq hev.1 hev.2 hstep⟩)
    ⟨inv_initial hp hauthor, followerInv_initial hdir⟩
  exact hs.directoryMirrors hinv hmain

/-! ## A file that arrives -/

namespace DirectoryExample

open MirrorExample

theorem hasRoom_edited : edited.HasRoom [.ofBytes [97]] := by decide

/-- A folder and a file of one byte. -/
def withFile : Directory := edited.insert [.ofBytes [97]] (.file [5] 1) hasRoom_edited

/-- The follower goes round its loop, requests the chunk of the file and gets it. -/
def polls : List (Option ClientEvent) :=
  [none, none, none, some .workQueue, none, none, none, none,
    some (.chunk (joinPath .empty [.ofBytes [97]]) 0 (some [5]) 1)]

/-- The author reports a folder, the follower joins, and the author reports a file. -/
def events : List MirrorEvent :=
  [.joining (.tracker (.newClient 2)), .author (.edit edited), .author (.checkLocal 5000000),
    .author (.checkLocal 10000000), .handles, .joining (.tracker (.newClient 1)),
    .joining (.tracker (.masterRequest 1)), .author (.edit withFile), .author (.checkLocal 15000000),
    .author (.checkLocal 20000000), .handles] ++
    (JoiningExample.arrives ++ JoiningExample.adopts ++
      polls.map fun x => JoiningEvent.client (.turn x)).map MirrorEvent.joining

def isCheck : Option ClientEvent → Bool
  | some (.checkLocal _) => true
  | _ => false

/-- A first master without files. -/
def masterTest : LoopPoint → Bool
  | .recvMasterFt master => decide master.WellFormed && !hasFiles master
  | _ => true

def passiveTest (s : Mirror) : MirrorEvent → Bool
  | .author (.checkLocal _) => (entryList false s.author.dir.filesystemNew).all fun x =>
    decide (x.2.size.toNat < 2 ^ 31)
  | .joining (.client (.edit _)) => false
  | .joining (.client (.turn x)) => !isCheck x && masterTest s.joining.loop.point
  | _ => true

theorem passive_of_test (s : Mirror) (ev : MirrorEvent) (h : passiveTest s ev = true) : s.Passive ev := by
  cases ev with
  | author e =>
    cases e with
    | checkLocal now =>
      intro x hx _
      have hx' := (mem_entryList false s.author.dir.wellFormed_filesystemNew.distinct).mpr hx
      exact of_decide_eq_true (List.all_eq_true.mp h x hx')
    | _ => trivial
  | handles => trivial
  | joining e =>
    cases e with
    | tracker => trivial
    | client e =>
      cases e with
      | edit dir => cases h
      | turn x =>
        obtain ⟨hcheck, hmaster⟩ := (Bool.and_eq_true _ _).mp h
        refine ⟨?_, fun master hpoint y hy hfile => ?_⟩
        · rintro now rfl
          cases hcheck
        · rw [hpoint] at hmaster
          obtain ⟨hwf, hnone⟩ := (Bool.and_eq_true _ _).mp hmaster
          have hfiles := (hasFiles_iff (of_decide_eq_true hwf).distinct).mpr ⟨y, hy, hfile⟩
          rw [hfiles] at hnone
          cases hnone
      | sends | transmits | delivers => trivial

/-- The chunk is about to be polled for again, nothing is on its way and nothing is in transfer. -/
def settledTest (s : Mirror) : Bool :=
  (match s.joining.loop.point with
    | .chunks => true
    | _ => false) &&
  (s.outbox.isEmpty && ((s.joining.loop.lanes.inFlight .fsUpdate).isEmpty &&
    (decide s.author.curFs.WellFormed &&
      (entryList false s.author.curFs).all fun x => decide (¬ InTransfer s.follower.ft x))))

theorem settled_of_test {s : Mirror} (h : settledTest s = true) : s.joining.loop.point.IsMain ∧
    s.outbox = [] ∧ s.joining.loop.lanes.inFlight .fsUpdate = [] ∧ s.Idle := by
  simp only [settledTest, Bool.and_eq_true, List.isEmpty_iff, decide_eq_true_eq, List.all_eq_true] at h
  obtain ⟨hpoint, houtbox, hflight, hwf, hidle⟩ := h
  refine ⟨?_, houtbox, hflight, fun x hx => hidle x ((mem_entryList false hwf.distinct).mpr hx)⟩
  split at hpoint
  · rename_i heq
    rw [heq]
    trivial
  · cases hpoint

end DirectoryExample

open DirectoryExample

/-- The follower has the file when its chunk has come. -/
theorem mirror_directory_file : ∃ s,
    Run (Mirror.step 2 1) (fun s ev => s.Legal 2 1 ev ∧ s.Passive ev)
      (.initial MirrorExample.author .empty 0 fun _ => 0) events s ∧
    s.follower.dir.lookup [.ofBytes [97]] = some (.file [5] 1) ∧
    s.follower.dir.filesystemNew.SameTree s.author.curFs := by
  have hrun : (runIf (Mirror.step 2 1) (fun s ev => MirrorExample.mirrorTest s ev && passiveTest s ev)
      (.initial MirrorExample.author .empty 0 fun _ => 0) events).any (fun s => settledTest s &&
        decide (s.follower.dir.lookup [.ofBytes [97]] = some (.file [5] 1))) = true := by
    decide +kernel
  obtain ⟨s, hs, htest⟩ := (Option.any_eq_true _ _).mp hrun
  obtain ⟨hsettled, hfile⟩ := (Bool.and_eq_true _ _).mp htest
  obtain ⟨hmain, houtbox, hflight, hidle⟩ := settled_of_test hsettled
  have hs : Run (Mirror.step 2 1) (fun s ev => s.Legal 2 1 ev ∧ s.Passive ev)
      (.initial MirrorExample.author .empty 0 fun _ => 0) events s := by
    refine run_of_runIf (fun s ev h => ?_) hs
    obtain ⟨hlegal, hpassive⟩ := (Bool.and_eq_true _ _).mp h
    exact ⟨MirrorExample.legal_of_mirrorTest s ev hlegal, passive_of_test s ev hpassive⟩
  have hvisible : ∀ p, Directory.empty.lookup p ≠ none → ∀ n ∈ p, ¬ IsHidden n := fun _ hp =>
    absurd rfl hp
  obtain ⟨n, fs, -, hmirrors⟩ := mirror_directory (by decide) (by decide) rfl hvisible hs hmain
  exact ⟨s, hs, of_decide_eq_true hfile, hmirrors.settled houtbox hflight hidle⟩

end DartSync
