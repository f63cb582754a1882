import DartSync.Client.Requests

/-!
# Requests under way

The steps of the network against what an entry waits for. A request is under way when it is in the
queue of the network, when it or its answer is on a socket that the client reads, or when the answer
is in the queue of the client. `KeepsRequests` says which steps lose none.
-/

namespace DartSync

open FileTable Runs

variable {table : List Peer} {peer peer' : Peer} {test : Peer → Bool} {fd fd' : ℤ} {r item : ChunkData}
  {s t : ClientNetwork} {ev : NetworkEvent} {es : List NetworkEvent}

/-! ## Sockets -/

/-- The client reads the socket: it is that of a peer. -/
def Reads (table : List Peer) (fd : ℤ) : Prop := (getPeerBySocket table fd).isSome = true

instance : DecidablePred (Reads table) := fun fd =>
  inferInstanceAs (Decidable ((getPeerBySocket table fd).isSome = true))

theorem reads_iff : Reads table fd ↔ 0 ≤ fd ∧ ∃ peer ∈ table, peer.socketfd = fd := by
  unfold Reads getPeerBySocket
  split_ifs with h
  · exact iff_of_false nofun fun hfd => absurd h (not_lt.mpr hfd.1)
  · rw [List.find?_isSome]
    simp only [decide_eq_true_eq, not_lt.mp h, true_and]

theorem mem_of_mem_setSocketfd (h : peer' ∈ setSocketfd test fd table) :
    peer' ∈ table ∨ peer'.socketfd = fd := by
  induction table with
  | nil => cases h
  | cons peer table ih =>
    rw [setSocketfd_cons] at h
    split_ifs at h
    · rcases List.mem_cons.mp h with rfl | h
      · exact Or.inr rfl
      · exact Or.inl (List.mem_cons_of_mem peer h)
    · rcases List.mem_cons.mp h with rfl | h
      · exact Or.inl List.mem_cons_self
      · exact (ih h).imp (List.mem_cons_of_mem peer) id

/-- The peer that is found has the new socket. -/
theorem mem_setSocketfd_of_find (h : table.find? test = some peer) :
    { peer with socketfd := fd } ∈ setSocketfd test fd table := by
  induction table with
  | nil => cases h
  | cons peer' table ih =>
    rw [setSocketfd_cons]
    cases hp : test peer' with
    | true =>
      rw [List.find?_cons_of_pos hp] at h
      cases h
      exact List.mem_cons_self
    | false =>
      rw [List.find?_cons_of_neg (by rw [hp]; nofun)] at h
      exact List.mem_cons_of_mem peer' (ih h)

/-- Every other peer keeps its socket. -/
theorem mem_setSocketfd_of_mem (h : peer' ∈ table) :
    peer' ∈ setSocketfd test fd table ∨ table.find? test = some peer' := by
  induction table with
  | nil => cases h
  | cons peer table ih =>
    rw [setSocketfd_cons]
    cases hp : test peer with
    | true =>
      rw [List.find?_cons_of_pos hp]
      rcases List.mem_cons.mp h with rfl | h
      · exact Or.inr rfl
      · exact Or.inl (List.mem_cons_of_mem _ h)
    | false =>
      rw [List.find?_cons_of_neg (by rw [hp]; nofun)]
      rcases List.mem_cons.mp h with rfl | h
      · exact Or.inl List.mem_cons_self
      · exact (ih h).imp (List.mem_cons_of_mem peer) id

theorem Reads.setSocketfd (h : Reads table fd)
    (hne : ∀ peer, table.find? test = some peer → peer.socketfd ≠ fd) :
    Reads (DartSync.setSocketfd test fd' table) fd := by
  obtain ⟨hfd, peer, hpeer, rfl⟩ := reads_iff.mp h
  refine reads_iff.mpr ⟨hfd, peer, ?_, rfl⟩
  exact (mem_setSocketfd_of_mem hpeer).resolve_right fun hfind => hne peer hfind rfl

/-! ## Losing nothing -/

namespace ClientNetwork

/-- The requests that have been queued and not yet answered to the client. -/
def issued (s : ClientNetwork) : List ChunkData :=
  s.reqChunk ++ s.wire.map Prod.snd ++ s.receiveChunk

/-- The requests under way, and the answers. -/
def underWay (s : ClientNetwork) : List ChunkData :=
  s.reqChunk ++ (s.wire.filter fun x => Reads s.peerTable x.1).map Prod.snd ++ s.receiveChunk

theorem mem_underWay : r ∈ s.underWay ↔
    r ∈ s.reqChunk ∨ (∃ fd, (fd, r) ∈ s.wire ∧ Reads s.peerTable fd) ∨ r ∈ s.receiveChunk := by
  unfold underWay
  rw [List.mem_append, List.mem_append, or_assoc]
  refine or_congr_right (or_congr_left ?_)
  simp [List.mem_filter]

theorem mem_issued : r ∈ s.issued ↔
    r ∈ s.reqChunk ∨ (∃ fd, (fd, r) ∈ s.wire) ∨ r ∈ s.receiveChunk := by
  unfold issued
  rw [List.mem_append, List.mem_append, or_assoc]
  refine or_congr_right (or_congr_left ?_)
  simp

theorem mem_issued_of_mem_underWay (h : r ∈ s.underWay) : r ∈ s.issued :=
  mem_issued.mpr ((mem_underWay.mp h).imp id (Or.imp (fun ⟨fd, hfd, _⟩ => ⟨fd, hfd⟩) id))

/-- No request that is awaited has gone to that socket and is still to be answered there. -/
def NothingAwaitedOn (s : ClientNetwork) (fd : ℤ) : Prop :=
  Reads s.peerTable fd → ∀ r, (fd, r) ∈ s.wire → ¬ IsAwaited s.client.ft r

end ClientNetwork

/-- The step loses no request that is awaited: owners of queued chunks are peers that the network
knows; the peer of a request that is sent is known and can be reached; a connection is closed,
replaced or forgotten only when nothing is awaited on it; peers answer what they have been asked;
trees list no path with two sizes and no size that is no `int`. -/
def KeepsRequests (s : ClientNetwork) : NetworkEvent → Prop
  | .client .workQueue => s.client.ft.All (KnowsOwners s.peerTable)
  | .client ev => KeepsSources s.client ev
  | .receive => True
  | .checkReqChunk sockfd => ∀ item ∈ s.reqChunk.head?, IsAwaited s.client.ft item →
      ∃ peer, getPeerById s.peerTable item.clientId = some peer ∧ (0 < peer.socketfd ∨ 1 ≤ sockfd)
  | .peerMsg fd item => ∃ r, (fd, r) ∈ s.wire ∧ r.Same item
  | .closed fd => s.NothingAwaitedOn fd
  | .connection ipAddr fd => 0 < fd ∧
      ∀ peer, getPeerByIp s.peerTable ipAddr = some peer → s.NothingAwaitedOn peer.socketfd
  | .peerTable _ => ∀ fd, s.NothingAwaitedOn fd

namespace ClientNetwork

/-- The ids of the requests are distinct, positive and below the next id, no socket is 0, and every
lacking chunk has a source. -/
structure Tracked (s : ClientNetwork) : Prop where
  nodup : (s.issued.map ChunkData.jobId).Nodup
  range : ∀ id ∈ s.issued.map ChunkData.jobId, 1 ≤ id ∧ id < s.client.jobs.nextJobId
  sockets : ∀ peer ∈ s.peerTable, peer.socketfd ≠ 0
  sourced : s.client.ft.All (Sourced s.underWay)

/-- A step of the network alone: it makes no request, and keeps those that are awaited. -/
theorem Tracked.of_network (h : s.Tracked) (hclient : t.client = s.client)
    (hids : (t.issued.map ChunkData.jobId).Subperm (s.issued.map ChunkData.jobId))
    (hsockets : ∀ peer ∈ t.peerTable, peer.socketfd ≠ 0)
    (hkept : ∀ r ∈ s.underWay, IsAwaited s.client.ft r → ∃ r' ∈ t.underWay, r.Same r') :
    t.Tracked where
  nodup := by
    obtain ⟨l, hl, hsub⟩ := hids
    exact hl.nodup_iff.mp (h.nodup.sublist hsub)
  range id hid := by
    rw [hclient]
    exact h.range id (hids.subset hid)
  sockets := hsockets
  sourced := by
    rw [hclient]
    exact sourced_of_kept h.sourced hkept

/-- Requests of one id are the same. -/
theorem Tracked.eq_of_jobId (h : s.Tracked) {r r' : ChunkData} (hr : r ∈ s.issued) (hr' : r' ∈ s.issued)
    (hid : r.jobId = r'.jobId) : r = r' :=
  List.inj_on_of_nodup_map h.nodup hr hr' hid

/-! ## Steps of the network -/

namespace Tracked

section Network

variable (h : s.Tracked)
include h

/-- A request that is not awaited can be dropped. -/
theorem drop {rest : List ChunkData} (hq : s.reqChunk = item :: rest)
    (hnot : ¬ IsAwaited s.client.ft item) : Tracked { s with reqChunk := rest } := by
  refine h.of_network rfl ?_ h.sockets fun r hr hawait => ⟨r, ?_, .refl r⟩
  · refine (List.Sublist.map _ ?_).subperm
    unfold issued
    rw [hq]
    exact List.sublist_cons_self item _
  · rcases mem_underWay.mp hr with hr | hr
    · rw [hq] at hr
      rcases List.mem_cons.mp hr with rfl | hr
      · exact absurd hawait hnot
      · exact mem_underWay.mpr (Or.inl hr)
    · exact mem_underWay.mpr (Or.inr hr)

/-- A request goes from the queue to a socket that is read. -/
theorem sent {rest : List ChunkData} (hq : s.reqChunk = item :: rest)
    (hsockets : ∀ peer ∈ table, peer.socketfd ≠ 0) (hfd : Reads table fd)
    (hreads : ∀ fd', Reads s.peerTable fd' → Reads table fd') :
    Tracked { s with reqChunk := rest, peerTable := table, wire := s.wire ++ [(fd, item)] } := by
  refine h.of_network rfl ?_ hsockets fun r hr hawait => ⟨r, ?_, .refl r⟩
  · refine (List.Perm.map _ ?_).subperm
    unfold issued
    rw [hq, List.map_append, List.map_singleton, ← List.append_assoc]
    exact List.Perm.append_right _ List.perm_append_comm
  · rcases mem_underWay.mp hr with hr | ⟨fd', hwire, hread⟩ | hr
    · rw [hq] at hr
      rcases List.mem_cons.mp hr with rfl | hr
      · exact mem_underWay.mpr (Or.inr (Or.inl
          ⟨fd, List.mem_append_right _ (List.mem_singleton.mpr rfl), hfd⟩))
      · exact mem_underWay.mpr (Or.inl hr)
    · exact mem_underWay.mpr (Or.inr (Or.inl
        ⟨fd', List.mem_append_left _ hwire, hreads fd' hread⟩))
    · exact mem_underWay.mpr (Or.inr (Or.inr hr))

theorem checkReqChunk {sockfd : ℤ} (hkeep : KeepsRequests s (.checkReqChunk sockfd)) :
    (s.checkReqChunk sockfd).Tracked := by
  unfold ClientNetwork.checkReqChunk
  cases hq : s.reqChunk with
  | nil => exact h
  | cons item rest =>
    replace hkeep := hkeep item (by rw [hq]; rfl)
    dsimp only
    cases hpeer : getPeerById s.peerTable item.clientId with
    | none =>
      refine h.drop hq fun hawait => ?_
      obtain ⟨peer, hsome, -⟩ := hkeep hawait
      rw [hpeer] at hsome
      cases hsome
    | some peer =>
      have hfind : s.peerTable.find? (fun peer => peer.id = item.clientId) = some peer := by
        unfold getPeerById at hpeer
        split_ifs at hpeer
        exact hpeer
      have hmem := List.mem_of_find?_eq_some hfind
      dsimp only
      split_ifs with hopen hfail
      · exact h.sent hq h.sockets (reads_iff.mpr ⟨hopen.le, peer, hmem, rfl⟩) fun _ => id
      · refine h.drop hq fun hawait => ?_
        obtain ⟨peer', hsome, hconn⟩ := hkeep hawait
        obtain rfl := Option.some.inj (hpeer.symm.trans hsome)
        omega
      · refine h.sent hq (fun peer' hpeer' => ?_)
          (reads_iff.mpr ⟨by omega, _, mem_setSocketfd_of_find hfind, rfl⟩) fun fd' hread => ?_
        · rcases mem_of_mem_setSocketfd hpeer' with hmem' | heq
          · exact h.sockets peer' hmem'
          · omega
        · refine hread.setSocketfd fun peer' hfind' => ?_
          obtain rfl := Option.some.inj (hfind.symm.trans hfind')
          have := h.sockets peer hmem
          have := (reads_iff.mp hread).1
          omega

theorem closeConnection (hkeep : KeepsRequests s (.closed fd)) :
    (s.closeConnection fd).Tracked := by
  unfold ClientNetwork.closeConnection
  cases hpeer : getPeerBySocket s.peerTable fd with
  | none => exact h
  | some peer =>
    refine h.of_network rfl ?_ (fun peer' hpeer' => ?_) fun r hr hawait => ⟨r, ?_, .refl r⟩
    · refine (List.Sublist.map _ ?_).subperm
      exact ((List.Sublist.refl _).append (List.filter_sublist.map _)).append (List.Sublist.refl _)
    · rcases mem_of_mem_setSocketfd hpeer' with hmem | heq
      · exact h.sockets peer' hmem
      · omega
    · rcases mem_underWay.mp hr with hr | ⟨fd', hwire, hreads⟩ | hr
      · exact mem_underWay.mpr (Or.inl hr)
      · have hne : fd' ≠ fd := by
          rintro rfl
          exact hkeep hreads r hwire hawait
        refine mem_underWay.mpr (Or.inr (Or.inl ⟨fd', List.mem_filter.mpr ⟨hwire, by simpa⟩, ?_⟩))
        refine hreads.setSocketfd fun peer' hfind => ?_
        have hfd : peer'.socketfd = fd := by simpa using List.find?_some hfind
        exact hfd ▸ hne.symm
      · exact mem_underWay.mpr (Or.inr (Or.inr hr))

theorem newConnection {ipAddr : List UInt8}
    (hkeep : KeepsRequests s (.connection ipAddr fd)) : (s.newConnection ipAddr fd).Tracked := by
  refine h.of_network rfl (List.Subperm.refl _) (fun peer' hpeer' => ?_)
    fun r hr hawait => ⟨r, ?_, .refl r⟩
  · rcases mem_of_mem_setSocketfd hpeer' with hmem | heq
    · exact h.sockets peer' hmem
    · exact heq ▸ hkeep.1.ne'
  · rcases mem_underWay.mp hr with hr | ⟨fd', hwire, hreads⟩ | hr
    · exact mem_underWay.mpr (Or.inl hr)
    · refine mem_underWay.mpr (Or.inr (Or.inl ⟨fd', hwire, ?_⟩))
      refine hreads.setSocketfd fun peer hfind => ?_
      rintro rfl
      exact hkeep.2 peer hfind hreads r hwire hawait
    · exact mem_underWay.mpr (Or.inr (Or.inr hr))

theorem newPeerTable {peers : List (ℤ × List UInt8)}
    (hkeep : KeepsRequests s (.peerTable peers)) : (s.newPeerTable peers).Tracked := by
  refine h.of_network rfl (List.Subperm.refl _) (fun peer' hpeer' => ?_)
    fun r hr hawait => ⟨r, ?_, .refl r⟩
  · obtain ⟨peer, -, rfl⟩ := List.mem_map.mp hpeer'
    show (-1 : ℤ) ≠ 0
    decide
  · rcases mem_underWay.mp hr with hr | ⟨fd', hwire, hreads⟩ | hr
    · exact mem_underWay.mpr (Or.inl hr)
    · exact absurd hawait (hkeep fd' hreads r hwire)
    · exact mem_underWay.mpr (Or.inr (Or.inr hr))

theorem handlePeerMsg (hkeep : KeepsRequests s (.peerMsg fd item)) :
    (s.handlePeerMsg fd item).Tracked := by
  obtain ⟨r0, hr0, hsame⟩ := hkeep
  unfold ClientNetwork.handlePeerMsg
  cases hpeer : getPeerBySocket s.peerTable fd with
  | none => exact h
  | some peer =>
    have hr0' : r0 ∈ s.issued := mem_issued.mpr (Or.inr (Or.inl ⟨fd, hr0⟩))
    refine h.of_network rfl ?_ h.sockets fun r hr hawait => ?_
    · obtain ⟨x, l1, l2, -, hx, hwire, herase⟩ := List.exists_of_eraseP (p := fun x =>
        decide (x.1 = fd ∧ x.2.jobId = item.jobId)) hr0 (by simp [hsame.1])
      have hid : x.2.jobId = item.jobId := (of_decide_eq_true hx).2
      refine List.Perm.subperm ?_
      unfold issued
      rw [herase, hwire]
      refine List.perm_iff_count.mpr fun id => ?_
      simp only [List.map_append, List.map_cons, List.map_nil, List.count_append, List.count_cons,
        List.count_nil, hid]
      omega
    · by_cases hid : r.jobId = item.jobId
      · -- the request that has been answered
        have hreq := h.eq_of_jobId (mem_issued_of_mem_underWay hr) hr0' (hid.trans hsame.1)
        refine ⟨{ item with clientId := peer.id }, mem_underWay.mpr (Or.inr (Or.inr ?_)), ?_⟩
        · exact List.mem_append_right _ (List.mem_singleton.mpr rfl)
        · rw [hreq]
          exact hsame
      · refine ⟨r, ?_, .refl r⟩
        rcases mem_underWay.mp hr with hr | ⟨fd', hwire, hreads⟩ | hr
        · exact mem_underWay.mpr (Or.inl hr)
        · refine mem_underWay.mpr (Or.inr (Or.inl ⟨fd', ?_, hreads⟩))
          exact (List.mem_eraseP_of_neg (by simp [hid])).mpr hwire
        · exact mem_underWay.mpr (Or.inr (Or.inr (List.mem_append_left _ hr)))

end Network

/-! ## Steps of the client -/

theorem foldl_send_of_noRequest {sent : List ClientMessage} (hno : NoRequest sent) :
    sent.foldl send s = s := by
  induction sent with
  | nil => rfl
  | cons m sent ih =>
    have hm : s.send m = s := by
      cases m with
      | chunkRequest peer path chunk jobId => exact absurd List.mem_cons_self (hno _ _ _ _)
      | _ => rfl
    rw [List.foldl_cons, hm]
    exact ih fun _ _ _ _ h => hno _ _ _ _ (List.mem_cons_of_mem m h)

theorem send_request (r : CString × Job) : s.send (r.2.request r.1) =
    { s with reqChunk := s.reqChunk ++ (queuedJob s.peerTable r).toList } := by
  show s.sendChunkRequest r.2.dest r.1 r.2.chunk r.2.jobId = _
  unfold sendChunkRequest queuedJob
  cases hpeer : getPeerById s.peerTable r.2.dest with
  | none => simp
  | some peer => simp

theorem foldl_send_requests (requests : List (CString × Job)) :
    (requests.map fun r => r.2.request r.1).foldl send s =
      { s with reqChunk := s.reqChunk ++ requests.filterMap (queuedJob s.peerTable) } := by
  induction requests generalizing s with
  | nil => simp
  | cons r requests ih =>
    rw [List.map_cons, List.foldl_cons, ih, send_request, List.filterMap_cons]
    cases queuedJob s.peerTable r <;> simp

theorem nextJobId_congr {st st' : JobState} (h : st'.jobId = st.jobId) :
    st'.nextJobId = st.nextJobId := by
  unfold JobState.nextJobId
  rw [h]

/-- The client changes, and no request is made. -/
theorem of_client (h : s.Tracked) {client : Client} (hjobs : client.jobs.jobId = s.client.jobs.jobId)
    (hids : (t.issued.map ChunkData.jobId).Sublist (s.issued.map ChunkData.jobId))
    (hclient : t.client = client) (htable : t.peerTable = s.peerTable)
    (hsourced : client.ft.All (Sourced t.underWay)) : t.Tracked where
  nodup := h.nodup.sublist hids
  range id hid := by
    rw [hclient, nextJobId_congr hjobs]
    exact h.range id (hids.subset hid)
  sockets := htable ▸ h.sockets
  sourced := hclient ▸ hsourced

theorem handle (h : s.Tracked) {ev : ClientEvent} (hkeep : KeepsSources s.client ev)
    (hok : s.handle ev = .ok t) : t.Tracked := by
  obtain ⟨⟨client, sent⟩, hstep, ht⟩ := bind_eq_ok.mp hok
  obtain ⟨hsourced, hjobs, hno⟩ := sourced_step h.sourced hkeep hstep
  cases ht
  rw [foldl_send_of_noRequest hno]
  exact h.of_client hjobs (List.Sublist.refl _) rfl rfl hsourced

/-- The answer at the head of the queue is handled. -/
theorem receive (h : s.Tracked) (hok : s.receive = .ok t) : t.Tracked := by
  unfold ClientNetwork.receive at hok
  cases hq : s.receiveChunk with
  | nil =>
    rw [hq] at hok
    cases hok
    exact h
  | cons a rest =>
    rw [hq] at hok
    obtain ⟨⟨client, sent⟩, hstep, ht⟩ := bind_eq_ok.mp hok
    have ha : a ∈ s.issued := mem_issued.mpr (Or.inr (Or.inr (hq ▸ List.mem_cons_self)))
    have hlive : ∀ r ∈ s.underWay, r ≠ a →
        r ∈ ClientNetwork.underWay { s with receiveChunk := rest } := fun r hr hne => by
      rcases mem_underWay.mp hr with hr | hr | hr
      · exact mem_underWay.mpr (Or.inl hr)
      · exact mem_underWay.mpr (Or.inr (Or.inl hr))
      · rw [hq] at hr
        exact mem_underWay.mpr (Or.inr (Or.inr ((List.mem_cons.mp hr).resolve_left hne)))
    have hid := (h.range _ (List.mem_map_of_mem ha)).1
    obtain ⟨hsourced, hjobs, hno⟩ := sourced_receiveChunk h.sourced
      (fun r hr hid => h.eq_of_jobId (mem_issued_of_mem_underWay hr) ha hid) hlive (by omega) hstep
    cases ht
    rw [foldl_send_of_noRequest hno]
    refine h.of_client hjobs (List.Sublist.map _ ?_) rfl rfl hsourced
    unfold issued
    rw [hq]
    exact (List.Sublist.refl _).append (List.sublist_cons_self a rest)

/-- The jobs that `check_work_queue` takes become requests with new ids. -/
theorem workQueue (h : s.Tracked) (hkeep : KeepsRequests s (.client .workQueue))
    (hok : s.handle .workQueue = .ok t) : t.Tracked := by
  obtain ⟨⟨client, sent⟩, hstep, ht⟩ := bind_eq_ok.mp hok
  obtain ⟨requests, jobs, hclient, hwork, rfl, hids, hnext⟩ := checkWorkQueue_ok hstep
  cases ht
  rw [foldl_send_requests]
  set queued := requests.filterMap (queuedJob s.peerTable) with hqueued
  have hsub : (queued.map ChunkData.jobId).Sublist (requests.map fun r => r.2.jobId) :=
    jobId_queuedJob_sublist requests
  have hfresh : ∀ id ∈ queued.map ChunkData.jobId, s.client.jobs.nextJobId ≤ id ∧
      id < client.jobs.nextJobId := fun id hid => by
    have hmem := hids.mem (hsub.subset hid)
    rw [List.length_map] at hmem
    rw [hclient]
    show _ ∧ id < jobs.nextJobId
    omega
  set t : ClientNetwork := { s with client := client, reqChunk := s.reqChunk ++ queued } with ht
  have hperm : (t.issued.map ChunkData.jobId).Perm
      (queued.map ChunkData.jobId ++ s.issued.map ChunkData.jobId) := by
    unfold issued
    rw [ht, ← List.map_append, List.append_assoc s.reqChunk, List.append_assoc, List.append_assoc,
      List.append_assoc]
    refine List.Perm.map _ ?_
    rw [← List.append_assoc s.reqChunk, ← List.append_assoc queued]
    exact List.Perm.append_right _ List.perm_append_comm
  refine ⟨hperm.nodup_iff.mpr ?_, fun id hid => ?_, h.sockets, ?_⟩
  · refine List.nodup_append.mpr ⟨hids.nodup.sublist hsub, h.nodup, fun a ha b hb => ?_⟩
    have := (hfresh a ha).1
    have := (h.range b hb).2
    omega
  · have hpos : 1 ≤ s.client.jobs.nextJobId := Nat.one_le_iff_ne_zero.mpr nextJobId_ne_zero
    rcases List.mem_append.mp (hperm.subset hid) with hid | hid
    · have := hfresh id hid
      refine ⟨by omega, this.2⟩
    · have hle : s.client.jobs.nextJobId ≤ client.jobs.nextJobId := by
        rw [hclient]
        show _ ≤ jobs.nextJobId
        omega
      have := h.range id hid
      refine ⟨this.1, ?_⟩
      show id < client.jobs.nextJobId
      omega
  · show client.ft.All _
    refine sourced_workTaken h.sourced hkeep hwork (fun r hr => ?_) fun r hr => ?_
    · exact mem_underWay.mpr ((mem_underWay.mp hr).imp (List.mem_append_left _) id)
    · exact mem_underWay.mpr (Or.inl (List.mem_append_right _ hr))

end Tracked

end ClientNetwork

theorem ClientNetwork.Tracked.step (h : s.Tracked) (hkeep : KeepsRequests s ev)
    (hok : s.step ev = .ok t) : t.Tracked := by
  cases ev with
  | client ev =>
    by_cases hwork : ev = .workQueue
    · subst hwork
      exact h.workQueue hkeep hok
    · refine h.handle ?_ hok
      cases ev with
      | workQueue => exact absurd rfl hwork
      | _ => exact hkeep
  | receive => exact h.receive hok
  | checkReqChunk sockfd => cases hok; exact h.checkReqChunk hkeep
  | peerMsg fd item => cases hok; exact h.handlePeerMsg hkeep
  | closed fd => cases hok; exact h.closeConnection hkeep
  | connection ipAddr fd => cases hok; exact h.newConnection hkeep
  | peerTable peers => cases hok; exact h.newPeerTable hkeep

theorem ClientNetwork.tracked_initial {dir : Directory} {ft : FileTable} {now : UInt64} {rand : Rand}
    (hft : ft.All fun e => e.file = none) : (ClientNetwork.initial dir ft now rand).Tracked where
  nodup := List.nodup_nil
  range _ h := absurd h List.not_mem_nil
  sockets _ h := absurd h List.not_mem_nil
  sourced := hft.mono fun e he => sourced_of_noFile fun file hfile => by
    rw [he] at hfile
    cases hfile

/-- **Requests.** In a run that loses no request that is awaited, every chunk that a file still to be
written lacks is in the work queue of its entry, or has a job that is outstanding there and whose
request, or the answer to it, is under way. -/
theorem sourced_of_keepsRequests {dir : Directory} {ft : FileTable} {now : UInt64} {rand : Rand}
    (hft : ft.All fun e => e.file = none)
    (h : Run ClientNetwork.step KeepsRequests (.initial dir ft now rand) es s) :
    s.client.ft.All (Sourced s.underWay) :=
  (h.invariant (I := ClientNetwork.Tracked) (fun _ _ _ hs hkeep ht => hs.step hkeep ht)
    (ClientNetwork.tracked_initial hft)).sourced

/-! ## A connection that closes -/

namespace RequestsExample

/-- A client that knows of no file. -/
def start : ClientNetwork := .initial .empty filetableNew 0 fun _ => 0

/-- Peer 2 is known, announces the file `a`, and is asked for its chunk. -/
def request : List NetworkEvent :=
  [.peerTable [(2, [10, 0, 0, 2])], .client (.diff OwnersExample.withFile emptyFilesystem 2),
    .client .workQueue, .checkReqChunk 5]

/-- A test for `KeepsRequests`, for some of the events. -/
def keepsTest (s : ClientNetwork) : NetworkEvent → Bool
  | .client (.diff additions _ _) => decide (SizesFit additions ∧ OneSize additions)
  | .client .workQueue => s.client.ft.entries.all fun e => e.workQueue.all fun k =>
      (e.chunks[k.toNat]?.getD []).all fun peer => (getPeerById s.peerTable peer).isSome
  | .checkReqChunk sockfd => decide (1 ≤ sockfd) &&
      s.reqChunk.all fun item => (getPeerById s.peerTable item.clientId).isSome
  | .peerTable _ => s.wire.isEmpty
  | _ => false

theorem keepsRequests_of_test (s : ClientNetwork) (ev : NetworkEvent) (h : keepsTest s ev = true) :
    KeepsRequests s ev := by
  cases ev with
  | client ev =>
    cases ev with
    | diff additions deletions peerId =>
      exact of_decide_eq_true (p := SizesFit additions ∧ OneSize additions) h
    | workQueue =>
      intro p e he file _ _ k hk owners howners peer hpeer
      rw [keepsTest, List.all_eq_true] at h
      have he := h e (mem_entries.mpr (path_of_lookup he ▸ he))
      have hall := List.all_eq_true.mp (List.all_eq_true.mp he k hk) peer
      rw [howners] at hall
      exact hall hpeer
    | _ => cases h
  | checkReqChunk sockfd =>
    intro item hitem _
    rw [keepsTest, Bool.and_eq_true, List.all_eq_true] at h
    obtain ⟨peer, hpeer⟩ := Option.isSome_iff_exists.mp (h.2 item (List.mem_of_mem_head? hitem))
    exact ⟨peer, hpeer, Or.inr (of_decide_eq_true h.1)⟩
  | peerTable peers =>
    intro fd _ r hr
    rw [List.isEmpty_iff.mp h] at hr
    cases hr
  | _ => cases h

end RequestsExample

open RequestsExample

theorem sourced_after_request :
    ∃ s, Run ClientNetwork.step KeepsRequests start request s ∧
      s.client.ft.All (Sourced s.underWay) := by
  have hrun : (runIf ClientNetwork.step keepsTest start request).isSome = true := by decide +kernel
  obtain ⟨s, hs⟩ := Option.isSome_iff_exists.mp hrun
  have hs := run_of_runIf keepsRequests_of_test hs
  exact ⟨s, hs, sourced_of_keepsRequests all_filetableNew hs⟩

/-- The connection closes before the answer comes. -/
theorem request_lost_by_close :
    ∃ s, Run ClientNetwork.step (fun _ _ => True) start (request ++ [.closed 5]) s ∧
      ¬ s.client.ft.All (Sourced s.underWay) := by
  have hrun : (runIf ClientNetwork.step (fun _ _ => true) start (request ++ [.closed 5])).any
      (fun s => s.underWay.isEmpty && (s.client.ft.lookup (.ofBytes [47, 97])).any fun e =>
        e.workQueue.isEmpty && e.file.any fun file => decide (file.Lacks 0)) = true := by
    decide +kernel
  obtain ⟨s, hs, htest⟩ := (Option.any_eq_true _ _).mp hrun
  rw [Bool.and_eq_true] at htest
  obtain ⟨e, he, hentry⟩ := (Option.any_eq_true _ _).mp htest.2
  rw [Bool.and_eq_true] at hentry
  obtain ⟨file, hfile, hlacks⟩ := (Option.any_eq_true _ _).mp hentry.2
  refine ⟨s, run_of_runIf (fun _ _ _ => trivial) hs, fun h => ?_⟩
  rcases h _ e he file 0 hfile (of_decide_eq_true hlacks) with hk | ⟨r, hr, -⟩
  · rw [List.isEmpty_iff.mp hentry.1] at hk
    cases hk
  · rw [List.isEmpty_iff.mp htest.1] at hr
    cases hr

end DartSync
