import DartSync.FileTable.Entries
import DartSync.Tracker.PeerTable
import DartSync.Tracker.Updates

/-!
# Owners that have left

`filetable_remove_peer` takes a lost peer out of all owner lists, and an acquisition is handled only
if the peer is in the table. An update is handled without a look at the peer table: an update that
is polled after the departure of its author puts the author back as an owner.
-/

namespace DartSync

open FileTable Runs

variable {t t' : Tracker} {pt pt' : PeerTable} {p peerID : ℤ} {ft ft' : FileTable} {fs : Folder}
  {slots slots' : List ℤ} {lost : List ℤ}

/-! ## The peers in the slots -/

/-- The ids in the slots. -/
def PeerTable.peers (pt : PeerTable) : List ℤ := pt.peerIDs.filter (1 ≤ ·)

theorem mem_peers : p ∈ pt.peers ↔ p ∈ pt.peerIDs ∧ 1 ≤ p := by
  simp [PeerTable.peers]

theorem mem_peers_of_containsPeer (h : containsPeer pt p = true) : p ∈ pt.peers := by
  unfold containsPeer at h
  rw [Bool.and_eq_true, decide_eq_true_eq, List.contains_iff_mem] at h
  exact mem_peers.mpr ⟨List.mem_of_mem_take h.2, h.1⟩

theorem filter_replicate_free : (List.replicate n (-1 : ℤ)).filter (1 ≤ ·) = [] := by
  rw [List.filter_eq_nil_iff]
  intro x hx
  rw [List.eq_of_mem_replicate hx]
  decide

theorem addPeerToSlot_perm (hp : 1 ≤ p) (hnot : p ∉ slots) (h : addPeerToSlot p slots = some slots') :
    (slots'.filter (1 ≤ ·)).Perm (p :: slots.filter (1 ≤ ·)) := by
  induction slots generalizing slots' with
  | nil => cases h
  | cons slot slots ih =>
    rw [List.mem_cons, not_or] at hnot
    rw [addPeerToSlot, if_neg (Ne.symm hnot.1)] at h
    split_ifs at h with hfree
    · cases h
      simp [hfree, hp]
    · obtain ⟨rest, hrest, rfl⟩ := Option.map_eq_some_iff.mp h
      have hperm := ih hnot.2 hrest
      by_cases hslot : 1 ≤ slot
      · simp only [List.filter_cons, hslot, decide_true, if_true]
        exact (hperm.cons slot).trans (List.Perm.swap p slot _)
      · simpa only [List.filter_cons, hslot, decide_false, Bool.false_eq_true, if_false] using hperm

/-- An absent peer is added to the peers. -/
theorem peers_addPeerToTable (hp : 1 ≤ p) (hnot : p ∉ pt.peers) :
    (addPeerToTable pt p).peers.Perm (p :: pt.peers) := by
  have hnot : p ∉ pt.peerIDs := fun h => hnot (mem_peers.mpr ⟨h, hp⟩)
  unfold addPeerToTable PeerTable.peers
  cases hslot : addPeerToSlot p pt.peerIDs with
  | some slots => exact addPeerToSlot_perm hp hnot hslot
  | none =>
    dsimp only
    rw [List.filter_append, List.filter_cons, if_pos (by simpa using hp), filter_replicate_free]
    exact List.perm_middle.trans (by rw [List.append_nil])

theorem filter_set_free {i : ℕ} (h : slots.findIdx? (fun slot => slot = p) = some i) :
    (slots.set i (-1)).filter (1 ≤ ·) = (slots.filter (1 ≤ ·)).erase p := by
  induction slots generalizing i with
  | nil => cases h
  | cons slot slots ih =>
    rw [List.findIdx?_cons] at h
    by_cases hslot : slot = p
    · subst hslot
      simp only [decide_true, if_true] at h
      obtain rfl := Option.some.inj h
      by_cases hpos : 1 ≤ slot
      · simp [hpos]
      · have hnot : slot ∉ slots.filter (1 ≤ ·) := fun h => hpos (by simpa using (List.mem_filter.mp h).2)
        simp [hpos, List.erase_of_not_mem hnot]
    · rw [if_neg (by simpa using hslot)] at h
      obtain ⟨j, hj, rfl⟩ := Option.map_eq_some_iff.mp h
      rw [List.set_cons_succ, List.filter_cons, List.filter_cons, ih hj]
      split_ifs
      · rw [List.erase_cons_tail (by simpa using hslot)]
      · rfl

/-- A peer that leaves is taken out of the peers. -/
theorem peers_removePeerFromTable (h : removePeerFromTable pt p = .ok pt') :
    pt'.peers = pt.peers.erase p ∧ p ∈ pt.peerIDs := by
  obtain ⟨i, hi, rfl⟩ := removePeerFromTable_ok h
  obtain ⟨hlt, hslot, -⟩ := List.findIdx?_eq_some_iff_getElem.mp hi
  exact ⟨filter_set_free hi, of_decide_eq_true hslot ▸ List.getElem_mem hlt⟩

/-! ## Owners -/

/-- No owner of a chunk of the entry is in the list. -/
def FileTableEntry.Avoids (lost : List ℤ) (e : FileTableEntry) : Prop :=
  ∀ owners ∈ e.chunks, ∀ p ∈ owners, p ∉ lost

/-- The tree has no file with a chunk. -/
def HasNoChunk (fs : Folder) : Prop :=
  ∀ item ∈ filesystemIteratorRelative true fs, 0 ≤ item.length → numChunksForSize item.length ≤ 0

theorem avoids_newEntry {item : IteratorItem} {workQueue : List ℤ}
    (h : peerID ∈ lost → numChunksForSize item.length ≤ 0) :
    (newEntry item peerID workQueue).Avoids lost := by
  intro owners howners p hp hlost
  obtain ⟨c, hc, rfl⟩ := List.mem_map.mp howners
  obtain rfl := List.mem_singleton.mp hp
  have := mem_chunkNumbers.mp hc
  have := h hlost
  omega

theorem avoids_removePeerFromEntry {e : FileTableEntry} (h : e.Avoids lost) :
    (removePeerFromEntry p e).Avoids (p :: lost) := by
  intro owners howners q hq
  obtain ⟨owners, howners', rfl⟩ := List.mem_map.mp howners
  obtain ⟨hq, hne⟩ := List.mem_filter.mp hq
  rw [List.mem_cons, not_or]
  exact ⟨of_decide_eq_true hne, h owners howners' q hq⟩

theorem avoids_set {e : FileTableEntry} {owners : List ℤ} {i : ℕ} (h : e.Avoids lost)
    (howners : e.chunks[i]? = some owners) (hp : p ∉ lost) :
    FileTableEntry.Avoids lost { e with chunks := e.chunks.set i (owners ++ [p]) } := by
  intro owners' howners' q hq
  rcases List.mem_or_eq_of_mem_set howners' with hmem | rfl
  · exact h owners' hmem q hq
  · rcases List.mem_append.mp hq with hq | hq
    · exact h owners (List.mem_of_getElem? howners) q hq
    · rwa [List.mem_singleton.mp hq]

theorem all_pruneFilesystem {P : FileTableEntry → Prop} {fs' : Folder}
    {sent : List (ℤ × TrackerMessage)} (h : ft.All P)
    (hok : pruneFilesystem fs ft pt = .ok (fs', ft', sent)) : ft'.All P :=
  fun p e he => h p e (lookup_of_pruneFilesystem hok he)

/-! ## Runs -/

/-- A tracker, with the peers that it has handled as new and as lost. -/
structure Presence where
  tracker : Tracker
  joined : List ℤ
  lost : List ℤ

def Presence.step (s : Presence) (e : TrackerEvent) : Except Abort Presence := do
  let (tracker, _) ← s.tracker.step e
  return {
    tracker := tracker
    joined := match e with
      | .newClient peerID => peerID :: s.joined
      | _ => s.joined
    lost := match e with
      | .lostClient peerID => peerID :: s.lost
      | _ => s.lost }

def Presence.initial : Presence := ⟨.initial, [], []⟩

/-- Every connection gets an id of its own. -/
def IsDelivered (s : Presence) : TrackerEvent → Prop
  | .newClient peerID => 1 ≤ peerID ∧ peerID ∉ s.joined
  | _ => True

instance (s : Presence) : DecidablePred (IsDelivered s)
  | .newClient peerID => inferInstanceAs (Decidable (1 ≤ peerID ∧ peerID ∉ s.joined))
  | .masterRequest _ => .isTrue trivial
  | .lostClient _ => .isTrue trivial
  | .clientGot _ _ _ => .isTrue trivial
  | .clientUpdate _ _ _ => .isTrue trivial

/-- The author of an update with chunks has not been handled as lost. -/
def AuthorIsLive (s : Presence) (e : TrackerEvent) : Prop :=
  IsDelivered s e ∧ match e with
    | .clientUpdate clientID additions _ => clientID ∈ s.lost → HasNoChunk additions
    | _ => True

/-- No owner has been handled as lost, and no lost peer has a slot. -/
structure Presence.OwnersLive (s : Presence) : Prop where
  owners : s.tracker.filetable.All (FileTableEntry.Avoids s.lost)
  nodup : s.tracker.peerTable.peers.Nodup
  joined : ∀ p ∈ s.tracker.peerTable.peers, p ∈ s.joined
  lost : ∀ p ∈ s.lost, 1 ≤ p → p ∈ s.joined ∧ p ∉ s.tracker.peerTable.peers

variable {s u : Presence} {e : TrackerEvent} {es : List TrackerEvent}

theorem Presence.ownersLive_initial : Presence.initial.OwnersLive where
  owners := all_filetableAddFilesystem all_filetableNew fun _ hitem =>
    absurd hitem List.not_mem_nil
  nodup := List.nodup_nil
  joined _ h := absurd h List.not_mem_nil
  lost _ h := absurd h List.not_mem_nil

theorem Presence.step_eq_ok : s.step e = .ok u ↔ ∃ sent, s.tracker.step e = .ok (u.tracker, sent) ∧
    u.joined = (match e with
      | .newClient peerID => peerID :: s.joined
      | _ => s.joined) ∧
    u.lost = (match e with
      | .lostClient peerID => peerID :: s.lost
      | _ => s.lost) := by
  unfold Presence.step
  rw [bind_eq_ok]
  constructor
  · rintro ⟨⟨tracker, sent⟩, h, hu⟩
    cases hu
    exact ⟨sent, h, rfl, rfl⟩
  · rintro ⟨sent, h, hjoined, hlost⟩
    refine ⟨(u.tracker, sent), h, ?_⟩
    rw [← hjoined, ← hlost]
    rfl

/-- A step that leaves the peers and the ids alone. -/
theorem Presence.OwnersLive.same (hs : s.OwnersLive) (hpeers : u.tracker.peerTable = s.tracker.peerTable)
    (hjoined : u.joined = s.joined) (hlost : u.lost = s.lost)
    (howners : u.tracker.filetable.All (FileTableEntry.Avoids s.lost)) : u.OwnersLive where
  owners := by rwa [hlost]
  nodup := by rw [hpeers]; exact hs.nodup
  joined := by rw [hpeers, hjoined]; exact hs.joined
  lost := by rw [hpeers, hjoined, hlost]; exact hs.lost

theorem Presence.OwnersLive.newClient (hs : s.OwnersLive) (he : 1 ≤ p ∧ p ∉ s.joined) :
    Presence.OwnersLive
      ⟨{ s.tracker with peerTable := addPeerToTable s.tracker.peerTable p }, p :: s.joined, s.lost⟩ := by
  have hnot : p ∉ s.tracker.peerTable.peers := fun h => he.2 (hs.joined p h)
  have hperm := peers_addPeerToTable he.1 hnot
  refine ⟨hs.owners, ?_, fun q hq => ?_, fun q hq hpos => ?_⟩
  · exact hperm.nodup_iff.mpr (List.nodup_cons.mpr ⟨hnot, hs.nodup⟩)
  · rcases List.mem_cons.mp (hperm.mem_iff.mp hq) with rfl | hq
    · exact List.mem_cons_self
    · exact List.mem_cons_of_mem p (hs.joined q hq)
  · obtain ⟨hjoined, hgone⟩ := hs.lost q hq hpos
    refine ⟨List.mem_cons_of_mem p hjoined, fun hmem => ?_⟩
    rcases List.mem_cons.mp (hperm.mem_iff.mp hmem) with rfl | hmem
    · exact he.2 hjoined
    · exact hgone hmem

theorem Presence.OwnersLive.lostClient (hs : s.OwnersLive)
    (hpt : removePeerFromTable s.tracker.peerTable p = .ok pt)
    (hft : ft.All (FileTableEntry.Avoids (p :: s.lost))) :
    Presence.OwnersLive ⟨⟨fs, ft, pt⟩, s.joined, p :: s.lost⟩ := by
  obtain ⟨hpeers, hslot⟩ := peers_removePeerFromTable hpt
  refine ⟨hft, ?_, fun q hq => ?_, fun q hq hpos => ?_⟩
  · show pt.peers.Nodup
    rw [hpeers]
    exact hs.nodup.erase p
  · have hq : q ∈ pt.peers := hq
    rw [hpeers] at hq
    exact hs.joined q (List.mem_of_mem_erase hq)
  · show q ∈ s.joined ∧ q ∉ pt.peers
    rw [hpeers]
    rcases List.mem_cons.mp hq with rfl | hq
    · exact ⟨hs.joined q (mem_peers.mpr ⟨hslot, hpos⟩), hs.nodup.not_mem_erase⟩
    · obtain ⟨hjoined, hgone⟩ := hs.lost q hq hpos
      exact ⟨hjoined, fun h => hgone (List.mem_of_mem_erase h)⟩

theorem Presence.OwnersLive.step (hs : s.OwnersLive) (he : AuthorIsLive s e) (hu : s.step e = .ok u) :
    u.OwnersLive := by
  obtain ⟨sent, hstep, hjoined, hlost⟩ := Presence.step_eq_ok.mp hu
  obtain ⟨tracker, joined, lost⟩ := u
  cases trackerStep hstep with
  | joined =>
    subst hjoined hlost
    exact hs.newClient he.1
  | requested => exact hs.same rfl hjoined hlost hs.owners
  | left hpt hprune =>
    subst hjoined hlost
    exact hs.lostClient hpt (all_pruneFilesystem (all_filetableRemovePeer.mpr
      (hs.owners.mono fun e he => avoids_removePeerFromEntry he)) hprune)
  | got hpeer hft =>
    have hmem := mem_peers_of_containsPeer hpeer
    have hnot := fun h => (hs.lost _ h (mem_peers.mp hmem).2).2 hmem
    refine hs.same rfl hjoined hlost (all_filetableSetThatPeerHasFileChunk hft hs.owners ?_)
    exact fun e owners he howners => avoids_set (hs.owners _ e he) howners hnot
  | dropped => exact hs.same rfl hjoined hlost hs.owners
  | updated =>
    refine hs.same rfl hjoined hlost (all_filetableAddFilesystem
      (all_filetableRemoveFilesystem hs.owners) fun item hitem workQueue hlen _ => ?_)
    exact avoids_newEntry fun hlost => he.2 hlost item hitem hlen

/-- **Owners are live.** In a run in which no update with chunks is handled after the departure of
its author, no entry lists a peer that has been handled as lost. -/
theorem owners_not_lost (h : Run Presence.step AuthorIsLive .initial es s) :
    s.tracker.filetable.All (FileTableEntry.Avoids s.lost) :=
  (h.invariant (fun _ _ _ hs he hu => hs.step he hu) Presence.ownersLive_initial).owners

/-! ## An update that comes too late -/

open UpdateRun

/-- A test for `AuthorIsLive`, for updates of peers that have not left. -/
def authorIsLiveTest (s : Presence) (e : TrackerEvent) : Bool :=
  decide (IsDelivered s e) && match e with
    | .clientUpdate clientID _ _ => decide (clientID ∉ s.lost)
    | _ => true

theorem authorIsLive_of_test (s : Presence) (e : TrackerEvent) (h : authorIsLiveTest s e = true) :
    AuthorIsLive s e := by
  unfold authorIsLiveTest at h
  rw [Bool.and_eq_true, decide_eq_true_eq] at h
  refine ⟨h.1, ?_⟩
  cases e with
  | clientUpdate clientID additions deletions =>
    exact fun hlost => absurd hlost (of_decide_eq_true h.2)
  | _ => trivial

theorem owners_not_lost_after_departure :
    ∃ s, Run Presence.step AuthorIsLive .initial [.newClient 1, .newClient 2,
        .clientUpdate 1 withFile emptyFilesystem, .clientGot (.ofBytes [47, 100, 47, 121]) 0 2,
        .lostClient 1] s ∧
      s.tracker.filetable.All (FileTableEntry.Avoids s.lost) := by
  have hrun : (runIf Presence.step authorIsLiveTest .initial [.newClient 1, .newClient 2,
      .clientUpdate 1 withFile emptyFilesystem, .clientGot (.ofBytes [47, 100, 47, 121]) 0 2,
      .lostClient 1]).isSome = true := by decide +kernel
  obtain ⟨s, hs⟩ := Option.isSome_iff_exists.mp hrun
  have hs := run_of_runIf authorIsLive_of_test hs
  exact ⟨s, hs, owners_not_lost hs⟩

/-- Peer 1 sends an update and its connection breaks; the loop polls the departure first. -/
theorem lost_author_becomes_owner :
    ∃ s, Run Presence.step IsDelivered .initial
        [.newClient 1, .lostClient 1, .clientUpdate 1 withFile emptyFilesystem] s ∧
      ¬ s.tracker.filetable.All (FileTableEntry.Avoids s.lost) := by
  have hrun : (runIf Presence.step (fun s e => decide (IsDelivered s e)) .initial
      [.newClient 1, .lostClient 1, .clientUpdate 1 withFile emptyFilesystem]).any (fun s =>
        decide (1 ∈ s.lost) && (s.tracker.filetable.lookup (.ofBytes [47, 100, 47, 121])).any fun e =>
          decide ([1] ∈ e.chunks)) = true := by decide +kernel
  obtain ⟨s, hs, htest⟩ := (Option.any_eq_true _ _).mp hrun
  rw [Bool.and_eq_true, decide_eq_true_eq] at htest
  obtain ⟨e, he, hchunk⟩ := (Option.any_eq_true _ _).mp htest.2
  refine ⟨s, run_of_runIf (fun _ _ => of_decide_eq_true) hs, fun h => ?_⟩
  exact h _ e he [1] (of_decide_eq_true hchunk) 1 (List.mem_singleton.mpr rfl) htest.1

end DartSync
