import Mathlib.Data.List.ReduceOption
import DartSync.PeerTable

/-!
# Dead clients

The tracker notes for each client when its last heartbeat came and scans the table for clients that
are dead. `check_liveliness` subtracts the current time from the time of the heartbeat: it removes
clients whose heartbeat lies in the future, and none that has fallen silent.
-/

namespace DartSync

/-- `DIASTOLE`, in seconds -/
def diastole : ℤ := 10

/-- `peer_t` with the time of the last heartbeat. -/
structure TrackedPeer extends Peer where
  timeLastAlive : ℤ
  deriving DecidableEq

/-- The `peer_table_t` of the tracker. A slot is NULL or a peer; as `id_counter` counts on, no two
peers have one id. -/
structure TrackedPeers where
  peerList : List (Option TrackedPeer)
  count : ℤ
  count_eq : count = peerList.reduceOption.length
  unique : (peerList.reduceOption.map fun p => p.id).Nodup

/-- The loop of `delete_peer`; `none` when no peer has the id. -/
def clearSlot (id : ℤ) : List (Option TrackedPeer) → Option (List (Option TrackedPeer))
  | [] => none
  | none :: slots => (clearSlot id slots).map (none :: ·)
  | some p :: slots =>
    if p.id = id then some (none :: slots) else (clearSlot id slots).map (some p :: ·)

variable {slots slots' : List (Option TrackedPeer)} {p : TrackedPeer} {now received id fd : ℤ}
  {lost queue : List ℤ}

theorem clearSlot_none : clearSlot id (none :: slots) = (clearSlot id slots).map (none :: ·) := rfl

theorem clearSlot_some : clearSlot id (some p :: slots) =
    if p.id = id then some (none :: slots) else (clearSlot id slots).map (some p :: ·) := rfl

theorem clearSlot_append {a b : List (Option TrackedPeer)} (h : ∀ x ∈ a.reduceOption, x.id ≠ p.id) :
    clearSlot p.id (a ++ some p :: b) = some (a ++ none :: b) := by
  induction a with
  | nil => exact if_pos rfl
  | cons slot a ih =>
    cases slot with
    | none =>
      rw [List.reduceOption_cons_of_none] at h
      rw [List.cons_append, clearSlot_none, ih h]
      rfl
    | some x =>
      rw [List.reduceOption_cons_of_some] at h
      rw [List.cons_append, clearSlot_some, if_neg (h x List.mem_cons_self),
        ih fun y hy => h y (List.mem_cons_of_mem _ hy)]
      rfl

/-- The slot that is cleared holds a peer of that id. -/
theorem exists_of_clearSlot (h : clearSlot id slots = some slots') :
    ∃ a p b, slots = a ++ some p :: b ∧ slots' = a ++ none :: b := by
  induction slots generalizing slots' with
  | nil => cases h
  | cons slot slots ih =>
    cases slot with
    | none =>
      obtain ⟨rest, hrest, rfl⟩ := Option.map_eq_some_iff.mp h
      obtain ⟨a, p, b, rfl, rfl⟩ := ih hrest
      exact ⟨none :: a, p, b, rfl, rfl⟩
    | some x =>
      rw [clearSlot_some] at h
      split_ifs at h with hx
      · cases h
        exact ⟨[], x, slots, rfl, rfl⟩
      · obtain ⟨rest, hrest, rfl⟩ := Option.map_eq_some_iff.mp h
        obtain ⟨a, p, b, rfl, rfl⟩ := ih hrest
        exact ⟨some x :: a, p, b, rfl, rfl⟩

theorem reduceOption_clearSlot (h : clearSlot id slots = some slots') :
    ∃ a p b, slots.reduceOption = a ++ p :: b ∧ slots'.reduceOption = a ++ b := by
  obtain ⟨a, p, b, rfl, rfl⟩ := exists_of_clearSlot h
  exact ⟨a.reduceOption, p, b.reduceOption, by simp [List.reduceOption_append],
    by simp [List.reduceOption_append]⟩

/-- The loop of `get_peer_by_socket` and the assignment through the pointer that it returns. -/
def setAlive (sockfd now : ℤ) : List (Option TrackedPeer) → List (Option TrackedPeer)
  | [] => []
  | none :: slots => none :: setAlive sockfd now slots
  | some p :: slots =>
    if p.socketfd = sockfd then some { p with timeLastAlive := now } :: slots
    else some p :: setAlive sockfd now slots

theorem map_id_setAlive : ((setAlive fd now slots).reduceOption.map fun p => p.id) =
    slots.reduceOption.map fun p => p.id := by
  induction slots with
  | nil => rfl
  | cons slot slots ih =>
    cases slot with
    | none => exact ih
    | some p =>
      rw [setAlive]
      split_ifs
      · rfl
      · exact congrArg (p.id :: ·) ih

theorem mem_setAlive (h : slots.reduceOption.find? (fun p => p.socketfd = fd) = some p) :
    some { p with timeLastAlive := now } ∈ setAlive fd now slots := by
  induction slots with
  | nil => cases h
  | cons slot slots ih =>
    cases slot with
    | none => exact List.mem_cons_of_mem _ (ih h)
    | some x =>
      rw [List.reduceOption_cons_of_some, List.find?_cons] at h
      rw [setAlive]
      by_cases hx : x.socketfd = fd
      · simp only [hx, decide_true, Option.some.injEq] at h
        subst h
        rw [if_pos hx]
        exact List.mem_cons_self
      · simp only [hx, decide_false] at h
        rw [if_neg hx]
        exact List.mem_cons_of_mem _ (ih h)

namespace TrackedPeers

def peers (table : TrackedPeers) : List TrackedPeer := table.peerList.reduceOption

/-- `delete_peer` -/
def deletePeer (table : TrackedPeers) (id : ℤ) : TrackedPeers :=
  match h : clearSlot id table.peerList with
  | none => table
  | some peerList =>
    { peerList := peerList
      count := table.count - 1
      count_eq := by
        obtain ⟨a, p, b, hall, hleft⟩ := reduceOption_clearSlot h
        rw [table.count_eq, hall, hleft]
        simp only [List.length_append, List.length_cons]
        omega
      unique := by
        obtain ⟨a, p, b, hall, hleft⟩ := reduceOption_clearSlot h
        have hunique := table.unique
        rw [hall] at hunique
        rw [hleft]
        exact hunique.sublist (((List.sublist_cons_self p b).append_left a).map _) }

/-- `get_peer_by_socket` -/
def getPeerBySocket (table : TrackedPeers) (fd : ℤ) : Option TrackedPeer :=
  if fd < 0 then none else table.peers.find? fun p => p.socketfd = fd

/-- What `handle_client_msg` does with a HEARTBEAT. -/
def receiveHeartbeat (table : TrackedPeers) (sockfd now : ℤ) : TrackedPeers :=
  if sockfd < 0 then table
  else
    { peerList := setAlive sockfd now table.peerList
      count := table.count
      count_eq := by
        have hids : ((setAlive sockfd now table.peerList).reduceOption.map fun p => p.id) =
            table.peerList.reduceOption.map fun p => p.id := map_id_setAlive
        have hlength := congrArg List.length hids
        rw [List.length_map, List.length_map] at hlength
        rw [hlength]
        exact table.count_eq
      unique := by
        rw [map_id_setAlive]
        exact table.unique }

/-- One turn of the loop of `check_liveliness`, with the queue to the logic. -/
def checkSlot (now : ℤ) (st : TrackedPeers × List ℤ) (i : ℕ) : TrackedPeers × List ℤ :=
  match st.1.peerList[i]? with
  | some (some p) =>
    if p.timeLastAlive - now > diastole then (st.1.deletePeer p.id, st.2 ++ [p.id]) else st
  | _ => st

/-- `check_liveliness` -/
def checkLiveliness (table : TrackedPeers) (now : ℤ) (queue : List ℤ) : TrackedPeers × List ℤ :=
  (List.range table.peerList.length).foldl (checkSlot now) (table, queue)

/-! ## The scan -/

/-- What the comparison takes for a dead client. -/
def Expired (now : ℤ) (p : TrackedPeer) : Prop := p.timeLastAlive - now > diastole

instance (now : ℤ) : DecidablePred (Expired now) := fun _ => inferInstanceAs (Decidable (_ > _))

/-- A slot after the scan. -/
def scanned (now : ℤ) (slot : Option TrackedPeer) : Option TrackedPeer :=
  slot.bind fun p => if Expired now p then none else some p

theorem not_expired : ¬ Expired now p ↔ p.timeLastAlive - now ≤ diastole := by
  unfold Expired
  omega

theorem reduceOption_map_scanned : (slots.map (scanned now)).reduceOption =
    slots.reduceOption.filter fun p => ¬ Expired now p := by
  induction slots with
  | nil => rfl
  | cons slot slots ih =>
    cases slot with
    | none => exact ih
    | some p =>
      rw [List.map_cons, List.reduceOption_cons_of_some, List.filter_cons, ← ih]
      by_cases hp : Expired now p
      · simp [scanned, hp]
      · simp [scanned, hp]

variable {table : TrackedPeers} {st : TrackedPeers × List ℤ} {i : ℕ}

/-- The peer at one slot is cleared from there. -/
theorem peerList_deletePeer {a b : List (Option TrackedPeer)}
    (h : table.peerList = a ++ some p :: b) : (table.deletePeer p.id).peerList = a ++ none :: b := by
  have hunique := table.unique
  rw [h, List.reduceOption_append, List.reduceOption_cons_of_some, List.map_append, List.map_cons] at hunique
  have hclear : clearSlot p.id table.peerList = some (a ++ none :: b) := by
    rw [h]
    refine clearSlot_append fun x hx hid => ?_
    exact (List.nodup_append.mp hunique).2.2 x.id (List.mem_map_of_mem hx) p.id List.mem_cons_self hid
  unfold deletePeer
  split
  · next hnone => rw [hclear] at hnone; cases hnone
  · next peerList hsome => exact Option.some.inj (hsome.symm.trans hclear)

/-- The table and the queue when the first `i` slots have been scanned. -/
def ScannedTo (slots : List (Option TrackedPeer)) (now : ℤ) (queue : List ℤ) (i : ℕ)
    (st : TrackedPeers × List ℤ) : Prop :=
  st.1.peerList = (slots.take i).map (scanned now) ++ slots.drop i ∧
    st.2 = queue ++ ((slots.take i).reduceOption.filter fun p => Expired now p).map fun p => p.id

/-- One turn of the loop. -/
theorem ScannedTo.checkSlot (h : ScannedTo slots now queue i st) (hi : i < slots.length) :
    ScannedTo slots now queue (i + 1) (checkSlot now st i) := by
  obtain ⟨hlist, hlost⟩ := h
  have hlen : ((slots.take i).map (scanned now)).length = i := by simp; omega
  rw [List.drop_eq_getElem_cons hi] at hlist
  have hget : st.1.peerList[i]? = some slots[i] := by
    rw [hlist, List.getElem?_append_right hlen.le, hlen]
    simp
  unfold ScannedTo
  rw [List.take_add_one, List.getElem?_eq_getElem hi, Option.toList_some, List.map_append,
    List.reduceOption_append, List.filter_append, List.map_append, List.append_assoc]
  unfold TrackedPeers.checkSlot
  rw [hget]
  cases hslot : slots[i] with
  | none =>
    rw [hslot] at hlist
    exact ⟨hlist, by simpa using hlost⟩
  | some p =>
    rw [hslot] at hlist
    by_cases hp : Expired now p
    · have hgt : p.timeLastAlive - now > diastole := hp
      simp only [hgt, if_true]
      refine ⟨?_, ?_⟩
      · rw [peerList_deletePeer hlist]
        simp [scanned, hp]
      · rw [hlost]
        simp [hp]
    · have hgt : ¬ p.timeLastAlive - now > diastole := hp
      simp only [hgt, if_false]
      refine ⟨?_, ?_⟩
      · rw [hlist]
        simp [scanned, hp]
      · rw [hlost]
        simp [hp]

theorem scannedTo_checkLiveliness (table : TrackedPeers) (now : ℤ) (queue : List ℤ) :
    ScannedTo table.peerList now queue table.peerList.length (table.checkLiveliness now queue) := by
  have hloop : ∀ i ≤ table.peerList.length, ScannedTo table.peerList now queue i
      ((List.range i).foldl (TrackedPeers.checkSlot now) (table, queue)) := by
    intro i
    induction i with
    | zero => exact fun _ => ⟨by simp, by simp⟩
    | succ i ih =>
      intro hi
      rw [List.range_succ, List.foldl_append]
      exact (ih (by omega)).checkSlot (by omega)
  exact hloop _ le_rfl

/-- The scan removes the peers that the comparison takes for dead, and queues each of them. -/
theorem checkLiveliness_eq (table : TrackedPeers) (now : ℤ) (queue : List ℤ) :
    (table.checkLiveliness now queue).1.peers = (table.peers.filter fun p => ¬ Expired now p) ∧
    (table.checkLiveliness now queue).2 =
      queue ++ (table.peers.filter fun p => Expired now p).map fun p => p.id := by
  obtain ⟨hlist, hlost⟩ := scannedTo_checkLiveliness table now queue
  rw [List.take_length] at hlist hlost
  refine ⟨?_, hlost⟩
  unfold peers
  rw [hlist, List.drop_length, List.append_nil, reduceOption_map_scanned]

/-! ## What the scan is for -/

/-- Left are the peers whose last heartbeat is at most `DIASTOLE` seconds old, and each of the others
has been queued once. -/
structure DetectsDead (table : TrackedPeers) (now : ℤ) (queue : List ℤ)
    (result : TrackedPeers × List ℤ) : Prop where
  left : ∀ p, p ∈ result.1.peers ↔ p ∈ table.peers ∧ now - p.timeLastAlive ≤ diastole
  lost : ∃ lost, result.2 = queue ++ lost ∧ lost.Nodup ∧
    ∀ id, id ∈ lost ↔ ∃ p ∈ table.peers, p ∉ result.1.peers ∧ p.id = id

theorem mem_peers_checkLiveliness : p ∈ (table.checkLiveliness now queue).1.peers ↔
    p ∈ table.peers ∧ p.timeLastAlive - now ≤ diastole := by
  rw [(checkLiveliness_eq table now queue).1, List.mem_filter, decide_eq_true_eq, not_expired]

theorem lost_checkLiveliness (table : TrackedPeers) (now : ℤ) (queue : List ℤ) :
    ∃ lost, (table.checkLiveliness now queue).2 = queue ++ lost ∧ lost.Nodup ∧ ∀ id, id ∈ lost ↔
      ∃ p ∈ table.peers, p ∉ (table.checkLiveliness now queue).1.peers ∧ p.id = id := by
  refine ⟨_, (checkLiveliness_eq table now queue).2, table.unique.sublist (List.filter_sublist.map _),
    fun id => ?_⟩
  rw [List.mem_map]
  constructor
  · rintro ⟨p, hp, rfl⟩
    obtain ⟨hp, hexpired⟩ := List.mem_filter.mp hp
    refine ⟨p, hp, fun hleft => ?_, rfl⟩
    exact not_expired.mpr (mem_peers_checkLiveliness.mp hleft).2 (of_decide_eq_true hexpired)
  · rintro ⟨p, hp, hnot, rfl⟩
    refine ⟨p, List.mem_filter.mpr ⟨hp, decide_eq_true ?_⟩, rfl⟩
    by_contra hexpired
    exact hnot (mem_peers_checkLiveliness.mpr ⟨hp, not_expired.mp hexpired⟩)

theorem mem_peers_receiveHeartbeat (h : table.getPeerBySocket fd = some p) :
    { p with timeLastAlive := received } ∈ (table.receiveHeartbeat fd received).peers := by
  unfold getPeerBySocket at h
  split_ifs at h with hfd
  unfold receiveHeartbeat
  rw [if_neg hfd]
  exact List.reduceOption_mem_iff.mpr (mem_setAlive h)

/-- **Dead clients.** A heartbeat sets the time of its client to that of the receipt; and the scan
tells the dead clients from the others exactly when no time in the table is further than `DIASTOLE`
seconds from the current time, in either direction. -/
theorem checkLiveliness_detects_iff (table : TrackedPeers) (now : ℤ) (queue : List ℤ) :
    (∀ sockfd received p, table.getPeerBySocket sockfd = some p →
      { p with timeLastAlive := received } ∈ (table.receiveHeartbeat sockfd received).peers) ∧
    (DetectsDead table now queue (table.checkLiveliness now queue) ↔ ∀ p ∈ table.peers,
      p.timeLastAlive - now ≤ diastole ∧ now - p.timeLastAlive ≤ diastole) := by
  refine ⟨fun sockfd received p h => mem_peers_receiveHeartbeat h, ?_⟩
  constructor
  · intro h p hp
    have hleft := h.left p
    rw [mem_peers_checkLiveliness, and_congr_right_iff] at hleft
    have hiff := hleft hp
    unfold diastole at *
    omega
  · intro h
    refine ⟨fun p => ?_, lost_checkLiveliness table now queue⟩
    rw [mem_peers_checkLiveliness]
    refine and_congr_right fun hp => ?_
    exact iff_of_true (h p hp).1 (h p hp).2

/-- A client whose only heartbeat came at time 0. -/
def silent : TrackedPeers where
  peerList := [some ⟨⟨1, [10, 0, 0, 1], 5⟩, 0⟩, none]
  count := 1
  count_eq := by decide
  unique := by decide

/-- A hundred seconds later the client is still in the table. -/
theorem not_detectsDead_silent : ¬ DetectsDead silent 100 [] (silent.checkLiveliness 100 []) := by
  intro h
  have hleft := (h.left ⟨⟨1, [10, 0, 0, 1], 5⟩, 0⟩).mp (by decide)
  exact absurd hleft.2 (by decide)

end TrackedPeers

end DartSync
