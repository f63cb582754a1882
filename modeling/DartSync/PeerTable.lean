import DartSync.Basic
import DartSync.Library.Runs

/-!
# Peer tables

`peer_table.c`: an array of pointers to peers that is doubled when it is full. The client and the
tracker are modelled with the list of their peers; here the array is, with the cells that `realloc`
leaves as it has found them. It is a table in every state of a sequence of calls exactly when these
cells are NULL (`staysTable_iff`), and then the lookup is that of the list.
-/

namespace DartSync

/-- `peer_t`. The time of the last heartbeat is left out. -/
structure Peer where
  id : ℤ
  ipAddr : List UInt8
  socketfd : ℤ
  deriving DecidableEq

/-! ## Peers as a list -/

/-- `get_peer_by_id` -/
def getPeerById (table : List Peer) (id : ℤ) : Option Peer :=
  if id < 1 then none else table.find? fun peer => peer.id = id

/-- `get_peer_by_socket` -/
def getPeerBySocket (table : List Peer) (fd : ℤ) : Option Peer :=
  if fd < 0 then none else table.find? fun peer => peer.socketfd = fd

/-- `get_peer_by_ip` -/
def getPeerByIp (table : List Peer) (ipAddr : List UInt8) : Option Peer :=
  table.find? fun peer => peer.ipAddr = ipAddr

/-- The peer that the test finds first gets another socket, through its pointer. -/
def setSocketfd (test : Peer → Bool) (fd : ℤ) : List Peer → List Peer
  | [] => []
  | peer :: peers =>
    if test peer then { peer with socketfd := fd } :: peers
    else peer :: setSocketfd test fd peers

theorem setSocketfd_cons (test : Peer → Bool) (fd : ℤ) (peer : Peer) (peers : List Peer) :
    setSocketfd test fd (peer :: peers) =
      if test peer then { peer with socketfd := fd } :: peers
      else peer :: setSocketfd test fd peers := rfl

/-- `deserialize_peer_table`: no peer of a new table has a socket. -/
def deserializePeerTable (peers : List (ℤ × List UInt8)) : List Peer :=
  peers.map fun peer => ⟨peer.1, peer.2, -1⟩

/-! ## Peers in an array -/

/-- A cell of `peer_list`: NULL, a peer, or what was in memory that has never been written. -/
inductive Slot
  | null
  | peer (p : Peer)
  | wild
  deriving DecidableEq

/-- `peer_table_t`. The size is the length of the array. -/
structure PeerTableT where
  peerList : List Slot
  count : ℤ
  idCounter : ℤ

/-- Which of the cells that `realloc` adds are zero. -/
abbrev Realloc := ℕ → Bool

namespace PeerTableT

def size (table : PeerTableT) : ℕ := table.peerList.length

/-- `init_peer_table` -/
def initPeerTable (size : ℤ) : Option PeerTableT :=
  if size ≤ 0 then none else some ⟨List.replicate size.toNat .null, 0, 1⟩

/-- The loop that fills the first free slot. -/
def fillSlot (entry : Peer) : List Slot → Option (List Slot)
  | [] => none
  | .null :: slots => some (.peer entry :: slots)
  | slot :: slots => (fillSlot entry slots).map (slot :: ·)

/-- The doubling of a table in which `count` is `size`. -/
def grow (zero : Realloc) (table : PeerTableT) : PeerTableT :=
  if table.count = table.size then
    { table with peerList := table.peerList ++
        (List.range table.size).map fun i => if zero i then .null else .wild }
  else table

/-- `add_peer` -/
def addPeer (zero : Realloc) (table : PeerTableT) (ipAddr : List UInt8) (socketfd : ℤ) :
    Option Peer × PeerTableT :=
  let newEntry : Peer := ⟨table.idCounter, ipAddr, socketfd⟩
  match fillSlot newEntry table.peerList with
  | some peerList => (some newEntry, grow zero ⟨peerList, table.count + 1, table.idCounter + 1⟩)
  | none => (none, grow zero table)

/-- `copy_peer` -/
def copyPeer (zero : Realloc) (table : PeerTableT) (id : ℤ) (ipAddr : List UInt8) (socketfd : ℤ) :
    Option Peer × PeerTableT :=
  let entry : Peer := ⟨id, ipAddr, socketfd⟩
  match fillSlot entry table.peerList with
  | some peerList => (some entry, grow zero ⟨peerList, table.count + 1, table.idCounter⟩)
  | none => (none, table)

/-- The loop of `delete_peer`; `none` when no peer has the id. -/
def freeSlot (id : ℤ) : List Slot → Except Abort (Option (List Slot))
  | [] => .ok none
  | .wild :: _ => .error .uninitialized
  | .null :: slots => (freeSlot id slots).map (Option.map (.null :: ·))
  | .peer p :: slots =>
    if p.id = id then .ok (some (.null :: slots))
    else (freeSlot id slots).map (Option.map (.peer p :: ·))

/-- `delete_peer` -/
def deletePeer (table : PeerTableT) (id : ℤ) : Except Abort PeerTableT := do
  match ← freeSlot id table.peerList with
  | some peerList => return { table with peerList := peerList, count := table.count - 1 }
  | none => return table

/-- The loop of `get_peer_by_id`. -/
def findSlot (id : ℤ) : List Slot → Except Abort (Option Peer)
  | [] => .ok none
  | .wild :: _ => .error .uninitialized
  | .null :: slots => findSlot id slots
  | .peer p :: slots => if p.id = id then .ok (some p) else findSlot id slots

/-- `get_peer_by_id` -/
def getPeerById (table : PeerTableT) (id : ℤ) : Except Abort (Option Peer) :=
  if id < 1 then .ok none else findSlot id table.peerList

/-- The peer in a slot. -/
def peer? : Slot → Option Peer
  | .peer p => some p
  | _ => none

/-- The peers in their order. -/
def peers (table : PeerTableT) : List Peer := table.peerList.filterMap peer?

/-! ## Calls -/

inductive PeerTableCall
  | add (ipAddr : List UInt8) (socketfd : ℤ)
  | copy (id : ℤ) (ipAddr : List UInt8) (socketfd : ℤ)
  | delete (id : ℤ)

/-- A table, and the ids that `add_peer` has given. -/
structure History where
  table : PeerTableT
  added : List ℤ

/-- A call; `zero` is what `realloc` finds if the table is doubled. -/
def History.step (s : History) : PeerTableCall × Realloc → Except Abort History
  | (.add ipAddr socketfd, zero) =>
    let (newEntry, table) := addPeer zero s.table ipAddr socketfd
    .ok ⟨table, s.added ++ (newEntry.map Peer.id).toList⟩
  | (.copy id ipAddr socketfd, zero) =>
    .ok { s with table := (copyPeer zero s.table id ipAddr socketfd).2 }
  | (.delete id, _) => do
    let table ← deletePeer s.table id
    return { s with table := table }

/-- The lookup of `id` finds a peer of that id exactly when there is one. -/
def FindsPeer (table : PeerTableT) (id : ℤ) : Prop :=
  ∃ found, table.getPeerById id = .ok found ∧
    (∀ p, found = some p → .peer p ∈ table.peerList ∧ p.id = id) ∧
    (found.isSome ↔ ∃ p, .peer p ∈ table.peerList ∧ p.id = id)

/-- Every slot is NULL or a peer, `count` is the number of the peers, a slot is free, no id has been
given twice, and every peer is found. -/
structure History.IsTable (s : History) : Prop where
  slots : ∀ slot ∈ s.table.peerList, slot = .null ∨ ∃ p, slot = .peer p
  count_eq : s.table.count = (s.table.peerList.filter (· ≠ .null)).length
  count_lt : s.table.count < s.table.size
  added : s.added.Nodup
  finds : ∀ id, 1 ≤ id → FindsPeer s.table id

/-- The table is one before, between and after the calls. -/
def History.StaysTable : History → List (PeerTableCall × Realloc) → Prop
  | s, [] => s.IsTable
  | s, call :: calls => s.IsTable ∧ ∃ t, s.step call = .ok t ∧ t.StaysTable calls

/-- If the call doubles the table, it does so with cells that are zero. -/
def History.GrowsClean (s : History) : PeerTableCall × Realloc → Prop
  | (.delete _, _) => True
  | (_, zero) => s.table.count + 1 = s.table.size → ∀ i < s.table.size, zero i = true

/-- All calls that double the table do so with cells that are zero. -/
def History.AllGrowClean : History → List (PeerTableCall × Realloc) → Prop
  | _, [] => True
  | s, call :: calls => s.GrowsClean call ∧ ∀ t, s.step call = .ok t → t.AllGrowClean calls

variable {table : PeerTableT} {slots slots' : List Slot} {entry : Peer} {id c : ℤ} {zero : Realloc}
  {s t : History} {call : PeerTableCall × Realloc} {calls : List (PeerTableCall × Realloc)}

/-! ## The loops over the slots -/

/-- The slots in use. -/
def used (slots : List Slot) : ℕ := (slots.filter (· ≠ .null)).length

theorem used_append_cons (a b : List Slot) (slot : Slot) :
    used (a ++ slot :: b) = used a + used b + if slot = .null then 0 else 1 := by
  unfold used
  rw [List.filter_append, List.length_append]
  by_cases h : slot = .null
  · rw [if_pos h, List.filter_cons_of_neg (by simpa using h)]
    rfl
  · rw [if_neg h, List.filter_cons_of_pos (by simpa using h), List.length_cons]
    omega

theorem used_append_replicate (n : ℕ) : used (slots ++ List.replicate n .null) = used slots := by
  unfold used
  rw [List.filter_append, List.filter_replicate_of_neg (by simp), List.append_nil]

theorem null_mem_of_used_lt (h : used slots < slots.length) : .null ∈ slots := by
  by_contra hnot
  have hall : slots.filter (· ≠ .null) = slots :=
    List.filter_eq_self.mpr fun slot hslot => by simpa using fun heq : slot = .null => hnot (heq ▸ hslot)
  unfold used at h
  rw [hall] at h
  exact Nat.lt_irrefl _ h

/-- `fillSlot` fills a slot that is NULL, if there is one. -/
theorem exists_fillSlot (entry : Peer) (h : .null ∈ slots) : ∃ a b, slots = a ++ .null :: b ∧
    fillSlot entry slots = some (a ++ .peer entry :: b) := by
  induction slots with
  | nil => exact absurd h List.not_mem_nil
  | cons slot slots ih =>
    by_cases hnull : slot = .null
    · subst hnull
      exact ⟨[], slots, rfl, rfl⟩
    · obtain ⟨a, b, rfl, hfill⟩ := ih ((List.mem_cons.mp h).resolve_left (Ne.symm hnull))
      refine ⟨slot :: a, b, rfl, ?_⟩
      cases slot with
      | null => exact absurd rfl hnull
      | peer p => exact congrArg (Option.map (.peer p :: ·)) hfill
      | wild => exact congrArg (Option.map (.wild :: ·)) hfill

/-- `freeSlot` frees the slot of a peer of that id, if there is one. -/
theorem freeSlot_ok (id : ℤ) (h : .wild ∉ slots) :
    freeSlot id slots = .ok none ∨ ∃ a p b, slots = a ++ .peer p :: b ∧
      freeSlot id slots = .ok (some (a ++ .null :: b)) := by
  induction slots with
  | nil => exact Or.inl rfl
  | cons slot slots ih =>
    rw [List.mem_cons, not_or] at h
    have hrest := ih h.2
    cases slot with
    | wild => exact absurd rfl h.1
    | null =>
      rw [freeSlot]
      rcases hrest with hnone | ⟨a, p, b, rfl, hfree⟩
      · rw [hnone]
        exact Or.inl rfl
      · rw [hfree]
        exact Or.inr ⟨.null :: a, p, b, rfl, rfl⟩
    | peer q =>
      rw [freeSlot]
      by_cases hq : q.id = id
      · rw [if_pos hq]
        exact Or.inr ⟨[], q, slots, rfl, rfl⟩
      · rw [if_neg hq]
        rcases hrest with hnone | ⟨a, p, b, rfl, hfree⟩
        · rw [hnone]
          exact Or.inl rfl
        · rw [hfree]
          exact Or.inr ⟨.peer q :: a, p, b, rfl, rfl⟩

theorem findSlot_ok (id : ℤ) (h : .wild ∉ slots) :
    findSlot id slots = .ok ((slots.filterMap peer?).find? fun p => p.id = id) := by
  induction slots with
  | nil => rfl
  | cons slot slots ih =>
    rw [List.mem_cons, not_or] at h
    cases slot with
    | wild => exact absurd rfl h.1
    | null => exact ih h.2
    | peer p =>
      have hcons : (Slot.peer p :: slots).filterMap peer? = p :: slots.filterMap peer? := rfl
      rw [findSlot, hcons, List.find?_cons]
      by_cases hp : p.id = id
      · rw [if_pos hp, decide_eq_true hp]
      · rw [if_neg hp, decide_eq_false hp]
        exact ih h.2

theorem mem_peers {p : Peer} : p ∈ table.peers ↔ .peer p ∈ table.peerList := by
  unfold peers
  rw [List.mem_filterMap]
  constructor
  · rintro ⟨slot, hslot, hp⟩
    cases slot with
    | null => cases hp
    | wild => cases hp
    | peer q => cases hp; exact hslot
  · exact fun h => ⟨_, h, rfl⟩

/-! ## Tables -/

/-- No slot is wild, `count` is the number of the slots in use, and one is free. -/
structure Clean (table : PeerTableT) : Prop where
  slots : .wild ∉ table.peerList
  count_eq : table.count = used table.peerList
  count_lt : table.count < table.size

/-- The lookup in such a table is that of the list of its peers. -/
theorem Clean.getPeerById (h : table.Clean) (id : ℤ) :
    table.getPeerById id = .ok (DartSync.getPeerById table.peers id) := by
  unfold PeerTableT.getPeerById DartSync.getPeerById
  split_ifs
  · rfl
  · exact findSlot_ok id h.slots

theorem Clean.findsPeer (h : table.Clean) (hid : 1 ≤ id) : FindsPeer table id := by
  refine ⟨_, h.getPeerById id, ?_, ?_⟩
  · intro p hp
    unfold DartSync.getPeerById at hp
    rw [if_neg (by omega)] at hp
    exact ⟨mem_peers.mp (List.mem_of_find?_eq_some hp), by simpa using List.find?_some hp⟩
  · unfold DartSync.getPeerById
    rw [if_neg (by omega), List.find?_isSome]
    constructor
    · rintro ⟨p, hp, hpid⟩
      exact ⟨p, mem_peers.mp hp, by simpa using hpid⟩
    · rintro ⟨p, hp, hpid⟩
      exact ⟨p, mem_peers.mpr hp, by simpa using hpid⟩

theorem clean_initPeerTable {n : ℤ} (hn : 1 ≤ n) :
    ∃ table, initPeerTable n = some table ∧ table.Clean := by
  refine ⟨_, if_neg (by omega), fun h => Slot.noConfusion (List.eq_of_mem_replicate h), ?_, ?_⟩
  · show (0 : ℤ) = used ([] ++ List.replicate n.toNat .null)
    rw [used_append_replicate]
    rfl
  · show (0 : ℤ) < (List.replicate n.toNat Slot.null).length
    rw [List.length_replicate]
    omega

/-- What `realloc` adds is wild where it is not zero. -/
theorem wild_mem_grow (hfull : table.count = table.size) {i : ℕ} (hi : i < table.size)
    (hzero : zero i = false) : .wild ∈ (grow zero table).peerList := by
  unfold grow
  rw [if_pos hfull]
  refine List.mem_append_right _ (List.mem_map.mpr ⟨i, List.mem_range.mpr hi, ?_⟩)
  rw [hzero]
  rfl

/-- There is a slot for a peer. -/
theorem Clean.exists_fillSlot (h : table.Clean) (entry : Peer) :
    ∃ a b, table.peerList = a ++ .null :: b ∧
      fillSlot entry table.peerList = some (a ++ .peer entry :: b) ∧
      (a ++ .peer entry :: b).length = table.size := by
  have hlt := h.count_lt
  have hcount := h.count_eq
  have hnull : .null ∈ table.peerList := null_mem_of_used_lt (by unfold size at hlt; omega)
  obtain ⟨a, b, hsplit, hfill⟩ := PeerTableT.exists_fillSlot entry hnull
  refine ⟨a, b, hsplit, hfill, ?_⟩
  unfold size
  rw [hsplit, List.length_append, List.length_append, List.length_cons, List.length_cons]

theorem wild_notMem_replace {a b : List Slot} {x y : Slot} (h : .wild ∉ a ++ x :: b) (hy : y ≠ .wild) :
    .wild ∉ a ++ y :: b := by
  rw [List.mem_append, List.mem_cons] at h ⊢
  rintro (hw | hw | hw)
  · exact h (Or.inl hw)
  · exact hy hw.symm
  · exact h (Or.inr (Or.inr hw))

/-- A table that is at most full is clean again after the doubling with cells that are zero. -/
theorem clean_grow (hwild : .wild ∉ slots) (hpos : 0 < slots.length) (hle : used slots ≤ slots.length)
    (hzero : used slots = slots.length → ∀ i < slots.length, zero i = true) :
    (grow zero ⟨slots, used slots, c⟩).Clean := by
  have hsize : (⟨slots, used slots, c⟩ : PeerTableT).size = slots.length := rfl
  unfold grow
  by_cases hfull : used slots = slots.length
  · have hcells : (List.range slots.length).map (fun i => if zero i then Slot.null else .wild) =
        List.replicate slots.length .null := by
      refine List.eq_replicate_iff.mpr ⟨by rw [List.length_map, List.length_range], ?_⟩
      intro slot hslot
      obtain ⟨i, hi, rfl⟩ := List.mem_map.mp hslot
      exact if_pos (hzero hfull i (List.mem_range.mp hi))
    rw [hsize, if_pos (congrArg Nat.cast hfull), hcells]
    refine ⟨?_, ?_, ?_⟩
    · intro hw
      rcases List.mem_append.mp hw with hw | hw
      · exact hwild hw
      · exact Slot.noConfusion (List.eq_of_mem_replicate hw)
    · show (used slots : ℤ) = used (slots ++ List.replicate slots.length .null)
      rw [used_append_replicate]
    · show (used slots : ℤ) < (slots ++ List.replicate slots.length Slot.null).length
      rw [List.length_append, List.length_replicate]
      omega
  · rw [hsize, if_neg (fun heq => hfull (Int.ofNat_inj.mp heq))]
    refine ⟨hwild, rfl, ?_⟩
    show (used slots : ℤ) < slots.length
    omega

/-- A peer in a slot that was free, with `realloc` if the table is full then. -/
theorem Clean.fill (h : table.Clean) (entry : Peer) (c : ℤ)
    (hzero : table.count + 1 = table.size → ∀ i < table.size, zero i = true) :
    ∃ peerList, fillSlot entry table.peerList = some peerList ∧
      (grow zero ⟨peerList, table.count + 1, c⟩).Clean := by
  obtain ⟨a, b, hsplit, hfill, hlength⟩ := h.exists_fillSlot entry
  have hused : used (a ++ .peer entry :: b) = used table.peerList + 1 := by
    rw [hsplit, used_append_cons, used_append_cons]
    simp
  have hcount : table.count + 1 = used (a ++ .peer entry :: b) := by
    rw [hused, h.count_eq]
    rfl
  have hlt := h.count_lt
  refine ⟨_, hfill, ?_⟩
  rw [hcount, ← hlength] at hzero
  rw [hcount]
  refine clean_grow (wild_notMem_replace (hsplit ▸ h.slots) nofun) ?_ ?_ ?_
  · omega
  · omega
  · exact fun hfull => hzero (congrArg Nat.cast hfull)

theorem Clean.delete (h : table.Clean) (id : ℤ) :
    ∃ table', deletePeer table id = .ok table' ∧ table'.Clean ∧ table'.idCounter = table.idCounter := by
  unfold deletePeer
  rcases freeSlot_ok id h.slots with hnone | ⟨a, p, b, hsplit, hfree⟩
  · exact ⟨table, bind_eq_ok.mpr ⟨_, hnone, rfl⟩, h, rfl⟩
  · have hused : used table.peerList = used (a ++ .null :: b) + 1 := by
      rw [hsplit, used_append_cons, used_append_cons]
      simp
    have hcount := h.count_eq
    have hlt := h.count_lt
    have hlength : (a ++ .null :: b).length = table.size := by
      unfold size
      rw [hsplit, List.length_append, List.length_append, List.length_cons, List.length_cons]
    refine ⟨⟨a ++ .null :: b, table.count - 1, table.idCounter⟩,
      bind_eq_ok.mpr ⟨_, hfree, rfl⟩, ⟨wild_notMem_replace (hsplit ▸ h.slots) nofun, ?_, ?_⟩, rfl⟩
    · show table.count - 1 = used (a ++ .null :: b)
      omega
    · show table.count - 1 < ((a ++ .null :: b).length : ℤ)
      omega

/-! ## Runs -/

/-- The table is clean, and the ids given are below the counter. -/
structure History.Clean (s : History) : Prop where
  table : s.table.Clean
  added : s.added.Nodup
  lt_counter : ∀ id ∈ s.added, id < s.table.idCounter

theorem History.Clean.isTable (h : s.Clean) : s.IsTable where
  slots slot hslot := by
    cases slot with
    | null => exact Or.inl rfl
    | peer p => exact Or.inr ⟨p, rfl⟩
    | wild => exact absurd hslot h.table.slots
  count_eq := h.table.count_eq
  count_lt := h.table.count_lt
  added := h.added
  finds _ hid := h.table.findsPeer hid

theorem idCounter_grow : (grow zero table).idCounter = table.idCounter := by
  unfold grow
  split_ifs <;> rfl

/-- What a call preserves that does not double the table with wild cells. -/
theorem History.Clean.step (h : s.Clean) (hgrow : s.GrowsClean call) :
    ∃ t, s.step call = .ok t ∧ t.Clean := by
  obtain ⟨call, zero⟩ := call
  cases call with
  | add ipAddr socketfd =>
    obtain ⟨peerList, hfill, hclean⟩ :=
      h.table.fill ⟨s.table.idCounter, ipAddr, socketfd⟩ (s.table.idCounter + 1) hgrow
    refine ⟨⟨grow zero ⟨peerList, s.table.count + 1, s.table.idCounter + 1⟩,
      s.added ++ [s.table.idCounter]⟩, ?_, hclean, ?_, fun id hid => ?_⟩
    · unfold History.step addPeer
      dsimp only
      rw [hfill]
      rfl
    · refine List.nodup_append.mpr ⟨h.added, List.nodup_singleton _, fun id hid id' hid' heq => ?_⟩
      have hlt := h.lt_counter id hid
      rw [heq, List.mem_singleton.mp hid'] at hlt
      exact Int.lt_irrefl _ hlt
    · show id < (grow _ _).idCounter
      rw [idCounter_grow]
      show id < s.table.idCounter + 1
      rcases List.mem_append.mp hid with hid | hid
      · have := h.lt_counter id hid
        omega
      · rw [List.mem_singleton.mp hid]
        omega
  | copy id ipAddr socketfd =>
    obtain ⟨peerList, hfill, hclean⟩ := h.table.fill ⟨id, ipAddr, socketfd⟩ s.table.idCounter hgrow
    refine ⟨⟨grow zero ⟨peerList, s.table.count + 1, s.table.idCounter⟩, s.added⟩, ?_, hclean,
      h.added, fun id hid => ?_⟩
    · unfold History.step copyPeer
      dsimp only
      rw [hfill]
    · show id < (grow _ _).idCounter
      rw [idCounter_grow]
      exact h.lt_counter id hid
  | delete id =>
    obtain ⟨table', hdelete, hclean, hcounter⟩ := h.table.delete id
    refine ⟨⟨table', s.added⟩, bind_eq_ok.mpr ⟨table', hdelete, rfl⟩, hclean, h.added,
      fun id hid => ?_⟩
    show id < table'.idCounter
    rw [hcounter]
    exact h.lt_counter id hid

/-- After a filled slot, the table is doubled with cells that are zero if it has no wild slot. -/
theorem zero_of_wild_notMem {peerList : List Slot} (hlength : peerList.length = table.size)
    (hwild : .wild ∉ (grow zero ⟨peerList, table.count + 1, c⟩).peerList)
    (hfull : table.count + 1 = table.size) : ∀ i < table.size, zero i = true := by
  intro i hi
  by_contra hzero
  have hsize : (⟨peerList, table.count + 1, c⟩ : PeerTableT).size = table.size := hlength
  refine hwild (wild_mem_grow ?_ (i := i) ?_ (Bool.eq_false_iff.mpr hzero))
  · rw [hsize]
    exact hfull
  · rw [hsize]
    exact hi

/-- After a call that leaves a table, no wild cell has been added. -/
theorem History.Clean.growsClean (h : s.Clean) (hstep : s.step call = .ok t) (ht : t.IsTable) :
    s.GrowsClean call := by
  have hwild : .wild ∉ t.table.peerList := fun hmem =>
    (ht.slots _ hmem).elim nofun fun ⟨_, heq⟩ => Slot.noConfusion heq
  obtain ⟨call, zero⟩ := call
  cases call with
  | add ipAddr socketfd =>
    obtain ⟨a, b, -, hfill, hlength⟩ :=
      h.table.exists_fillSlot ⟨s.table.idCounter, ipAddr, socketfd⟩
    unfold History.step addPeer at hstep
    dsimp only at hstep
    rw [hfill] at hstep
    cases hstep
    exact zero_of_wild_notMem hlength hwild
  | copy id ipAddr socketfd =>
    obtain ⟨a, b, -, hfill, hlength⟩ := h.table.exists_fillSlot ⟨id, ipAddr, socketfd⟩
    unfold History.step copyPeer at hstep
    dsimp only at hstep
    rw [hfill] at hstep
    cases hstep
    exact zero_of_wild_notMem hlength hwild
  | delete id => trivial

theorem History.StaysTable.isTable (h : s.StaysTable calls) : s.IsTable := by
  cases calls with
  | nil => exact h
  | cons call calls => exact h.1

theorem History.Clean.staysTable_iff_allGrowClean (h : s.Clean) :
    s.StaysTable calls ↔ s.AllGrowClean calls := by
  induction calls generalizing s with
  | nil => exact ⟨fun _ => trivial, fun _ => h.isTable⟩
  | cons call calls ih =>
    constructor
    · rintro ⟨-, t, hstep, hstays⟩
      have hgrow := h.growsClean hstep hstays.isTable
      obtain ⟨t', hstep', ht⟩ := h.step hgrow
      rw [hstep] at hstep'
      cases hstep'
      refine ⟨hgrow, fun t' hstep' => ?_⟩
      rw [hstep] at hstep'
      cases hstep'
      exact (ih ht).mp hstays
    · rintro ⟨hgrow, hrest⟩
      obtain ⟨t, hstep, ht⟩ := h.step hgrow
      exact ⟨h.isTable, t, hstep, (ih ht).mpr (hrest t hstep)⟩

/-- **Peer tables.** A new table stays one through a sequence of calls exactly when the cells that
`realloc` adds are zero. -/
theorem staysTable_iff (n : ℤ) (hn : 1 ≤ n) (calls : List (PeerTableCall × Realloc)) :
    ∃ table, initPeerTable n = some table ∧
      (History.StaysTable ⟨table, []⟩ calls ↔ History.AllGrowClean ⟨table, []⟩ calls) := by
  obtain ⟨table, hinit, hclean⟩ := clean_initPeerTable hn
  have hs : History.Clean ⟨table, []⟩ :=
    ⟨hclean, List.nodup_nil, fun _ h => absurd h List.not_mem_nil⟩
  exact ⟨table, hinit, hs.staysTable_iff_allGrowClean⟩

theorem staysTable_iff_one : ∃ table, initPeerTable 1 = some table ∧
    (History.StaysTable ⟨table, []⟩
        [(.add [10, 0, 0, 1] 5, fun i => i = 0), (.delete 1, fun _ => false)] ↔
      History.AllGrowClean ⟨table, []⟩
        [(.add [10, 0, 0, 1] 5, fun i => i = 0), (.delete 1, fun _ => false)]) :=
  staysTable_iff 1 (by decide) _

/-- A table of one slot, and `realloc` finds something else than zero behind it. -/
theorem not_staysTable_one : ∃ table, initPeerTable 1 = some table ∧
    ¬ History.StaysTable ⟨table, []⟩ [(.add [10, 0, 0, 1] 5, fun _ => false)] := by
  refine ⟨_, rfl, ?_⟩
  rintro ⟨-, t, hstep, hstays⟩
  cases hstep
  rcases hstays.slots .wild (by decide) with heq | ⟨p, heq⟩
  · cases heq
  · cases heq

end PeerTableT

end DartSync
