import Mathlib.Algebra.Ring.Nat
import Mathlib.Data.List.Count
import DartSync.PeerTable

/-!
# The difference of two peer tables

`diff_tables` copies the peers that are in one table only into two tables of the size of the new
one. The additions fit there. The deletions may not, and then `realloc` adds cells that nobody sets
to NULL, which the client takes for peers that have left. `diffsExactly_iff`: the difference is exact
when all the cells that are added on the way to that many deletions are zero, and only then.
-/

namespace DartSync

namespace PeerTableT

/-! ## The code -/

/-- One of the two loops of `diff_tables`: what the other table has no peer for is copied. `zero s`
is what `realloc` finds when a table of size `s` is doubled. -/
def copyMissing (zero : ℕ → Realloc) (other : PeerTableT) :
    List Slot → Option PeerTableT → Except Abort (Option PeerTableT)
  | [], copy => .ok copy
  | .null :: slots, copy => copyMissing zero other slots copy
  | .wild :: _, _ => .error .uninitialized
  | .peer p :: slots, copy => do
    match ← other.getPeerById p.id with
    | some _ => copyMissing zero other slots copy
    | none =>
      copyMissing zero other slots <| copy.map fun table =>
        (copyPeer (zero table.size) table p.id p.ipAddr p.socketfd).2

/-- `diff_tables`: the value returned, the additions and the deletions. -/
def diffTables (zeroAdded zeroDeleted : ℕ → Realloc) (orig new : PeerTableT) :
    Except Abort (ℤ × Option PeerTableT × Option PeerTableT) := do
  let additions ← copyMissing zeroAdded orig new.peerList (initPeerTable new.size)
  let deletions ← copyMissing zeroDeleted new orig.peerList (initPeerTable new.size)
  return (1, additions, deletions)

/-- The loop of `handle_tracker_msg` that notifies the logic of the peers of a table. -/
def notifyPeers : List Slot → Except Abort (List ℤ)
  | [] => .ok []
  | .null :: slots => notifyPeers slots
  | .wild :: _ => .error .uninitialized
  | .peer p :: slots => do
    let ids ← notifyPeers slots
    return p.id :: ids

/-- What `handle_tracker_msg` does with a PEER_TABLE: the peers that the logic is told have been
added and have been removed. -/
def receivePeerTable (zeroAdded zeroDeleted : ℕ → Realloc) (orig new : PeerTableT) :
    Except Abort (List ℤ × List ℤ) := do
  match ← diffTables zeroAdded zeroDeleted orig new with
  | (_, some additions, some deletions) =>
    let added ← notifyPeers additions.peerList
    let removed ← notifyPeers deletions.peerList
    return (added, removed)
  | _ => .error .nullPointer

/-! ## What it is for -/

/-- The peers of a table whose ids are not in the other. -/
def missing (table other : PeerTableT) : List Peer :=
  table.peers.filter fun p => ∀ x ∈ other.peers, x.id ≠ p.id

/-- The slots that are not NULL hold the peers listed, each once. -/
structure HoldsExactly (table : PeerTableT) (ps : List Peer) : Prop where
  slots : ∀ slot ∈ table.peerList, slot ≠ .null → ∃ p ∈ ps, slot = .peer p
  once : ∀ p ∈ ps, table.peerList.count (.peer p) = 1

/-- The difference is returned, and the logic is told of each peer that has joined or left, once. -/
structure DiffsExactly (zeroAdded zeroDeleted : ℕ → Realloc) (orig new : PeerTableT) : Prop where
  tables : ∃ additions deletions,
    diffTables zeroAdded zeroDeleted orig new = .ok (1, some additions, some deletions) ∧
      additions.HoldsExactly (new.missing orig) ∧ deletions.HoldsExactly (orig.missing new)
  told : ∃ added removed, receivePeerTable zeroAdded zeroDeleted orig new = .ok (added, removed) ∧
    added.Perm ((new.missing orig).map Peer.id) ∧ removed.Perm ((orig.missing new).map Peer.id)

/-- A table as `diff_tables` gets it: in order, with ids from 1 on and no id twice. -/
structure Valid (table : PeerTableT) : Prop extends table.Clean where
  unique : (table.peers.map Peer.id).Nodup
  positive : ∀ p ∈ table.peers, 1 ≤ p.id

variable {zero zeroAdded zeroDeleted : ℕ → Realloc} {table orig new : PeerTableT} {ps qs : List Peer}
  {p : Peer} {slots : List Slot} {size n : ℕ}

theorem length_peers_le : table.peers.length ≤ used table.peerList := by
  unfold peers used
  generalize table.peerList = slots
  induction slots with
  | nil => exact le_rfl
  | cons slot slots ih =>
    cases slot with
    | null => exact ih
    | peer p => exact Nat.succ_le_succ ih
    | wild => exact Nat.le_succ_of_le ih

theorem Valid.nodup_missing (h : table.Valid) (other : PeerTableT) :
    ((table.missing other).map Peer.id).Nodup :=
  h.unique.sublist (List.filter_sublist.map _)

/-- The lookup of the loop. -/
theorem Clean.getPeerById_eq_none (h : table.Clean) (hp : 1 ≤ p.id) :
    (∃ found, table.getPeerById p.id = .ok (some found)) ∧ (∃ x ∈ table.peers, x.id = p.id) ∨
      table.getPeerById p.id = .ok none ∧ ∀ x ∈ table.peers, x.id ≠ p.id := by
  rw [h.getPeerById]
  unfold DartSync.getPeerById
  rw [if_neg (by omega)]
  cases hfind : table.peers.find? fun x => x.id = p.id with
  | none => exact Or.inr ⟨rfl, by simpa using hfind⟩
  | some x =>
    exact Or.inl ⟨⟨x, rfl⟩, x, List.mem_of_find?_eq_some hfind, by simpa using List.find?_some hfind⟩

/-- A copy of one more peer. -/
def copyOne (zero : ℕ → Realloc) (table : PeerTableT) (p : Peer) : PeerTableT :=
  (copyPeer (zero table.size) table p.id p.ipAddr p.socketfd).2

/-- The loop copies the peers that are missing, in their order. -/
theorem copyMissing_eq {other : PeerTableT} (hother : other.Clean) (hslots : .wild ∉ slots)
    (hids : ∀ p ∈ slots.filterMap peer?, 1 ≤ p.id) (copy : Option PeerTableT) :
    copyMissing zero other slots copy = .ok (copy.map fun table =>
      ((slots.filterMap peer?).filter fun p => ∀ x ∈ other.peers, x.id ≠ p.id).foldl (copyOne zero)
        table) := by
  induction slots generalizing copy with
  | nil => cases copy <;> rfl
  | cons slot slots ih =>
    rw [List.mem_cons, not_or] at hslots
    cases slot with
    | wild => exact absurd rfl hslots.1
    | null => exact ih hslots.2 hids copy
    | peer p =>
      have hcons : (Slot.peer p :: slots).filterMap peer? = p :: slots.filterMap peer? := rfl
      rw [hcons] at hids ⊢
      have hrest := ih hslots.2 fun x hx => hids x (List.mem_cons_of_mem _ hx)
      rw [copyMissing, List.filter_cons]
      obtain ⟨⟨found, hfound⟩, x, hx, hxid⟩ | ⟨hnone, hall⟩ :=
        hother.getPeerById_eq_none (hids p List.mem_cons_self)
      · have hnot : ¬ ∀ x ∈ other.peers, x.id ≠ p.id := fun h => h x hx hxid
        rw [hfound, if_neg (by simpa using hnot)]
        exact hrest copy
      · rw [hnone, if_pos (by simpa using hall)]
        refine (hrest _).trans ?_
        rw [Option.map_map]
        rfl

/-! ## Copying into a new table -/

/-- The peers are in the first slots and the others are NULL; there is at least one of these. -/
structure Filled (table : PeerTableT) (size : ℕ) (ps : List Peer) : Prop where
  peerList : table.peerList = ps.map Slot.peer ++ List.replicate (size - ps.length) .null
  count_eq : table.count = ps.length
  length_lt : ps.length < size

/-- All cells that are added until a table of this size holds `n` peers are zero. -/
def AllZero (zero : ℕ → Realloc) (size n : ℕ) : Prop :=
  ∀ k, size * 2 ^ k ≤ n → ∀ i < size * 2 ^ k, zero (size * 2 ^ k) i = true

theorem allZero_of_lt (h : n < size) : AllZero zero size n := by
  intro k hk
  have hle : size * 1 ≤ size * 2 ^ k := Nat.mul_le_mul_left size Nat.one_le_two_pow
  omega

/-- The first doubling and the others. -/
theorem allZero_iff (h : size ≤ n) :
    AllZero zero size n ↔ (∀ i < size, zero size i = true) ∧ AllZero zero (size * 2) n := by
  constructor
  · intro hall
    refine ⟨by simpa using hall 0 (by simpa using h), fun k hk => ?_⟩
    have hnext := hall (k + 1)
    rw [Nat.pow_succ', ← Nat.mul_assoc] at hnext
    exact hnext hk
  · rintro ⟨hfirst, hrest⟩ k hk
    cases k with
    | zero => simpa using hfirst
    | succ k =>
      rw [Nat.pow_succ', ← Nat.mul_assoc] at hk ⊢
      exact hrest k hk

theorem Filled.size_eq (h : table.Filled size ps) : table.size = size := by
  have hlt := h.length_lt
  unfold PeerTableT.size
  rw [h.peerList, List.length_append, List.length_map, List.length_replicate]
  omega

theorem fillSlot_map_peer (entry : Peer) (ps : List Peer) (slots : List Slot) :
    fillSlot entry (ps.map Slot.peer ++ .null :: slots) =
      some ((ps ++ [entry]).map Slot.peer ++ slots) := by
  induction ps with
  | nil => rfl
  | cons p ps ih =>
    rw [List.map_cons, List.cons_append, fillSlot, ih]
    · rfl
    · exact nofun

/-- The next peer gets the next slot. -/
theorem Filled.copyOne_eq (h : table.Filled size ps) (p : Peer) : copyOne zero table p =
    grow (zero size) ⟨(ps ++ [p]).map Slot.peer ++ List.replicate (size - (ps ++ [p]).length) .null,
      (ps ++ [p]).length, table.idCounter⟩ := by
  have hlt := h.length_lt
  obtain ⟨m, hm⟩ : ∃ m, size - ps.length = m + 1 := ⟨size - ps.length - 1, by omega⟩
  have hlength : size - (ps ++ [p]).length = m := by
    rw [List.length_append, List.length_singleton]
    omega
  unfold copyOne copyPeer
  dsimp only
  rw [h.peerList, hm, List.replicate_succ, fillSlot_map_peer, h.size_eq, h.count_eq, hlength]
  simp

theorem Filled.copyOne_of_lt (h : table.Filled size ps) (hlt : ps.length + 1 < size) :
    (copyOne zero table p).Filled size (ps ++ [p]) := by
  have hlength : (ps ++ [p]).length < size := by simpa using hlt
  rw [h.copyOne_eq]
  unfold grow
  rw [if_neg]
  · exact ⟨rfl, rfl, hlength⟩
  · unfold PeerTableT.size
    simp only [List.length_append, List.length_map, List.length_replicate] at hlength ⊢
    omega

variable (zero p) in
/-- The last slot is filled, and the table is doubled. -/
theorem Filled.copyOne_of_eq (h : table.Filled size ps) (heq : ps.length + 1 = size) :
    (copyOne zero table p).peerList = (ps ++ [p]).map Slot.peer ++
        (List.range size).map (fun i => if zero size i then .null else .wild) ∧
      (copyOne zero table p).count = (ps ++ [p]).length := by
  have hlength : (ps ++ [p]).length = size := by simpa using heq
  rw [h.copyOne_eq, hlength]
  unfold grow
  have hsize : (⟨(ps ++ [p]).map Slot.peer ++ List.replicate (size - size) .null, size,
      table.idCounter⟩ : PeerTableT).size = size := by
    unfold PeerTableT.size
    simpa using heq
  rw [hsize, if_pos rfl]
  simp

theorem Filled.copyOne_of_zero (h : table.Filled size ps) (heq : ps.length + 1 = size)
    (hzero : ∀ i < size, zero size i = true) :
    (copyOne zero table p).Filled (size * 2) (ps ++ [p]) := by
  obtain ⟨hlist, hcount⟩ := h.copyOne_of_eq zero p heq
  have hlength : (ps ++ [p]).length = size := by simpa using heq
  have hcells : (List.range size).map (fun i => if zero size i then Slot.null else .wild) =
      List.replicate size .null := by
    refine List.eq_replicate_iff.mpr ⟨by rw [List.length_map, List.length_range], ?_⟩
    intro slot hslot
    obtain ⟨i, hi, rfl⟩ := List.mem_map.mp hslot
    exact if_pos (hzero i (List.mem_range.mp hi))
  refine ⟨?_, hcount, by omega⟩
  rw [hlist, hcells, hlength]
  congr 2
  omega

theorem wild_mem_fillSlot {slots' : List Slot} (h : .wild ∈ slots)
    (hfill : fillSlot p slots = some slots') : .wild ∈ slots' := by
  induction slots generalizing slots' with
  | nil => cases h
  | cons slot slots ih =>
    cases slot with
    | null =>
      cases hfill
      exact List.mem_cons_of_mem _ ((List.mem_cons.mp h).resolve_left nofun)
    | wild =>
      obtain ⟨rest, -, rfl⟩ := Option.map_eq_some_iff.mp hfill
      exact List.mem_cons_self
    | peer q =>
      obtain ⟨rest, hrest, rfl⟩ := Option.map_eq_some_iff.mp hfill
      exact List.mem_cons_of_mem _ (ih ((List.mem_cons.mp h).resolve_left nofun) hrest)

/-- A wild cell stays. -/
theorem wild_mem_copyAll (h : .wild ∈ table.peerList) (qs : List Peer) :
    .wild ∈ (qs.foldl (copyOne zero) table).peerList := by
  induction qs generalizing table with
  | nil => exact h
  | cons q qs ih =>
    refine ih ?_
    unfold copyOne copyPeer
    dsimp only
    cases hfill : fillSlot ⟨q.id, q.ipAddr, q.socketfd⟩ table.peerList with
    | none => exact h
    | some peerList =>
      have hwild := wild_mem_fillSlot h hfill
      dsimp only
      unfold grow
      split_ifs
      · exact List.mem_append_left _ hwild
      · exact hwild

variable (zero) in
/-- All the copies. -/
theorem Filled.copyAll (h : table.Filled size ps) (qs : List Peer) :
    (AllZero zero size (ps.length + qs.length) ∧
      ∃ size', (qs.foldl (copyOne zero) table).Filled size' (ps ++ qs)) ∨
    (¬ AllZero zero size (ps.length + qs.length) ∧
      .wild ∈ (qs.foldl (copyOne zero) table).peerList) := by
  induction qs generalizing table size ps with
  | nil => exact Or.inl ⟨allZero_of_lt h.length_lt, size, by simpa using h⟩
  | cons q qs ih =>
    have hlength : ps.length + (q :: qs).length = (ps ++ [q]).length + qs.length := by
      simp only [List.length_append, List.length_cons, List.length_nil]
      omega
    have hlist : ps ++ q :: qs = (ps ++ [q]) ++ qs := by simp
    rw [hlength, hlist, List.foldl_cons]
    have hlt := h.length_lt
    rcases Nat.lt_or_eq_of_le (Nat.succ_le_of_lt hlt) with hroom | hfull
    · exact ih (h.copyOne_of_lt hroom)
    · have hle : size ≤ (ps ++ [q]).length + qs.length := by
        rw [List.length_append, List.length_singleton]
        omega
      rw [allZero_iff hle]
      by_cases hzero : ∀ i < size, zero size i = true
      · rw [and_iff_right hzero]
        exact ih (h.copyOne_of_zero hfull hzero)
      · refine Or.inr ⟨fun hall => hzero hall.1, wild_mem_copyAll ?_ qs⟩
        rw [(h.copyOne_of_eq zero q hfull).1]
        obtain ⟨i, hi⟩ := not_forall.mp hzero
        obtain ⟨hi, hi'⟩ := Classical.not_imp.mp hi
        refine List.mem_append_right _ (List.mem_map.mpr ⟨i, List.mem_range.mpr hi, ?_⟩)
        exact if_neg hi'

theorem filled_initPeerTable {table : PeerTableT} (h : initPeerTable size = some table) :
    table.Filled size [] := by
  unfold initPeerTable at h
  split_ifs at h
  cases h
  exact ⟨by simp, rfl, by simp; omega⟩

/-! ## The difference -/

theorem Filled.holdsExactly (h : table.Filled size ps) (hps : ps.Nodup) : table.HoldsExactly ps where
  slots slot hslot hnull := by
    rw [h.peerList] at hslot
    rcases List.mem_append.mp hslot with hslot | hslot
    · obtain ⟨p, hp, rfl⟩ := List.mem_map.mp hslot
      exact ⟨p, hp, rfl⟩
    · exact absurd (List.eq_of_mem_replicate hslot) hnull
  once p hp := by
    have hinj : Function.Injective Slot.peer := fun a b hab => by cases hab; rfl
    rw [h.peerList, List.count_append, List.count_map_of_injective _ _ hinj,
      List.count_eq_one_of_mem hps hp, List.count_replicate]
    simp

theorem notifyPeers_filled (ps : List Peer) (n : ℕ) :
    notifyPeers (ps.map Slot.peer ++ List.replicate n .null) = .ok (ps.map Peer.id) := by
  induction ps with
  | nil =>
    induction n with
    | zero => rfl
    | succ n ih => exact ih
  | cons p ps ih => exact bind_eq_ok.mpr ⟨_, ih, rfl⟩

theorem HoldsExactly.wild_notMem (h : table.HoldsExactly ps) : .wild ∉ table.peerList := by
  intro hwild
  obtain ⟨p, -, hp⟩ := h.slots .wild hwild nofun
  cases hp

variable (zeroAdded zeroDeleted) in
/-- The two loops. -/
theorem diffTables_eq (horig : orig.Valid) (hnew : new.Valid) : ∃ added deleted,
    diffTables zeroAdded zeroDeleted orig new = .ok (1, some added, some deleted) ∧
      (∃ size, added.Filled size (new.missing orig)) ∧
      (AllZero zeroDeleted new.size (orig.missing new).length ∧
          (∃ size, deleted.Filled size (orig.missing new)) ∨
        ¬ AllZero zeroDeleted new.size (orig.missing new).length ∧ .wild ∈ deleted.peerList) := by
  have hsize : (1 : ℤ) ≤ new.size := by
    have hcount := hnew.count_eq
    have hlt := hnew.count_lt
    omega
  obtain ⟨start, hstart, -⟩ := clean_initPeerTable hsize
  have hfilled := filled_initPeerTable hstart
  -- there are fewer additions than peers in the new table, and these leave a slot free
  have hfew : (new.missing orig).length < new.size := by
    have hle : (new.missing orig).length ≤ new.peers.length := List.length_filter_le _ _
    have hused : new.peers.length ≤ used new.peerList := length_peers_le
    have hcount := hnew.count_eq
    have hlt := hnew.count_lt
    omega
  refine ⟨(new.missing orig).foldl (copyOne zeroAdded) start,
    (orig.missing new).foldl (copyOne zeroDeleted) start, ?_, ?_, ?_⟩
  · unfold diffTables
    rw [hstart, copyMissing_eq horig.toClean hnew.slots hnew.positive,
      copyMissing_eq hnew.toClean horig.slots horig.positive]
    rfl
  · obtain ⟨-, size, hadded⟩ | ⟨hnot, -⟩ := hfilled.copyAll zeroAdded (new.missing orig)
    · exact ⟨size, hadded⟩
    · exact absurd (allZero_of_lt (by simpa using hfew)) hnot
  · simpa using hfilled.copyAll zeroDeleted (orig.missing new)

/-- **The difference of two tables.** It is exact, and the logic is told of it, exactly when the
cells are zero that `realloc` adds to the table of the deletions while it grows from the size of the
new table to the number of the peers lost. -/
theorem diffsExactly_iff (zeroAdded zeroDeleted : ℕ → Realloc) (orig new : PeerTableT)
    (horig : orig.Valid) (hnew : new.Valid) : DiffsExactly zeroAdded zeroDeleted orig new ↔
      AllZero zeroDeleted new.size (orig.missing new).length := by
  obtain ⟨added, deleted, hdiff, ⟨size, hadded⟩, hdeleted⟩ :=
    diffTables_eq zeroAdded zeroDeleted horig hnew
  constructor
  · rintro ⟨⟨added', deleted', hdiff', -, hexact⟩, -⟩
    rw [hdiff] at hdiff'
    cases hdiff'
    exact hdeleted.elim And.left fun hwild => absurd hwild.2 hexact.wild_notMem
  · intro hall
    obtain ⟨-, size', hfilled⟩ | ⟨hnot, -⟩ := hdeleted
    · refine ⟨⟨added, deleted, hdiff, hadded.holdsExactly (hnew.nodup_missing orig).of_map,
        hfilled.holdsExactly (horig.nodup_missing new).of_map⟩, ?_⟩
      refine ⟨_, _, ?_, List.Perm.refl _, List.Perm.refl _⟩
      unfold receivePeerTable
      refine bind_eq_ok.mpr ⟨_, hdiff, bind_eq_ok.mpr ⟨_, ?_, bind_eq_ok.mpr ⟨_, ?_, rfl⟩⟩⟩
      · rw [hadded.peerList]
        exact notifyPeers_filled _ _
      · rw [hfilled.peerList]
        exact notifyPeers_filled _ _
    · exact absurd hall hnot

/-- A table of one peer in two slots. -/
def single : PeerTableT := ⟨[.peer ⟨1, [10, 0, 0, 1], 5⟩, .null], 1, 1⟩

/-- A table without a peer in one slot. -/
def vacant : PeerTableT := ⟨[.null], 0, 1⟩

theorem diffsExactly_iff_single : DiffsExactly (fun _ _ => false) (fun _ _ => true) single vacant ↔
    AllZero (fun _ _ => true) 1 1 :=
  diffsExactly_iff _ _ single vacant
    ⟨⟨by decide, by decide, by decide⟩, by decide, by decide⟩
    ⟨⟨by decide, by decide, by decide⟩, by decide, by decide⟩

/-- The peer of the one table leaves, and `realloc` finds something else than zero behind the only
slot for it. -/
theorem not_diffsExactly_single :
    ¬ DiffsExactly (fun _ _ => false) (fun _ _ => false) single vacant := by
  rintro ⟨⟨added, deleted, hdiff, -, hexact⟩, -⟩
  cases hdiff
  obtain ⟨p, -, hp⟩ := hexact.slots .wild (by decide) nofun
  cases hp

end PeerTableT

end DartSync
