import DartSync.PeerTable
import DartSync.Serial

/-!
# Peer tables as bytes

`serialize_peer_table` and `deserialize_peer_table`. The peers arrive as they were sent, but each is
counted twice: the new table has room for twice as many peers and claims to be full
(`deserialize_serialize`). It is never doubled after that, and `copy_peer` fails once the second half
is used up.
-/

namespace DartSync

namespace PeerTableT

/-- `IP_LEN` -/
def ipLen : ℕ := 4

/-- `client_size` -/
def clientSize : ℕ := 4 + ipLen

/-- What the loop of `serialize_peer_table` writes. -/
def serializeSlots : List Slot → Except Abort (List UInt8)
  | [] => .ok []
  | .null :: slots => serializeSlots slots
  | .wild :: _ => .error .uninitialized
  | .peer p :: slots => do
    let written ← serializeSlots slots
    return intBytes (.ofInt p.id) ++ p.ipAddr ++ written

/-- `serialize_peer_table`; NULL when the table is empty. -/
def serializePeerTable (table : PeerTableT) : Except Abort (Option (List UInt8)) :=
  if table.count = 0 then .ok none
  else do
    let buf ← serializeSlots table.peerList
    if table.count * clientSize < buf.length then .error .outOfBounds else pure (some buf)

/-- The loop of `deserialize_peer_table`, for `n` more peers; `zero` is what `realloc` finds in each
of its turns. -/
def deserializeFrom (zero : ℕ → Realloc) : ℕ → List UInt8 → PeerTableT → Except Abort PeerTableT
  | 0, _, newTable => .ok newTable
  | n + 1, ptr, newTable => do
    let id ← readInt ptr
    let newTable := (copyPeer (zero n) newTable id.toInt ((ptr.drop 4).take ipLen) (-1)).2
    deserializeFrom zero n (ptr.drop clientSize) { newTable with count := newTable.count + 1 }

/-- `deserialize_peer_table` -/
def deserializePeerTable (zero : ℕ → Realloc) (buffer : List UInt8) :
    Except Abort (Option PeerTableT) :=
  if buffer.length = 0 then .ok (initPeerTable 10)
  else match initPeerTable (buffer.length / clientSize * 2 : ℕ) with
    | none => .ok none
    | some newTable => do
      let newTable ← deserializeFrom zero (buffer.length / clientSize) buffer newTable
      return some newTable

/-- The fields of the peer fit a `peer_t`. -/
structure IsPeer (p : Peer) : Prop where
  le_id : -2 ^ 31 ≤ p.id
  id_lt : p.id < 2 ^ 31
  ipAddr : p.ipAddr.length = ipLen

instance : DecidablePred IsPeer := fun p => decidable_of_iff
  (-2 ^ 31 ≤ p.id ∧ p.id < 2 ^ 31 ∧ p.ipAddr.length = ipLen)
  ⟨fun h => ⟨h.1, h.2.1, h.2.2⟩, fun h => ⟨h.le_id, h.id_lt, h.ipAddr⟩⟩

variable {table : PeerTableT} {slots : List Slot} {ps qs : List Peer} {p : Peer} {n k : ℕ} {c : ℤ}
  {zero : ℕ → Realloc}

/-! ## What is written and read -/

/-- The bytes of a list of peers. -/
def peerBytes (ps : List Peer) : List UInt8 :=
  ps.flatMap fun p => intBytes (.ofInt p.id) ++ p.ipAddr

theorem serializeSlots_eq (h : .wild ∉ slots) :
    serializeSlots slots = .ok (peerBytes (slots.filterMap peer?)) := by
  induction slots with
  | nil => rfl
  | cons slot slots ih =>
    rw [List.mem_cons, not_or] at h
    cases slot with
    | wild => exact absurd rfl h.1
    | null => exact ih h.2
    | peer p => exact bind_eq_ok.mpr ⟨_, ih h.2, rfl⟩

theorem length_peerBytes (h : ∀ p ∈ ps, IsPeer p) : (peerBytes ps).length = ps.length * clientSize := by
  induction ps with
  | nil => simp [peerBytes]
  | cons p ps ih =>
    have hps := ih fun q hq => h q (List.mem_cons_of_mem p hq)
    have hip := (h p List.mem_cons_self).ipAddr
    unfold peerBytes at hps ⊢
    rw [List.flatMap_cons, List.length_append, List.length_append, hps, hip, List.length_cons]
    show clientSize + _ = _
    rw [Nat.succ_mul, Nat.add_comm]

/-- The slots in use are those of the peers. -/
theorem used_eq_length_peers (h : .wild ∉ table.peerList) : used table.peerList = table.peers.length := by
  obtain ⟨slots, count, counter⟩ := table
  unfold peers
  induction slots with
  | nil => rfl
  | cons slot slots ih =>
    rw [List.mem_cons, not_or] at h
    have hrest := ih h.2
    cases slot with
    | wild => exact absurd rfl h.1
    | null => exact hrest
    | peer p => exact congrArg Nat.succ hrest

theorem fillSlot_peers (entry : Peer) (ps : List Peer) (slots : List Slot) :
    fillSlot entry (ps.map .peer ++ .null :: slots) = some ((ps ++ [entry]).map .peer ++ slots) := by
  induction ps with
  | nil => rfl
  | cons p ps ih => exact congrArg (Option.map (.peer p :: ·)) ih

theorem fillSlot_full (entry : Peer) (ps : List Peer) : fillSlot entry (ps.map .peer) = none := by
  induction ps with
  | nil => rfl
  | cons p ps ih => exact congrArg (Option.map (.peer p :: ·)) ih

/-- A copied peer in a table whose count does not reach its size. -/
theorem copyPeer_eq (zero : Realloc) (ps : List Peer) {n : ℕ} (count c id : ℤ) (ipAddr : List UInt8)
    (fd : ℤ) (hcount : count + 1 ≠ ps.length + (n + 1)) :
    copyPeer zero ⟨ps.map .peer ++ List.replicate (n + 1) .null, count, c⟩ id ipAddr fd =
      (some ⟨id, ipAddr, fd⟩,
        ⟨(ps ++ [(⟨id, ipAddr, fd⟩ : Peer)]).map .peer ++ List.replicate n .null, count + 1, c⟩) := by
  have hsize : (⟨(ps ++ [(⟨id, ipAddr, fd⟩ : Peer)]).map .peer ++ List.replicate n .null, count + 1,
      c⟩ : PeerTableT).size = ps.length + (n + 1) := by
    unfold size
    rw [List.length_append, List.length_map, List.length_append, List.length_replicate]
    show ps.length + 1 + n = _
    omega
  have hfill := fillSlot_peers ⟨id, ipAddr, fd⟩ ps (List.replicate n .null)
  unfold copyPeer
  dsimp only
  rw [List.replicate_succ, hfill]
  dsimp only
  unfold grow
  rw [hsize, if_neg (by push_cast; exact hcount)]

/-- The peers of a new table. -/
def received (ps : List Peer) : List Peer :=
  DartSync.deserializePeerTable (ps.map fun p => (p.id, p.ipAddr))

/-- The loop reads the peers back. Each of its turns counts two, so that the count is even in front of
`copy_peer` and never the size, which is even as well. -/
theorem deserializeFrom_eq (zero : ℕ → Realloc) (c : ℤ) (hqs : ∀ p ∈ qs, IsPeer p)
    (rest : List UInt8) (hroom : qs.length ≤ k) (heven : (ps.length + k) % 2 = 0) :
    deserializeFrom zero qs.length (peerBytes qs ++ rest)
        ⟨ps.map .peer ++ List.replicate k .null, 2 * ps.length, c⟩ =
      .ok ⟨(ps ++ received qs).map .peer ++ List.replicate (k - qs.length) .null,
        2 * (ps.length + qs.length), c⟩ := by
  induction qs generalizing ps k with
  | nil =>
    unfold received
    rw [List.map_nil]
    show _ = Except.ok (PeerTableT.mk ((ps ++ []).map _ ++ _) _ _)
    rw [List.append_nil]
    rfl
  | cons q qs ih =>
    obtain ⟨k, rfl⟩ := Nat.exists_eq_add_one_of_ne_zero
      (Nat.ne_of_gt (Nat.lt_of_lt_of_le (Nat.succ_pos qs.length) hroom))
    have hq := hqs q List.mem_cons_self
    have hbytes : peerBytes (q :: qs) ++ rest =
        intBytes (.ofInt q.id) ++ (q.ipAddr ++ (peerBytes qs ++ rest)) := by
      unfold peerBytes
      rw [List.flatMap_cons, List.append_assoc, List.append_assoc]
    have hip : ((peerBytes (q :: qs) ++ rest).drop 4).take ipLen = q.ipAddr := by
      rw [hbytes]
      exact List.take_left' hq.ipAddr
    have hdrop : (peerBytes (q :: qs) ++ rest).drop clientSize = peerBytes qs ++ rest := by
      rw [hbytes, ← List.append_assoc]
      exact List.drop_left' (by rw [List.length_append, hq.ipAddr]; rfl)
    have hid : (Int32.ofInt q.id).toInt = q.id := Int32.toInt_ofInt_of_le hq.le_id hq.id_lt
    have hodd : (2 : ℤ) * ps.length + 1 ≠ ps.length + (k + 1) := by omega
    have hcopy := copyPeer_eq (zero qs.length) ps (2 * ps.length) c q.id q.ipAddr (-1) hodd
    rw [List.length_cons, deserializeFrom]
    refine bind_eq_ok.mpr ⟨_, by rw [hbytes]; exact readInt_intBytes, ?_⟩
    rw [hip, hdrop, hid, hcopy]
    have heven' : ((ps ++ [(⟨q.id, q.ipAddr, -1⟩ : Peer)]).length + k) % 2 = 0 := by
      rw [List.length_append, List.length_singleton]
      omega
    have hrest := ih (fun p hp => hqs p (List.mem_cons_of_mem q hp)) (Nat.le_of_succ_le_succ hroom)
      heven'
    have hlength : (ps ++ [(⟨q.id, q.ipAddr, -1⟩ : Peer)]).length = ps.length + 1 := List.length_append
    have hassoc : ps ++ [(⟨q.id, q.ipAddr, -1⟩ : Peer)] ++ received qs = ps ++ received (q :: qs) :=
      List.append_assoc _ _ _
    rw [hlength, hassoc] at hrest
    have hcount : (2 : ℤ) * (ps.length + 1 : ℕ) = 2 * ps.length + 1 + 1 := by push_cast; omega
    have hcount' : (2 : ℤ) * ((ps.length + 1 : ℕ) + qs.length) =
        2 * (ps.length + (qs.length + 1 : ℕ)) := by push_cast; omega
    rw [hcount, hcount'] at hrest
    rw [Nat.add_sub_add_right]
    exact hrest

/-! ## Decoded tables -/

/-- What the representation of a table asks of a decoded one. -/
def CodecLaw (zero : ℕ → Realloc) (table : PeerTableT) : Prop :=
  ∃ buffer newTable, serializePeerTable table = .ok (some buffer) ∧
    deserializePeerTable zero buffer = .ok (some newTable) ∧
    newTable.peers = received table.peers ∧ newTable.Clean

/-- The table that comes out of the bytes of `ps`: as many slots are free as there are peers, and
`count` is the size. -/
def decoded (ps : List Peer) : PeerTableT :=
  ⟨(received ps).map .peer ++ List.replicate ps.length .null, 2 * ps.length, 1⟩

theorem deserialize_serialize (zero : ℕ → Realloc) (h : table.Clean)
    (hvalid : ∀ p ∈ table.peers, IsPeer p) (hpos : table.peers ≠ []) :
    serializePeerTable table = .ok (some (peerBytes table.peers)) ∧
      deserializePeerTable zero (peerBytes table.peers) = .ok (some (decoded table.peers)) := by
  have hlength := length_peerBytes hvalid
  have hn : 0 < table.peers.length := List.length_pos_of_ne_nil hpos
  have hbuffer : (peerBytes table.peers).length ≠ 0 := by
    rw [hlength]
    exact Nat.mul_ne_zero (Nat.ne_of_gt hn) (by decide)
  have hcount : table.count = table.peers.length := by
    rw [h.count_eq, used_eq_length_peers h.slots]
  constructor
  · unfold serializePeerTable
    rw [if_neg (by omega)]
    refine bind_eq_ok.mpr ⟨_, serializeSlots_eq h.slots, if_neg ?_⟩
    show ¬ table.count * clientSize < ((peerBytes table.peers).length : ℤ)
    rw [hlength, hcount]
    push_cast
    exact lt_irrefl _
  · have hdiv : (peerBytes table.peers).length / clientSize = table.peers.length := by
      rw [hlength]
      exact Nat.mul_div_cancel _ (by decide)
    have heven : (([] : List Peer).length + table.peers.length * 2) % 2 = 0 := by
      rw [List.length_nil, Nat.zero_add, Nat.mul_mod_left]
    have hloop := deserializeFrom_eq zero 1 hvalid [] (by omega) heven
    have htwo : table.peers.length * 2 - table.peers.length = table.peers.length := by omega
    have hcount' : (2 : ℤ) * (([] : List Peer).length + table.peers.length) = 2 * table.peers.length := by
      rw [List.length_nil]
      omega
    rw [List.append_nil, List.nil_append, htwo, hcount'] at hloop
    unfold deserializePeerTable initPeerTable
    rw [hdiv, if_neg hbuffer, if_neg (by omega)]
    exact bind_eq_ok.mpr ⟨_, hloop, rfl⟩

@[simp] theorem length_received : (received ps).length = ps.length := by
  unfold received DartSync.deserializePeerTable
  rw [List.length_map, List.length_map]

theorem peers_append_replicate (ps : List Peer) (n : ℕ) (count c : ℤ) :
    (⟨ps.map .peer ++ List.replicate n .null, count, c⟩ : PeerTableT).peers = ps := by
  unfold peers
  rw [List.filterMap_append, List.filterMap_map, List.filterMap_replicate_of_none rfl,
    List.append_nil]
  exact List.filterMap_some

theorem size_decoded : (decoded ps).size = 2 * ps.length := by
  unfold decoded size
  rw [List.length_append, List.length_map, length_received, List.length_replicate]
  omega

/-! ## Copies into a decoded table -/

/-- Calls of `copy_peer`. -/
def copyPeers (table : PeerTableT) (copies : List (Peer × Realloc)) : PeerTableT :=
  copies.foldl (fun table copy => (copyPeer copy.2 table copy.1.id copy.1.ipAddr copy.1.socketfd).2) table

/-- The copies fill the free slots and pass the size without reaching it. -/
theorem copyPeers_eq (c : ℤ) {copies : List (Peer × Realloc)} {count : ℤ} (hroom : copies.length ≤ n)
    (hcount : ps.length + n ≤ count) :
    copyPeers ⟨ps.map .peer ++ List.replicate n .null, count, c⟩ copies =
      ⟨(ps ++ copies.map Prod.fst).map .peer ++ List.replicate (n - copies.length) .null,
        count + copies.length, c⟩ := by
  induction copies generalizing ps n count with
  | nil =>
    rw [List.map_nil, List.append_nil]
    show _ = PeerTableT.mk _ (count + 0) c
    rw [Int.add_zero]
    rfl
  | cons copy copies ih =>
    obtain ⟨n, rfl⟩ := Nat.exists_eq_add_one_of_ne_zero
      (Nat.ne_of_gt (Nat.lt_of_lt_of_le (Nat.succ_pos copies.length) hroom))
    obtain ⟨copy, zero⟩ := copy
    have hlength : (ps ++ [copy]).length = ps.length + 1 := List.length_append
    have hfull : count + 1 ≠ ps.length + (n + 1) := by omega
    have hcopy := copyPeer_eq zero ps count c copy.id copy.ipAddr copy.socketfd hfull
    have hcount' : ((ps ++ [copy]).length : ℤ) + n ≤ count + 1 := by rw [hlength]; omega
    have hrest := ih (Nat.le_of_succ_le_succ hroom) hcount'
    show copyPeers (copyPeer _ _ _ _ _).2 copies = _
    rw [hcopy]
    refine hrest.trans ?_
    rw [List.append_assoc, List.length_cons, Nat.add_sub_add_right]
    congr 1
    omega

/-- In a table without a free slot `copy_peer` fails. -/
theorem copyPeer_full {zero : Realloc} {count : ℤ} (id : ℤ) (ipAddr : List UInt8) (fd : ℤ) :
    (copyPeer zero ⟨ps.map .peer, count, c⟩ id ipAddr fd).1 = none := by
  have hfill := fillSlot_full ⟨id, ipAddr, fd⟩ ps
  unfold copyPeer
  dsimp only
  rw [hfill]

/-- **Decoding.** No table with a peer survives: the peers that come out are right, but `count` is
twice their number and the size, and after as many copies again the next one fails. -/
theorem not_codecLaw (table : PeerTableT) (zero : ℕ → Realloc) (h : table.Clean)
    (hvalid : ∀ p ∈ table.peers, IsPeer p) (hpos : table.peers ≠ []) :
    ¬ CodecLaw zero table ∧ ∃ buffer newTable, serializePeerTable table = .ok (some buffer) ∧
      deserializePeerTable zero buffer = .ok (some newTable) ∧
      newTable.peers = received table.peers ∧ newTable.count = 2 * table.peers.length ∧
      newTable.count = newTable.size ∧
      ∀ copies : List (Peer × Realloc), copies.length = table.peers.length →
        ∀ zero id ipAddr fd, (copyPeer zero (copyPeers newTable copies) id ipAddr fd).1 = none := by
  obtain ⟨hser, hdes⟩ := deserialize_serialize zero h hvalid hpos
  have hcount : (decoded table.peers).count = (decoded table.peers).size := by
    rw [size_decoded]
    push_cast
    rfl
  refine ⟨?_, _, _, hser, hdes, peers_append_replicate _ _ _ _, rfl, hcount, ?_⟩
  · rintro ⟨buffer, newTable, hser', hdes', -, hclean⟩
    rw [hser] at hser'
    cases hser'
    rw [hdes] at hdes'
    cases hdes'
    exact absurd hclean.count_lt (by rw [hcount]; exact lt_irrefl _)
  · intro copies hlength zero id ipAddr fd
    have hcount : ((received table.peers).length : ℤ) + table.peers.length ≤
        2 * table.peers.length := by rw [length_received]; omega
    have hcopies := copyPeers_eq 1 (Nat.le_of_eq hlength) hcount
    unfold decoded
    rw [hcopies, hlength, Nat.sub_self, List.replicate_zero, List.append_nil]
    exact copyPeer_full id ipAddr fd

namespace CodecExample

/-- A table with one peer. -/
def onePeer : PeerTableT := ⟨[.peer ⟨1, [10, 0, 0, 1], 5⟩, .null], 1, 2⟩

theorem clean_onePeer : onePeer.Clean := ⟨by decide, rfl, by decide⟩

end CodecExample

open PeerTableT.CodecExample in
theorem not_codecLaw_one : ¬ CodecLaw (fun _ _ => true) onePeer :=
  (not_codecLaw onePeer (fun _ _ => true) clean_onePeer (by decide) (by decide)).1

open PeerTableT.CodecExample in
/-- One peer is sent: two are counted. -/
theorem codecLaw_fails : ¬ ∀ (zero : ℕ → Realloc) (table : PeerTableT), table.Clean →
    (∀ p ∈ table.peers, IsPeer p) → table.peers ≠ [] → CodecLaw zero table := by
  intro h
  obtain ⟨buffer, newTable, hser, hdes, -, hclean⟩ :=
    h (fun _ _ => true) onePeer clean_onePeer (by decide) (by decide)
  have hser' := (deserialize_serialize (fun _ _ => true) clean_onePeer (by decide) (by decide)).1
  have hdes' := (deserialize_serialize (fun _ _ => true) clean_onePeer (by decide) (by decide)).2
  rw [hser] at hser'
  cases hser'
  rw [hdes] at hdes'
  cases hdes'
  exact absurd hclean.count_lt (by decide)

end PeerTableT

end DartSync
