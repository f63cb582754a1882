import DartSync.FileTable.Lookup
import DartSync.Queue.Memory

/-!
# Chunk numbers from the network

`filetable_get_peers_who_have_file_chunk` lets a chunk number through that is negative or equal to
the number of chunks, and `queue_get` takes it modulo the space of the ring. Here the queue of the
chunks is the ring in memory, so that such a number leads to a cell: to another chunk, to memory that
was never written, or in front of the block. `checksChunk_iff` says when the lookup is right all the
same. Where the lists of `FileTable` give an answer the rings give the same one (`Stands`).
-/

namespace DartSync

open Ring

/-! ## Rings read at any index -/

namespace Queue

variable {α : Type} {r : Queue α} {i : ℕ}

/-- The index that `queue_get` computes, with the `%` of C. -/
def place (r : Queue α) (index : ℤ) : ℤ := (index + r.tail).tmod r.space

/-- `queue_get` at any `int`. -/
def getAt (r : Queue α) (index : ℤ) : Except Abort α :=
  if r.place index < 0 then .error .outOfBounds else .ok (r.elements (r.place index).toNat)

theorem place_natCast (r : Queue α) (i : ℕ) : r.place i = ((i + r.tail) % r.space : ℕ) := rfl

theorem getAt_natCast (r : Queue α) (i : ℕ) : r.getAt i = .ok (r.queueGet i) := by
  unfold getAt
  rw [place_natCast, if_neg (by omega), Int.toNat_natCast]
  rfl

end Queue

/-- It is what the code does in memory. -/
theorem QueueMem.Represents.queueGet_int {α : Type} {q : QueueMem α} {r : Queue α} (h : q.Represents r)
    (index : ℤ) : q.queueGet index = r.getAt index := by
  have hpos : (0 : ℤ) < r.space := by
    have := r.tail_lt
    omega
  show readCell q.elements ((index + q.tail).tmod q.space) = r.getAt index
  rw [h.tail_eq, h.space_eq]
  show readCell q.elements (r.place index) = _
  unfold Queue.getAt
  by_cases hneg : r.place index < 0
  · rw [if_pos hneg]
    exact if_pos hneg
  · obtain ⟨i, hi⟩ := Int.eq_ofNat_of_zero_le (not_lt.mp hneg)
    have hlt : r.place index < r.space := Int.tmod_lt_of_pos _ hpos
    rw [if_neg hneg, hi, Int.toNat_natCast]
    exact h.block.readCell (by omega)

/-! ## The queue of the chunks -/

/-- A cell in the ring of the chunks: NULL, a queue of owners, or what was in memory before. No queue
is in two cells in use, so that one changes with its cell. -/
inductive OwnersCell
  | null
  | owners (peers : List ℤ)
  | wild
  deriving DecidableEq

/-- The owners in a cell. -/
def OwnersCell.peers : OwnersCell → List ℤ
  | .owners peers => peers
  | _ => []

/-- What a lookup is to return. -/
def asCell : Option (List ℤ) → OwnersCell
  | none => .null
  | some peers => .owners peers

/-- The `chunks` of a `FileTableEntry`. Each cell in use holds a queue. -/
structure ChunkQueue where
  ring : Queue OwnersCell
  inUse : ∀ cell ∈ ring.toList, ∃ peers, cell = .owners peers

namespace ChunkQueue

variable {q : ChunkQueue} {i : ℕ} {index : ℤ} {peers : List ℤ} {fresh : ℕ → OwnersCell}

/-- The owners of each chunk. -/
def owners (q : ChunkQueue) : List (List ℤ) := q.ring.toList.map OwnersCell.peers

@[simp] theorem length_owners : q.owners.length = q.ring.length := by
  unfold owners
  rw [List.length_map, Queue.length_toList]

/-- A chunk of the file is found. -/
theorem getAt_of_getElem? (h : q.owners[i]? = some peers) : q.ring.getAt i = .ok (.owners peers) := by
  unfold owners at h
  rw [List.getElem?_map] at h
  obtain ⟨cell, hcell, rfl⟩ := Option.map_eq_some_iff.mp h
  obtain ⟨peers, rfl⟩ := q.inUse cell (List.mem_of_getElem? hcell)
  rw [Queue.getElem?_toList] at hcell
  split_ifs at hcell
  rw [Queue.getAt_natCast, Option.some.inj hcell]
  rfl

/-- The cell at an index gets other owners, through the pointer that `queue_get` returns. -/
def setOwners (q : ChunkQueue) (index : ℤ) (peers : List ℤ) : ChunkQueue where
  ring := { q.ring with
    elements := Function.update q.ring.elements (q.ring.place index).toNat (.owners peers) }
  inUse cell hcell := by
    obtain ⟨i, hi, rfl⟩ := List.mem_map.mp hcell
    have hi := List.mem_range.mp hi
    show ∃ ps, Function.update q.ring.elements _ (.owners peers) ((i + q.ring.tail) % q.ring.space) = _
    by_cases hplace : (i + q.ring.tail) % q.ring.space = (q.ring.place index).toNat
    · rw [hplace, Function.update_self]
      exact ⟨peers, rfl⟩
    · rw [Function.update_of_ne hplace]
      exact q.inUse _ (List.mem_map.mpr ⟨i, List.mem_range.mpr hi, rfl⟩)

theorem owners_setOwners (h : i < q.ring.length) :
    (q.setOwners i peers).owners = q.owners.set i peers := by
  show (q.ring.queueSet (.owners peers) i).toList.map OwnersCell.peers = _
  rw [Queue.toList_queueSet h, List.map_set]
  rfl

/-- `queue_push` of a new queue. -/
def push (q : ChunkQueue) (peers : List ℤ) (fresh : ℕ → OwnersCell) : ChunkQueue where
  ring := q.ring.queuePush (.owners peers) fresh
  inUse cell hcell := by
    rw [Queue.toList_queuePush] at hcell
    rcases List.mem_append.mp hcell with hcell | hcell
    · exact q.inUse cell hcell
    · exact ⟨peers, List.mem_singleton.mp hcell⟩

/-- The queue that `filetable_add_filesystem` makes for `n` chunks of a peer. -/
def newChunks (fresh : Malloc OwnersCell) (peer : ℤ) : ℕ → ChunkQueue
  | 0 => ⟨.queueNew (fresh initialQueueSpace), fun _ hcell => absurd hcell List.not_mem_nil⟩
  | n + 1 =>
    let chunks := newChunks fresh peer n
    chunks.push [peer] (fresh (chunks.ring.space * 2))

theorem owners_newChunks (fresh : Malloc OwnersCell) (peer : ℤ) (n : ℕ) :
    (newChunks fresh peer n).owners = List.replicate n [peer] := by
  induction n with
  | zero => rfl
  | succ n ih =>
    show ((newChunks fresh peer n).ring.queuePush _ _).toList.map _ = _
    rw [Queue.toList_queuePush, List.map_append, List.replicate_succ', ← ih]
    rfl

end ChunkQueue

/-! ## The table -/

/-- A `FileTableEntry` with its chunks in memory. -/
structure RingEntry where
  path : CString
  chunks : ChunkQueue

/-- `_FileTable` with such entries. -/
abbrev RingFileTable := HashTable RingEntry.path filetableentryHash

namespace RingFileTable

/-- `filetable_get_peers_who_have_file_chunk` -/
def filetableGetPeersWhoHaveFileChunk (ft : RingFileTable) (path : CString) (chunk : ℤ) :
    Except Abort OwnersCell :=
  match ft.hashtableGetElement path with
  | none => .ok .null
  | some fte => if fte.chunks.ring.length ≥ chunk then fte.chunks.ring.getAt chunk else .ok .null

/-- `filetable_set_that_peer_has_file_chunk` -/
def filetableSetThatPeerHasFileChunk (ft : RingFileTable) (path : CString) (peer chunkNum : ℤ) :
    Except Abort RingFileTable := do
  match ← filetableGetPeersWhoHaveFileChunk ft path chunkNum, ft.hashtableGetElement path with
  | .owners peers, some fte =>
    if peer ∈ peers then return ft
    else return ft.overwrite { fte with chunks := fte.chunks.setOwners chunkNum (peers ++ [peer]) }
  | .wild, _ => .error .uninitialized
  | _, _ => .error .chunkDoesNotExist

/-- The owners of a chunk, if there is such a chunk. -/
def ownersOf (ft : RingFileTable) (path : CString) (chunk : ℤ) : Option (List ℤ) :=
  (ft.hashtableGetElement path).bind fun fte =>
    if chunk < 0 then none else fte.chunks.owners[chunk.toNat]?

/-- The lookup returns the owners of the chunk or NULL, and no other chunk gets an owner. -/
structure ChecksChunk (ft : RingFileTable) (path : CString) (chunk : ℤ) : Prop where
  get : filetableGetPeersWhoHaveFileChunk ft path chunk = .ok (asCell (ownersOf ft path chunk))
  set : ∀ peer ft', filetableSetThatPeerHasFileChunk ft path peer chunk = .ok ft' →
    ∀ p c, (p, c) ≠ (path, chunk) → ownersOf ft' p c = ownersOf ft p c

/-- The index leads to a cell of the block that is NULL. -/
def LeadsToNull (q : ChunkQueue) (index : ℤ) : Prop :=
  0 ≤ q.ring.place index ∧ q.ring.elements (q.ring.place index).toNat = .null

variable {ft ft' : RingFileTable} {path p : CString} {chunk c peer : ℤ} {fte : RingEntry}
  {peers : List ℤ} {t t' : FileTable}

theorem hashtableGetElement_overwrite (h : ft.hashtableGetElement path = some fte) (chunks : ChunkQueue) :
    HashTable.hashtableGetElement (ft.overwrite { fte with chunks := chunks }) p =
      if p = path then some { fte with chunks := chunks } else ft.hashtableGetElement p := by
  rw [HashTable.hashtableGetElement_eq] at h ⊢
  rw [HashTable.elements_overwrite, HashTable.hashtableGetElement_eq]
  obtain rfl : fte.path = path := KeyedList.key_of_findKey h
  exact KeyedList.findKey_replaceKey rfl (KeyedList.mem_map_key_of_findKey h)

/-- The lookup for a chunk of the file. -/
theorem get_of_ownersOf (h : ownersOf ft path chunk = some peers) :
    filetableGetPeersWhoHaveFileChunk ft path chunk = .ok (.owners peers) := by
  obtain ⟨fte, hfte, howners⟩ := Option.bind_eq_some_iff.mp h
  split_ifs at howners with hneg
  obtain ⟨i, rfl⟩ := Int.eq_ofNat_of_zero_le (not_lt.mp hneg)
  rw [Int.toNat_natCast] at howners
  have hlt : i < fte.chunks.ring.length := by
    rw [← ChunkQueue.length_owners]
    exact (List.getElem?_eq_some_iff.mp howners).1
  unfold filetableGetPeersWhoHaveFileChunk
  rw [hfte]
  exact (if_pos (by omega)).trans (ChunkQueue.getAt_of_getElem? howners)

/-- The other chunks keep their owners. -/
theorem ownersOf_setOwners (hfte : ft.hashtableGetElement path = some fte)
    (h : ownersOf ft path chunk = some peers) (peers' : List ℤ) :
    ownersOf (ft.overwrite { fte with chunks := fte.chunks.setOwners chunk peers' }) p c =
      if (p, c) = (path, chunk) then some peers' else ownersOf ft p c := by
  unfold ownersOf at h ⊢
  rw [hfte, Option.bind_some] at h
  split_ifs at h with hneg
  obtain ⟨i, rfl⟩ := Int.eq_ofNat_of_zero_le (not_lt.mp hneg)
  rw [Int.toNat_natCast] at h
  have hlt : i < fte.chunks.owners.length := (List.getElem?_eq_some_iff.mp h).1
  have hlt' : i < fte.chunks.ring.length := by rwa [ChunkQueue.length_owners] at hlt
  rw [hashtableGetElement_overwrite hfte]
  by_cases hp : p = path
  · subst hp
    rw [if_pos rfl, hfte, Option.bind_some, Option.bind_some]
    by_cases hc : c < 0
    · rw [if_pos hc, if_pos hc, if_neg]
      intro heq
      have := (Prod.mk.inj heq).2
      omega
    · obtain ⟨k, rfl⟩ := Int.eq_ofNat_of_zero_le (not_lt.mp hc)
      rw [if_neg hc, if_neg hc, Int.toNat_natCast, ChunkQueue.owners_setOwners hlt', List.getElem?_set]
      by_cases hik : i = k
      · subst hik
        rw [if_pos rfl, if_pos rfl, if_pos hlt]
      · rw [if_neg hik, if_neg fun heq => hik (Int.ofNat_inj.mp (Prod.mk.inj heq).2).symm]
  · rw [if_neg hp, if_neg fun heq => hp (Prod.mk.inj heq).1]

/-- Where the lookup is right, an owner is added to the chunk named or to none. -/
theorem ownersOf_set (hget : filetableGetPeersWhoHaveFileChunk ft path chunk =
      .ok (asCell (ownersOf ft path chunk)))
    (h : filetableSetThatPeerHasFileChunk ft path peer chunk = .ok ft')
    (hne : (p, c) ≠ (path, chunk)) : ownersOf ft' p c = ownersOf ft p c := by
  unfold filetableSetThatPeerHasFileChunk at h
  obtain ⟨cell, hcell, h⟩ := bind_eq_ok.mp h
  obtain rfl := Except.ok.inj (hget.symm.trans hcell)
  cases howners : ownersOf ft path chunk with
  | none =>
    rw [howners] at h
    cases h
  | some peers =>
    obtain ⟨fte, hfte, -⟩ := Option.bind_eq_some_iff.mp howners
    rw [howners, hfte] at h
    dsimp only [asCell] at h
    split_ifs at h
    · cases h
      rfl
    · cases h
      rw [ownersOf_setOwners hfte howners, if_neg hne]

theorem ownersOf_eq_none (hfte : ft.hashtableGetElement path = some fte)
    (h : ¬ (0 ≤ chunk ∧ chunk < fte.chunks.ring.length)) : ownersOf ft path chunk = none := by
  unfold ownersOf
  rw [hfte, Option.bind_some]
  split_ifs with hneg
  · rfl
  · rw [List.getElem?_eq_none]
    rw [ChunkQueue.length_owners]
    omega

/-- **Chunk numbers.** The lookup is right, and no other chunk gets an owner, exactly when there is no
such path, the number is that of a chunk or greater than their number, or it leads to NULL. -/
theorem checksChunk_iff (ft : RingFileTable) (path : CString) (chunk : ℤ) :
    ChecksChunk ft path chunk ↔ ∀ fte, ft.hashtableGetElement path = some fte →
      (0 ≤ chunk ∧ chunk < fte.chunks.ring.length) ∨ fte.chunks.ring.length < chunk ∨
        LeadsToNull fte.chunks chunk := by
  constructor
  · intro h fte hfte
    by_cases hin : 0 ≤ chunk ∧ chunk < fte.chunks.ring.length
    · exact Or.inl hin
    by_cases hbig : fte.chunks.ring.length < chunk
    · exact Or.inr (Or.inl hbig)
    have hget := h.get
    unfold filetableGetPeersWhoHaveFileChunk at hget
    rw [ownersOf_eq_none hfte hin, hfte] at hget
    dsimp only [asCell] at hget
    rw [if_pos (by omega)] at hget
    unfold Queue.getAt at hget
    split_ifs at hget with hneg
    exact Or.inr (Or.inr ⟨not_lt.mp hneg, Except.ok.inj hget⟩)
  · intro h
    have hget : filetableGetPeersWhoHaveFileChunk ft path chunk =
        .ok (asCell (ownersOf ft path chunk)) := by
      cases howners : ownersOf ft path chunk with
      | some peers => exact get_of_ownersOf howners
      | none =>
        unfold filetableGetPeersWhoHaveFileChunk
        cases hfte : ft.hashtableGetElement path with
        | none => rfl
        | some fte =>
          dsimp only [asCell]
          obtain ⟨hpos, hlt⟩ | hbig | ⟨hpos, hnull⟩ := h fte hfte
          · unfold ownersOf at howners
            rw [hfte, Option.bind_some, if_neg (by omega), List.getElem?_eq_none_iff,
              ChunkQueue.length_owners] at howners
            omega
          · rw [if_neg (by omega)]
          · split_ifs
            · unfold Queue.getAt
              rw [if_neg (by omega), hnull]
            · rfl
    exact ⟨hget, fun peer ft' hset p c hne => ownersOf_set hget hset hne⟩

/-! ## Rings and lists -/

/-- The table stands for one whose entries hold lists of owners. -/
def Stands (ft : RingFileTable) (t : FileTable) : Prop :=
  ∀ p, (ft.hashtableGetElement p).map (fun fte => fte.chunks.owners) =
    (t.lookup p).map FileTableEntry.chunks

theorem Stands.ownersOf (h : Stands ft t) : ownersOf ft path chunk =
    (t.lookup path).bind fun e => if chunk < 0 then none else e.chunks[chunk.toNat]? := by
  have hpath := h path
  unfold RingFileTable.ownersOf
  cases hfte : ft.hashtableGetElement path with
  | none =>
    rw [hfte, Option.map_none, eq_comm, Option.map_eq_none_iff] at hpath
    rw [hpath]
    rfl
  | some fte =>
    rw [hfte, Option.map_some, eq_comm] at hpath
    obtain ⟨e, he, hchunks⟩ := Option.map_eq_some_iff.mp hpath
    rw [he, Option.bind_some, Option.bind_some, hchunks]

/-- Where the lookup in the lists returns, that in the rings returns the same. -/
theorem Stands.get {r : Option (List ℤ)} (h : Stands ft t)
    (hget : DartSync.filetableGetPeersWhoHaveFileChunk t path chunk = .ok r) :
    filetableGetPeersWhoHaveFileChunk ft path chunk = .ok (asCell r) := by
  have howners : RingFileTable.ownersOf ft path chunk = _ := h.ownersOf
  have hpath := h path
  unfold DartSync.filetableGetPeersWhoHaveFileChunk at hget
  cases he : t.lookup path with
  | none =>
    rw [he] at hget hpath
    cases hget
    rw [Option.map_none, Option.map_eq_none_iff] at hpath
    unfold filetableGetPeersWhoHaveFileChunk
    rw [hpath]
    rfl
  | some e =>
    rw [he] at hget hpath howners
    dsimp only at hget
    split_ifs at hget with hbig hneg
    · cases hget
      obtain ⟨fte, hfte, hchunks⟩ := Option.map_eq_some_iff.mp hpath
      have hlength := congrArg List.length hchunks
      rw [ChunkQueue.length_owners] at hlength
      unfold filetableGetPeersWhoHaveFileChunk
      rw [hfte]
      exact if_neg (by omega)
    · rw [Option.bind_some, if_neg hneg] at howners
      cases hchunk : e.chunks[chunk.toNat]? with
      | none =>
        rw [hchunk] at hget
        cases hget
      | some owners =>
        rw [hchunk] at hget howners
        cases hget
        exact get_of_ownersOf howners

/-- Where a peer is added in the lists, it is added in the rings, and these stand for those. -/
theorem Stands.set (h : Stands ft t)
    (hset : DartSync.filetableSetThatPeerHasFileChunk t path peer chunk = .ok t') :
    ∃ ft', filetableSetThatPeerHasFileChunk ft path peer chunk = .ok ft' ∧ Stands ft' t' := by
  obtain ⟨e, owners, he, hneg, hchunk, rfl⟩ := filetableSetThatPeerHasFileChunk_ok hset
  have howners : RingFileTable.ownersOf ft path chunk = some owners := by
    rw [h.ownersOf, he, Option.bind_some, if_neg (by omega), hchunk]
  obtain ⟨fte, hfte, hchunks⟩ := Option.map_eq_some_iff.mp ((h path).trans (congrArg _ he))
  unfold filetableSetThatPeerHasFileChunk
  rw [get_of_ownersOf howners, hfte]
  by_cases hpeer : peer ∈ owners
  · refine ⟨ft, ?_, ?_⟩
    · exact if_pos hpeer
    · rw [if_pos hpeer]
      exact h
  · refine ⟨_, if_neg hpeer, fun p => ?_⟩
    obtain ⟨i, rfl⟩ := Int.eq_ofNat_of_zero_le hneg
    rw [Int.toNat_natCast] at hchunk ⊢
    have hlt : i < fte.chunks.ring.length := by
      rw [← ChunkQueue.length_owners, hchunks]
      exact (List.getElem?_eq_some_iff.mp hchunk).1
    rw [if_neg hpeer, hashtableGetElement_overwrite hfte, FileTable.lookup_overwrite_of_lookup he]
    · by_cases hp : p = path
      · rw [if_pos hp, if_pos hp, Option.map_some, Option.map_some, ChunkQueue.owners_setOwners hlt,
          hchunks]
      · rw [if_neg hp, if_neg hp]
        exact h p
    · show e.path = path
      exact FileTable.path_of_lookup he

/-- A new entry with its chunks in memory. -/
theorem owners_newChunks_eq (fresh : Malloc OwnersCell) (item : IteratorItem) (peer : ℤ)
    (workQueue : List ℤ) : (ChunkQueue.newChunks fresh peer (numChunksForSize item.length).toNat).owners =
      (newEntry item peer workQueue).chunks := by
  rw [ChunkQueue.owners_newChunks]
  unfold newEntry chunkNumbers
  rw [eq_comm, List.eq_replicate_iff]
  refine ⟨by simp, fun owners howners => ?_⟩
  obtain ⟨c, -, rfl⟩ := List.mem_map.mp howners
  rfl

/-! ## The first number that is too large -/

/-- Ten chunks of peer 1. They fill their ring. -/
def tenChunks : ChunkQueue := ChunkQueue.newChunks (fun _ _ => .wild) 1 10

/-- A table with a file `y` of ten chunks. -/
def tenChunkTable : RingFileTable :=
  (HashTable.hashtableNew _ _).hashtableAdd ⟨.ofBytes [47, 121], tenChunks⟩

theorem hashtableGetElement_tenChunkTable :
    tenChunkTable.hashtableGetElement (.ofBytes [47, 121]) = some ⟨.ofBytes [47, 121], tenChunks⟩ := by
  have helements : tenChunkTable.elements = [⟨.ofBytes [47, 121], tenChunks⟩] := by
    refine List.perm_singleton.mp ?_
    unfold tenChunkTable
    refine HashTable.elements_hashtableAdd.trans ?_
    rw [HashTable.elements_hashtableNew]
  rw [HashTable.hashtableGetElement_eq, helements, KeyedList.findKey_cons, if_pos rfl]

/-- Chunk 10 is taken for chunk 0, and peer 2 becomes an owner of that. -/
theorem not_checksChunk_tenChunkTable : ¬ ChecksChunk tenChunkTable (.ofBytes [47, 121]) 10 ∧
    ∃ ft', filetableSetThatPeerHasFileChunk tenChunkTable (.ofBytes [47, 121]) 2 10 = .ok ft' ∧
      ownersOf ft' (.ofBytes [47, 121]) 0 = some [1, 2] := by
  have hft := hashtableGetElement_tenChunkTable
  have hget : filetableGetPeersWhoHaveFileChunk tenChunkTable (.ofBytes [47, 121]) 10 =
      .ok (.owners [1]) := by
    unfold filetableGetPeersWhoHaveFileChunk
    rw [hft]
    rfl
  constructor
  · intro h
    have hnone : ownersOf tenChunkTable (.ofBytes [47, 121]) 10 = none := ownersOf_eq_none hft (by decide)
    have := h.get
    rw [hget, hnone] at this
    cases this
  · refine ⟨tenChunkTable.overwrite ⟨.ofBytes [47, 121], tenChunks.setOwners 10 [1, 2]⟩, ?_, ?_⟩
    · unfold filetableSetThatPeerHasFileChunk
      rw [hget, hft]
      rfl
    · unfold ownersOf
      rw [hashtableGetElement_overwrite hft, if_pos rfl]
      rfl

end RingFileTable

end DartSync
