import DartSync.FileTable.Entries
import DartSync.HashTable.Iterator
import DartSync.Serial

/-!
# File tables as bytes

A table is written entry by entry in the order of an iterator, each entry as its path and its
chunks, each chunk as the ids of its owners in decimal. The decoder goes over the bytes with three
registers, for the table, the entry and the chunk under construction, and adds an entry to the table
where it ends. The entries are added in the order in which they were written, which gives back every
list of the hash table (`HashTable.foldl_hashtableAdd_elements`).
-/

namespace DartSync

open Decimal HashTable

/-- `START_TABLE` -/
def startTable : UInt8 := 0xFF

/-- `START_ENTRY` -/
def startEntry : UInt8 := 0xFE

/-- `START_CHUNK` -/
def startChunk : UInt8 := 0xFC

/-- `START_ID` -/
def startId : UInt8 := 0xFB

/-- `END_CHUNK` -/
def endChunk : UInt8 := 0xFA

/-- `END_ENTRY` -/
def endEntry : UInt8 := 0xF8

/-- `END_TABLE` -/
def endTable : UInt8 := 0xF7

/-! ## Writing -/

/-- `sprintf` with `"%d"` into `buf`. -/
def sprintfId (peer : Int32) : CString := ⟨ofInt peer.toInt, notMem_ofInt⟩

/-- What `filetable_serialize` pushes for an owner. -/
def serializeId (peer : ℤ) : List UInt8 := startId :: pushString (sprintfId (.ofInt peer))

/-- What it pushes for a chunk. -/
def serializeChunk (chunk : List ℤ) : List UInt8 :=
  startChunk :: (chunk.flatMap serializeId ++ [endChunk])

/-- What it pushes for an entry. -/
def serializeEntry (entry : FileTableEntry) : List UInt8 :=
  startEntry :: (pushString entry.path ++ (entry.chunks.flatMap serializeChunk ++ [endEntry]))

/-- `filetable_serialize` -/
def filetableSerialize (ft : FileTable) : List UInt8 :=
  startTable :: (ft.entries.flatMap serializeEntry ++ [endTable])

/-! ## Reading -/

/-- A register of the decoder: a pointer that is NULL, or to an object that nothing else points to,
or to one that has been put into another object. -/
inductive Register (α : Type)
  | null
  | own (object : α)
  | handedOver

/-- The object of a register, to be used. -/
def Register.get {α : Type} : Register α → Except Abort α
  | null => .error .nullPointer
  | own object => .ok object
  | handedOver => .error .notFollowed

/-- The object of a register, to be put into a queue. -/
def Register.handOver {α : Type} : Register α → Except Abort α
  | own object => .ok object
  | _ => .error .notFollowed

/-- `deser`, `entry` and `chunk` of `filetable_deserialize`. -/
structure Registers where
  deser : Register (HashTable FileTableEntry.path filetableentryHash)
  entry : Register FileTableEntry
  chunk : Register (List ℤ)

/-- `sscanf` with `"%d%n"`: the id, and the cursor behind it and one more byte. -/
def deserializeId (data : List UInt8) : Except Abort (ℤ × List UInt8) :=
  if 0 ∈ data then
    match scan (CString.ofBytes data).bytes with
    | none => .error .uninitialized
    | some (minus, n, rest) =>
      let numRead := (CString.ofBytes data).length - rest.length
      .ok ((strtol minus n).toInt32.toInt, data.drop (numRead + 1))
  else .error .outOfBounds

/-- The loop of `filetable_deserialize`: the table, and the bytes that are not read. Every round
reads a byte, so with more fuel than bytes it never runs out. -/
def deserializeEntries : ℕ → Registers → List UInt8 →
    Except Abort (HashTable FileTableEntry.path filetableentryHash × List UInt8)
  | 0, _, _ => .error .diverges
  | _ + 1, _, [] => .error .outOfBounds
  | fuel + 1, r, b :: data =>
    if b = startTable then
      deserializeEntries fuel { r with deser := .own filetableNew.table } data
    else if b = startEntry then do
      let (path, data) ← readString data
      deserializeEntries fuel { r with entry := .own ⟨path, none, [], [], []⟩ } data
    else if b = startChunk then
      deserializeEntries fuel { r with chunk := .own [] } data
    else if b = startId then do
      let (peer, data) ← deserializeId data
      let chunk ← r.chunk.get
      deserializeEntries fuel { r with chunk := .own (chunk ++ [peer]) } data
    else if b = endChunk then do
      let entry ← r.entry.get
      let chunk ← r.chunk.handOver
      let entry := { entry with chunks := entry.chunks ++ [chunk] }
      deserializeEntries fuel { r with entry := .own entry, chunk := .handedOver } data
    else if b = endEntry then do
      let deser ← r.deser.get
      let entry ← r.entry.get
      deserializeEntries fuel
        { r with deser := .own (deser.hashtableAdd entry), entry := .handedOver } data
    else if b = endTable then do
      let deser ← r.deser.get
      pure (deser, data)
    else .error .filetableDeserialize

/-- `filetable_deserialize`: the table and `bytesRead`. -/
def filetableDeserialize (data : List UInt8) :
    Except Abort (HashTable FileTableEntry.path filetableentryHash × ℕ) := do
  match data.head? with
  | none => .error .outOfBounds
  | some b => if b ≠ startTable then .error .filetableDeserialize
  let (deser, rest) ← deserializeEntries (data.length + 1) ⟨.null, .null, .null⟩ data
  pure (deser, data.length - rest.length)

/-! ## One entry -/

variable {ft : FileTable} {entry e : FileTableEntry} {r r₁ r₂ : Registers} {bytes bytes₁ rest : List UInt8}
  {table : HashTable FileTableEntry.path filetableentryHash}
  {chunk ids : List ℤ} {chunks : List (List ℤ)} {entries : List FileTableEntry}

/-- The decoder takes the bytes and goes on with other registers, after at most one round a byte. -/
def Takes (bytes : List UInt8) (r r₁ : Registers) : Prop :=
  ∀ fuel data, bytes.length ≤ fuel → ∃ fuel₁, fuel ≤ fuel₁ + bytes.length ∧
    deserializeEntries fuel r (bytes ++ data) = deserializeEntries fuel₁ r₁ data

theorem Takes.nil : Takes [] r r := fun fuel _ _ => ⟨fuel, le_rfl, rfl⟩

theorem Takes.append (h : Takes bytes r r₁) (h₁ : Takes bytes₁ r₁ r₂) :
    Takes (bytes ++ bytes₁) r r₂ := by
  intro fuel data hfuel
  rw [List.length_append] at hfuel ⊢
  obtain ⟨fuel₁, hle, heq⟩ := h fuel (bytes₁ ++ data) (by omega)
  obtain ⟨fuel₂, hle₁, heq₁⟩ := h₁ fuel₁ data (by omega)
  exact ⟨fuel₂, by omega, by rw [List.append_assoc, heq, heq₁]⟩

/-- One round. -/
theorem Takes.round (hpos : 0 < bytes.length) (h : ∀ fuel data,
    deserializeEntries (fuel + 1) r (bytes ++ data) = deserializeEntries fuel r₁ data) :
    Takes bytes r r₁ := by
  intro fuel data hfuel
  obtain ⟨fuel, rfl⟩ := Nat.exists_eq_add_one_of_ne_zero (Nat.ne_of_gt (hpos.trans_le hfuel))
  exact ⟨fuel, by omega, h fuel data⟩

/-- The id is an `int`. -/
def IsInt (peer : ℤ) : Prop := (Int32.ofInt peer).toInt = peer

instance : DecidablePred IsInt := fun peer => inferInstanceAs (Decidable (_ = peer))

theorem deserializeId_append {peer : Int32} :
    deserializeId (pushString (sprintfId peer) ++ rest) = .ok (peer.toInt, rest) := by
  have hscan : scan (sprintfId peer).bytes = some (decide (peer.toInt < 0), peer.toInt.natAbs, []) := by
    have hscan := scan_ofInt (i := peer.toInt) ends_nil
    rwa [List.append_nil] at hscan
  unfold deserializeId
  rw [if_pos zero_mem_pushString, ofBytes_pushString, hscan]
  show Except.ok (_, List.drop _ _) = _
  rw [strtol_ofInt32, List.length_nil, Nat.sub_zero, List.drop_left' length_pushString]

theorem takes_id (r : Registers) (chunk : List ℤ) {peer : ℤ} (hpeer : IsInt peer) :
    Takes (serializeId peer) { r with chunk := .own chunk } { r with chunk := .own (chunk ++ [peer]) } := by
  refine Takes.round (Nat.succ_pos _) fun fuel data => ?_
  rw [serializeId, List.cons_append]
  show (deserializeId (pushString _ ++ data) >>= _) = _
  rw [deserializeId_append, hpeer]
  rfl

theorem takes_ids (r : Registers) (chunk : List ℤ) (hids : ∀ peer ∈ ids, IsInt peer) :
    Takes (ids.flatMap serializeId) { r with chunk := .own chunk }
      { r with chunk := .own (chunk ++ ids) } := by
  induction ids generalizing chunk with
  | nil =>
    rw [List.append_nil]
    exact Takes.nil
  | cons peer ids ih =>
    have hfirst := takes_id r chunk (hids peer List.mem_cons_self)
    have hrest := ih (chunk ++ [peer]) fun p hp => hids p (List.mem_cons_of_mem _ hp)
    rw [List.append_assoc, List.singleton_append] at hrest
    exact hfirst.append hrest

/-- A chunk goes to the end of the chunks of the entry. -/
theorem takes_chunk (r : Registers) (entry : FileTableEntry) (hids : ∀ peer ∈ chunk, IsInt peer) :
    Takes (serializeChunk chunk) { r with entry := .own entry }
      { r with entry := .own { entry with chunks := entry.chunks ++ [chunk] }, chunk := .handedOver } := by
  have hstart : Takes [startChunk] { r with entry := .own entry }
      { r with entry := .own entry, chunk := .own [] } :=
    Takes.round Nat.one_pos fun _ _ => rfl
  have hend : Takes [endChunk] { r with entry := .own entry, chunk := .own chunk }
      { r with entry := .own { entry with chunks := entry.chunks ++ [chunk] },
               chunk := .handedOver } :=
    Takes.round Nat.one_pos fun _ _ => rfl
  have hids := takes_ids { r with entry := .own entry } [] hids
  exact hstart.append (hids.append hend)

theorem takes_chunks (r : Registers) (entry : FileTableEntry)
    (hids : ∀ chunk ∈ chunks, ∀ peer ∈ chunk, IsInt peer) :
    ∃ last, Takes (chunks.flatMap serializeChunk) { r with entry := .own entry }
      { r with entry := .own { entry with chunks := entry.chunks ++ chunks }, chunk := last } := by
  induction chunks generalizing entry r with
  | nil =>
    refine ⟨r.chunk, ?_⟩
    rw [List.append_nil]
    exact Takes.nil
  | cons chunk chunks ih =>
    have hfirst := takes_chunk r entry (hids chunk List.mem_cons_self)
    obtain ⟨last, hrest⟩ := ih { r with chunk := .handedOver }
      { entry with chunks := entry.chunks ++ [chunk] }
      fun c hc => hids c (List.mem_cons_of_mem _ hc)
    refine ⟨last, ?_⟩
    have happend := hfirst.append hrest
    rwa [List.append_assoc, List.singleton_append] at happend

/-- What is written of an entry: its path and its chunks. -/
def FileTableEntry.bare (entry : FileTableEntry) : FileTableEntry :=
  { entry with file := none, workQueue := [], outstandingRequests := [] }

@[simp] theorem FileTableEntry.path_bare (entry : FileTableEntry) : entry.bare.path = entry.path :=
  rfl

/-- The owners of all chunks are `int`s. -/
def FileTableEntry.IntIds (entry : FileTableEntry) : Prop :=
  ∀ chunk ∈ entry.chunks, ∀ peer ∈ chunk, IsInt peer

/-- An entry is added to the table. -/
theorem takes_entry (r : Registers) (table : HashTable FileTableEntry.path filetableentryHash)
    (hids : entry.IntIds) : ∃ last last₁, Takes (serializeEntry entry) { r with deser := .own table }
      { r with deser := .own (table.hashtableAdd entry.bare), entry := last, chunk := last₁ } := by
  have hstart : Takes (startEntry :: pushString entry.path) { r with deser := .own table }
      { r with deser := .own table, entry := .own ⟨entry.path, none, [], [], []⟩ } :=
    Takes.round (Nat.succ_pos _) fun fuel data => by
      rw [List.cons_append]
      show (readString (pushString _ ++ data) >>= _) = _
      rw [readString_pushString]
      rfl
  obtain ⟨last, hchunks⟩ := takes_chunks { r with deser := .own table }
    ⟨entry.path, none, [], [], []⟩ hids
  have hend : Takes [endEntry] { r with deser := .own table, entry := .own entry.bare, chunk := last }
      { r with deser := .own (table.hashtableAdd entry.bare), entry := .handedOver, chunk := last } :=
    Takes.round Nat.one_pos fun _ _ => rfl
  exact ⟨.handedOver, last, hstart.append (hchunks.append hend)⟩

/-! ## Tables -/

theorem takes_entries (r : Registers) (table : HashTable FileTableEntry.path filetableentryHash)
    (hids : ∀ entry ∈ entries, entry.IntIds) :
    ∃ last last₁, Takes (entries.flatMap serializeEntry) { r with deser := .own table }
      { r with deser := .own ((entries.map FileTableEntry.bare).foldl hashtableAdd table),
               entry := last, chunk := last₁ } := by
  induction entries generalizing table r with
  | nil => exact ⟨r.entry, r.chunk, Takes.nil⟩
  | cons entry entries ih =>
    obtain ⟨last, last₁, hfirst⟩ := takes_entry r table
      (hids entry List.mem_cons_self)
    obtain ⟨last₂, last₃, hrest⟩ := ih { r with entry := last, chunk := last₁ }
      (table.hashtableAdd entry.bare) fun e he => hids e (List.mem_cons_of_mem _ he)
    exact ⟨last₂, last₃, hfirst.append hrest⟩

/-- The table of what is written of the entries. -/
def FileTable.bare (ft : FileTable) : FileTable where
  table := ft.table.map FileTableEntry.bare FileTableEntry.path_bare
  unique := by
    rw [elements_map, List.map_map]
    exact ft.unique

theorem FileTable.entries_bare : ft.bare.entries = ft.entries.map FileTableEntry.bare :=
  elements_map FileTableEntry.path_bare

theorem FileTable.lookup_bare {path : CString} :
    ft.bare.lookup path = (ft.lookup path).map FileTableEntry.bare := by
  rw [lookup_eq, lookup_eq, FileTable.entries_bare]
  exact KeyedList.findKey_map FileTableEntry.path_bare

theorem filetableSerialize_bare : filetableSerialize ft.bare = filetableSerialize ft := by
  unfold filetableSerialize
  rw [FileTable.entries_bare, List.flatMap_map]
  rfl

/-- The decoder reads the table of what was written, and stops where it ends. -/
theorem filetableDeserialize_append (hids : ∀ entry ∈ ft.entries, entry.IntIds) :
    filetableDeserialize (filetableSerialize ft ++ rest) =
      .ok (ft.bare.table, (filetableSerialize ft).length) := by
  obtain ⟨last, last₁, hentries⟩ := takes_entries ⟨.null, .null, .null⟩ filetableNew.table hids
  have hstart : Takes [startTable] ⟨.null, .null, .null⟩ ⟨.own filetableNew.table, .null, .null⟩ :=
    Takes.round Nat.one_pos fun _ _ => rfl
  obtain ⟨fuel, hfuel, heq⟩ := hstart.append hentries
    ((filetableSerialize ft ++ rest).length + 1) ([endTable] ++ rest) (by
      simp only [filetableSerialize, List.length_append, List.length_cons]
      omega)
  have hrebuild : (ft.entries.map FileTableEntry.bare).foldl hashtableAdd filetableNew.table =
      ft.bare.table := by
    rw [← FileTable.entries_bare]
    exact foldl_hashtableAdd_elements ft.bare.table
  have hend : deserializeEntries fuel
      ⟨.own ft.bare.table, last, last₁⟩ ([endTable] ++ rest) = .ok (ft.bare.table, rest) := by
    obtain ⟨fuel, rfl⟩ : ∃ k, fuel = k + 1 := by
      simp only [filetableSerialize, List.length_append, List.length_cons] at hfuel
      exact ⟨fuel - 1, by simp only [List.length_nil] at hfuel; omega⟩
    rfl
  have hbytes : [startTable] ++ ft.entries.flatMap serializeEntry ++ ([endTable] ++ rest) =
      filetableSerialize ft ++ rest := by
    unfold filetableSerialize
    simp
  rw [hbytes, hrebuild, hend] at heq
  unfold filetableDeserialize
  show (deserializeEntries _ _ _ >>= _) = _
  rw [heq]
  show Except.ok (_, _ - _) = _
  rw [List.length_append, Nat.add_sub_cancel]

/-- **File tables on the wire.** A table is read back with the same paths, chunks and owners, no file
and empty queues; all bytes written are read and no others, and the table that was read is written as
the same bytes. -/
theorem filetable_roundTrip (hids : ∀ entry ∈ ft.entries, entry.IntIds) :
    ∃ ft' : FileTable,
      filetableDeserialize (filetableSerialize ft ++ rest) =
        .ok (ft'.table, (filetableSerialize ft).length) ∧
      (∀ path, ft'.lookup path = (ft.lookup path).map fun entry =>
        { entry with file := none, workQueue := [], outstandingRequests := [] }) ∧
      filetableSerialize ft' = filetableSerialize ft :=
  ⟨ft.bare, filetableDeserialize_append hids, fun _ => FileTable.lookup_bare,
    filetableSerialize_bare⟩

instance : DecidablePred FileTableEntry.IntIds := fun entry =>
  inferInstanceAs (Decidable (∀ chunk ∈ entry.chunks, _))

namespace CodecExample

/-- The table of peer -3 with an empty file and a file whose name is made of markers. -/
def markers : FileTable :=
  (filetableAddFilesystem filetableNew
    ⟨.empty, [⟨.ofBytes [97], 0, 1, 0⟩, ⟨.ofBytes [0xFE, 0xFB, 0xF7], 1, 2, 0⟩], []⟩ (-3) false
    fun _ => 0).1

end CodecExample

open CodecExample

theorem filetable_roundTrip_markers : ∃ ft' : FileTable,
    filetableDeserialize (filetableSerialize markers ++ [0xFE]) =
      .ok (ft'.table, (filetableSerialize markers).length) ∧
    (∀ path, ft'.lookup path = (markers.lookup path).map fun entry =>
      { entry with file := none, workQueue := [], outstandingRequests := [] }) ∧
    filetableSerialize ft' = filetableSerialize markers :=
  filetable_roundTrip (by decide +kernel)

end DartSync
