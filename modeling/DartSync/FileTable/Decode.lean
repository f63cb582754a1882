import DartSync.FileTable.Codec

/-!
# What the decoder of file tables reads

`filetable_deserialize` with its pointers. An entry and a chunk can be put somewhere and then be used
again, or be put somewhere twice, so the table points to entries and these to chunks
(`DecoderMemory`). The bytes that are read to the end are a grammar (`IsTable`): on them the decoder
returns and leaves what is behind them, and on any other bytes it leaves the buffer, follows NULL, takes
a number that it has not read, or fails an assertion (`returnsInside_filetableDecode`).
-/

namespace DartSync

open Decimal HashTable

/-- A pointer to an entry, with the path of the entry, which stays as it is. -/
structure EntryPointer where
  path : CString
  place : ℕ

/-- What the decoder sets of a `FileTableEntry`: its other fields stay NULL or empty. The chunks are
pointers to queues. -/
structure DecodedEntry where
  path : CString
  chunks : List (Option ℕ)

/-- The chunks and the entries that `filetable_deserialize` has made, and its three pointers. -/
structure DecoderMemory where
  queues : List (List ℤ)
  entries : List DecodedEntry
  deser : Option (HashTable EntryPointer.path filetableentryHash)
  entry : Option ℕ
  chunk : Option ℕ

namespace DecoderMemory

/-- The case `START_ENTRY` -/
def newEntry (m : DecoderMemory) (path : CString) : DecoderMemory :=
  { m with entries := m.entries ++ [⟨path, []⟩], entry := some m.entries.length }

/-- The case `START_CHUNK` -/
def newChunk (m : DecoderMemory) : DecoderMemory :=
  { m with queues := m.queues ++ [[]], chunk := some m.queues.length }

/-- `queue_push(chunk, peer)` -/
def pushId (m : DecoderMemory) (peer : ℤ) : Except Abort DecoderMemory :=
  match m.chunk with
  | none => .error .nullPointer
  | some c => do
    let chunk ← readCell m.queues c
    let queues ← writeCell m.queues c (chunk ++ [peer])
    return { m with queues := queues }

/-- `queue_push(entry->chunks, chunk)` -/
def pushChunk (m : DecoderMemory) : Except Abort DecoderMemory :=
  match m.entry with
  | none => .error .nullPointer
  | some e => do
    let entry ← readCell m.entries e
    let entries ← writeCell m.entries e { entry with chunks := entry.chunks ++ [m.chunk] }
    return { m with entries := entries }

/-- `hashtable_add(deser->table, entry)` -/
def addEntry (m : DecoderMemory) : Except Abort DecoderMemory :=
  match m.deser, m.entry with
  | some deser, some e => do
    let entry ← readCell m.entries e
    return { m with deser := some (deser.hashtableAdd ⟨entry.path, e⟩) }
  | _, _ => .error .nullPointer

end DecoderMemory

/-- The loop of `filetable_deserialize`. -/
def decodeEntries : ℕ → DecoderMemory → List UInt8 → Except Abort (DecoderMemory × List UInt8)
  | 0, _, _ => .error .diverges
  | _ + 1, _, [] => .error .outOfBounds
  | fuel + 1, m, b :: data =>
    if b = startTable then decodeEntries fuel { m with deser := some (hashtableNew _ _) } data
    else if b = startEntry then do
      let (path, data) ← readString data
      decodeEntries fuel (m.newEntry path) data
    else if b = startChunk then decodeEntries fuel m.newChunk data
    else if b = startId then do
      let (peer, data) ← deserializeId data
      let m ← m.pushId peer
      decodeEntries fuel m data
    else if b = endChunk then do
      let m ← m.pushChunk
      decodeEntries fuel m data
    else if b = endEntry then do
      let m ← m.addEntry
      decodeEntries fuel m data
    else if b = endTable then .ok (m, data)
    else .error .filetableDeserialize

/-- `filetable_deserialize`: the table in memory and `bytesRead`. -/
def filetableDecode (data : List UInt8) : Except Abort (DecoderMemory × ℕ) := do
  match data.head? with
  | none => .error .outOfBounds
  | some b => if b ≠ startTable then .error .filetableDeserialize
  let (m, rest) ← decodeEntries (data.length + 1) ⟨[], [], none, none, none⟩ data
  pure (m, data.length - rest.length)

/-! ## The bytes of a table -/

/-- A number and the byte behind it; a NUL has to follow, for `sscanf`. -/
def IsId (data rest : List UInt8) : Prop :=
  ∃ number b, IsNumber number ∧ isDigit b = false ∧ 0 ∈ b :: rest ∧ data = number ++ b :: rest

/-- What is in a table, up to its end, where an entry (a chunk) has been started before, or not. An id
needs a chunk, and the end of a chunk or of an entry needs an entry. -/
inductive IsEntries : Bool → Bool → List UInt8 → List UInt8 → Prop
  | ended {entry chunk : Bool} (rest : List UInt8) : IsEntries entry chunk (endTable :: rest) rest
  | table {entry chunk : Bool} {data rest : List UInt8} :
      IsEntries entry chunk data rest → IsEntries entry chunk (startTable :: data) rest
  | entry {entry chunk : Bool} (path : CString) {data rest : List UInt8} :
      IsEntries true chunk data rest → IsEntries entry chunk (startEntry :: (pushString path ++ data)) rest
  | chunk {entry chunk : Bool} {data rest : List UInt8} :
      IsEntries entry true data rest → IsEntries entry chunk (startChunk :: data) rest
  | id {entry : Bool} {data mid rest : List UInt8} :
      IsId data mid → IsEntries entry true mid rest → IsEntries entry true (startId :: data) rest
  | endChunk {chunk : Bool} {data rest : List UInt8} :
      IsEntries true chunk data rest → IsEntries true chunk (endChunk :: data) rest
  | endEntry {chunk : Bool} {data rest : List UInt8} :
      IsEntries true chunk data rest → IsEntries true chunk (endEntry :: data) rest

/-- A table begins with its marker. -/
def IsTable (data rest : List UInt8) : Prop :=
  ∃ contents, data = startTable :: contents ∧ IsEntries false false contents rest

variable {data rest : List UInt8} {fuel : ℕ} {m m' : DecoderMemory} {peer : ℤ}

theorem deserializeId_isOk : (∃ peer, deserializeId data = .ok (peer, rest)) ↔ IsId data rest := by
  constructor
  · rintro ⟨peer, h⟩
    unfold deserializeId at h
    split_ifs at h with hmem
    cases hscan : scan (CString.ofBytes data).bytes with
    | none => rw [hscan] at h; cases h
    | some r =>
      obtain ⟨minus, n, text⟩ := r
      rw [hscan] at h
      cases h
      obtain ⟨number, hnumber, hends, htext⟩ := scan_isSome_iff.mp ⟨_, _, hscan⟩
      have hlen : (CString.ofBytes data).length - text.length = number.length := by
        unfold CString.length
        rw [htext, List.length_append, Nat.add_sub_cancel]
      obtain ⟨b, hb, hsplit⟩ := (ofBytes_eq_append_iff hnumber.notMem hmem).mp
        ⟨text, htext, hends, by rw [← hlen]⟩
      refine ⟨number, b, hnumber, hb, ?_, hsplit⟩
      rw [hsplit] at hmem
      exact (List.mem_append.mp hmem).resolve_left hnumber.notMem
  · rintro ⟨number, b, hnumber, hb, hmem, rfl⟩
    have hmem : 0 ∈ number ++ b :: rest := List.mem_append_right _ hmem
    obtain ⟨text, htext, hends, hrest⟩ := (ofBytes_eq_append_iff hnumber.notMem hmem).mpr
      ⟨b, hb, rfl⟩
    obtain ⟨minus, n, hscan⟩ := scan_isSome_iff.mpr ⟨number, hnumber, hends, htext⟩
    have hlen : (CString.ofBytes (number ++ b :: rest)).length - text.length = number.length := by
      unfold CString.length
      rw [htext, List.length_append, Nat.add_sub_cancel]
    refine ⟨(strtol minus n).toInt32.toInt, ?_⟩
    unfold deserializeId
    rw [if_pos hmem, hscan]
    dsimp only
    rw [hlen, ← hrest]

/-! ## The pointers of the decoder -/

namespace DecoderMemory

/-- A pointer that is not NULL points to something. -/
structure Valid (m : DecoderMemory) : Prop where
  deser : m.deser.isSome = true
  entry : ∀ e ∈ m.entry, e < m.entries.length
  chunk : ∀ c ∈ m.chunk, c < m.queues.length

theorem Valid.newTable (h : m.Valid) : Valid { m with deser := some (hashtableNew _ _) } :=
  { h with deser := rfl }

theorem Valid.newEntry (h : m.Valid) (path : CString) : (m.newEntry path).Valid where
  deser := h.deser
  entry e he := by
    obtain rfl := Option.some.inj he
    show _ < (m.entries ++ [_]).length
    rw [List.length_append]
    exact Nat.lt_succ_self _
  chunk := h.chunk

theorem Valid.newChunk (h : m.Valid) : m.newChunk.Valid where
  deser := h.deser
  entry := h.entry
  chunk c hc := by
    obtain rfl := Option.some.inj hc
    show _ < (m.queues ++ [_]).length
    rw [List.length_append]
    exact Nat.lt_succ_self _

/-- What the three uses of a pointer come to: NULL is followed, or the pointers stay as they are. -/
def Uses (m : DecoderMemory) (pointer : Option ℕ) (r : Except Abort DecoderMemory) : Prop :=
  (pointer = none ∧ r = .error .nullPointer) ∨
    (pointer ≠ none ∧ ∃ m', r = .ok m' ∧ m'.Valid ∧ m'.entry = m.entry ∧ m'.chunk = m.chunk)

theorem Valid.pushId (h : m.Valid) (peer : ℤ) : m.Uses m.chunk (m.pushId peer) := by
  unfold Uses DecoderMemory.pushId
  cases hchunk : m.chunk with
  | none => exact Or.inl ⟨rfl, rfl⟩
  | some c =>
    have hlt := h.chunk c hchunk
    refine Or.inr ⟨Option.some_ne_none c, _, bind_eq_ok.mpr ⟨_, readCell_eq
      (List.getElem?_eq_getElem hlt), bind_eq_ok.mpr ⟨_, writeCell_eq hlt, rfl⟩⟩,
      ⟨h.deser, h.entry, fun c' hc' => ?_⟩, rfl, rfl⟩
    rw [List.length_set]
    exact h.chunk c' (hchunk.trans hc')

theorem Valid.pushChunk (h : m.Valid) : m.Uses m.entry m.pushChunk := by
  unfold Uses DecoderMemory.pushChunk
  cases hentry : m.entry with
  | none => exact Or.inl ⟨rfl, rfl⟩
  | some e =>
    have hlt := h.entry e hentry
    refine Or.inr ⟨Option.some_ne_none e, _, bind_eq_ok.mpr ⟨_, readCell_eq
      (List.getElem?_eq_getElem hlt), bind_eq_ok.mpr ⟨_, writeCell_eq hlt, rfl⟩⟩,
      ⟨h.deser, fun e' he' => ?_, h.chunk⟩, rfl, rfl⟩
    rw [List.length_set]
    exact h.entry e' (hentry.trans he')

theorem Valid.addEntry (h : m.Valid) : m.Uses m.entry m.addEntry := by
  obtain ⟨deser, hdeser⟩ := Option.isSome_iff_exists.mp h.deser
  unfold Uses DecoderMemory.addEntry
  rw [hdeser]
  cases hentry : m.entry with
  | none => exact Or.inl ⟨rfl, rfl⟩
  | some e =>
    have hlt := h.entry e hentry
    exact Or.inr ⟨Option.some_ne_none e, _, bind_eq_ok.mpr ⟨_, readCell_eq
      (List.getElem?_eq_getElem hlt), rfl⟩, ⟨rfl, fun e' he' => h.entry e' (hentry.trans he'), h.chunk⟩,
      rfl, rfl⟩

theorem Uses.of_ok {pointer : Option ℕ} {r : Except Abort DecoderMemory} (h : m.Uses pointer r)
    (hok : r = .ok m') : pointer.isSome = true ∧ m'.Valid ∧ m'.entry = m.entry ∧ m'.chunk = m.chunk := by
  rcases h with ⟨-, herror⟩ | ⟨hne, m₁, hr, h'⟩
  · rw [herror] at hok
    cases hok
  · obtain rfl := Except.ok.inj (hr.symm.trans hok)
    exact ⟨Option.isSome_iff_ne_none.mpr hne, h'⟩

theorem Uses.isOk {pointer : Option ℕ} {r : Except Abort DecoderMemory} (h : m.Uses pointer r)
    (hsome : pointer.isSome = true) : ∃ m', r = .ok m' ∧ m'.Valid ∧ m'.entry = m.entry ∧
      m'.chunk = m.chunk := by
  rcases h with ⟨hnone, -⟩ | ⟨-, h'⟩
  · rw [hnone] at hsome
    cases hsome
  · exact h'

theorem Uses.ne_diverges {pointer : Option ℕ} {r : Except Abort DecoderMemory} (h : m.Uses pointer r) :
    r ≠ .error .diverges := by
  rintro rfl
  rcases h with ⟨-, herror⟩ | ⟨-, m₁, hr, -⟩
  · cases herror
  · cases hr

end DecoderMemory

/-! ## What is read -/

/-- What is left comes behind what has been read. -/
theorem IsEntries.exists_append {entry chunk : Bool} (h : IsEntries entry chunk data rest) :
    ∃ b consumed, data = b :: (consumed ++ rest) := by
  induction h with
  | ended rest => exact ⟨endTable, [], rfl⟩
  | entry path _ ih =>
    obtain ⟨b, consumed, rfl⟩ := ih
    exact ⟨startEntry, pushString path ++ b :: consumed, by simp⟩
  | id hid _ ih =>
    obtain ⟨number, b, -, -, -, rfl⟩ := hid
    obtain ⟨b', consumed, rfl⟩ := ih
    exact ⟨startId, number ++ b :: b' :: consumed, by simp⟩
  | table _ ih | chunk _ ih | endChunk _ ih | endEntry _ ih =>
    obtain ⟨b, consumed, rfl⟩ := ih
    exact ⟨_, b :: consumed, rfl⟩

theorem IsId.length_lt (h : IsId data rest) : rest.length < data.length := by
  obtain ⟨number, b, -, -, -, rfl⟩ := h
  rw [List.length_append, List.length_cons]
  omega

/-- What is read to the end are entries. -/
theorem isEntries_of_decodeEntries (hm : m.Valid) (hok : decodeEntries fuel m data = .ok (m', rest)) :
    IsEntries m.entry.isSome m.chunk.isSome data rest := by
  induction fuel generalizing m data with
  | zero => cases hok
  | succ fuel ih =>
    cases data with
    | nil => cases hok
    | cons b data =>
      rw [decodeEntries] at hok
      split_ifs at hok with htable hentry hchunk hid hendChunk hendEntry hend
      · rw [htable]
        exact .table (ih (m := { m with deser := some (hashtableNew _ _) }) hm.newTable hok)
      · obtain ⟨⟨path, data'⟩, hread, hok⟩ := bind_eq_ok.mp hok
        rw [hentry, readString_eq_ok.mp hread]
        exact .entry path (ih (hm.newEntry path) hok)
      · rw [hchunk]
        exact .chunk (ih hm.newChunk hok)
      · obtain ⟨⟨peer, mid⟩, hread, hok⟩ := bind_eq_ok.mp hok
        obtain ⟨m₁, hpush, hok⟩ := bind_eq_ok.mp hok
        obtain ⟨hsome, hm₁, hentry₁, hchunk₁⟩ := (hm.pushId peer).of_ok hpush
        have hrest := ih hm₁ hok
        rw [hentry₁, hchunk₁, hsome] at hrest
        rw [hid, hsome]
        exact .id (deserializeId_isOk.mp ⟨peer, hread⟩) hrest
      · obtain ⟨m₁, hpush, hok⟩ := bind_eq_ok.mp hok
        obtain ⟨hsome, hm₁, hentry₁, hchunk₁⟩ := hm.pushChunk.of_ok hpush
        have hrest := ih hm₁ hok
        rw [hentry₁, hchunk₁, hsome] at hrest
        rw [hendChunk, hsome]
        exact .endChunk hrest
      · obtain ⟨m₁, hadd, hok⟩ := bind_eq_ok.mp hok
        obtain ⟨hsome, hm₁, hentry₁, hchunk₁⟩ := hm.addEntry.of_ok hadd
        have hrest := ih hm₁ hok
        rw [hentry₁, hchunk₁, hsome] at hrest
        rw [hendEntry, hsome]
        exact .endEntry hrest
      · cases hok
        rw [hend]
        exact .ended rest

/-- Entries are read to the end. -/
theorem decodeEntries_of_isEntries {entry chunk : Bool} (h : IsEntries entry chunk data rest)
    (hm : m.Valid) (hentry : m.entry.isSome = entry) (hchunk : m.chunk.isSome = chunk)
    (hfuel : data.length < fuel) : ∃ m', decodeEntries fuel m data = .ok (m', rest) := by
  -- the first byte selects the branch of the loop, which evaluation finds
  induction h generalizing fuel m with
  | ended rest =>
    obtain ⟨fuel, rfl⟩ := Nat.exists_eq_add_one_of_ne_zero (Nat.ne_zero_of_lt hfuel)
    exact ⟨m, rfl⟩
  | table _ ih =>
    obtain ⟨fuel, rfl⟩ := Nat.exists_eq_add_one_of_ne_zero (Nat.ne_zero_of_lt hfuel)
    show ∃ m', decodeEntries fuel { m with deser := some (hashtableNew _ _) } _ = .ok (m', _)
    exact ih hm.newTable hentry hchunk (Nat.lt_of_succ_lt_succ hfuel)
  | entry path _ ih =>
    obtain ⟨fuel, rfl⟩ := Nat.exists_eq_add_one_of_ne_zero (Nat.ne_zero_of_lt hfuel)
    rw [List.length_cons, List.length_append] at hfuel
    obtain ⟨m', hok⟩ : ∃ m', decodeEntries fuel (m.newEntry path) _ = .ok (m', _) :=
      ih (hm.newEntry path) rfl hchunk (by omega)
    exact ⟨m', bind_eq_ok.mpr ⟨_, readString_pushString, hok⟩⟩
  | chunk _ ih =>
    obtain ⟨fuel, rfl⟩ := Nat.exists_eq_add_one_of_ne_zero (Nat.ne_zero_of_lt hfuel)
    show ∃ m', decodeEntries fuel m.newChunk _ = .ok (m', _)
    exact ih hm.newChunk hentry rfl (Nat.lt_of_succ_lt_succ hfuel)
  | id hid _ ih =>
    obtain ⟨fuel, rfl⟩ := Nat.exists_eq_add_one_of_ne_zero (Nat.ne_zero_of_lt hfuel)
    have hlt := hid.length_lt
    rw [List.length_cons] at hfuel
    obtain ⟨peer, hread⟩ := deserializeId_isOk.mpr hid
    obtain ⟨m₁, hpush, hm₁, hentry₁, hchunk₁⟩ := (hm.pushId peer).isOk hchunk
    obtain ⟨m', hok⟩ : ∃ m', decodeEntries fuel m₁ _ = .ok (m', _) :=
      ih hm₁ (hentry₁ ▸ hentry) (hchunk₁ ▸ hchunk) (by omega)
    exact ⟨m', bind_eq_ok.mpr ⟨_, hread, bind_eq_ok.mpr ⟨m₁, hpush, hok⟩⟩⟩
  | endChunk _ ih =>
    obtain ⟨fuel, rfl⟩ := Nat.exists_eq_add_one_of_ne_zero (Nat.ne_zero_of_lt hfuel)
    obtain ⟨m₁, hpush, hm₁, hentry₁, hchunk₁⟩ := hm.pushChunk.isOk hentry
    obtain ⟨m', hok⟩ := ih hm₁ (hentry₁ ▸ hentry) (hchunk₁ ▸ hchunk) (Nat.lt_of_succ_lt_succ hfuel)
    exact ⟨m', bind_eq_ok.mpr ⟨m₁, hpush, hok⟩⟩
  | endEntry _ ih =>
    obtain ⟨fuel, rfl⟩ := Nat.exists_eq_add_one_of_ne_zero (Nat.ne_zero_of_lt hfuel)
    obtain ⟨m₁, hadd, hm₁, hentry₁, hchunk₁⟩ := hm.addEntry.isOk hentry
    obtain ⟨m', hok⟩ := ih hm₁ (hentry₁ ▸ hentry) (hchunk₁ ▸ hchunk) (Nat.lt_of_succ_lt_succ hfuel)
    exact ⟨m', bind_eq_ok.mpr ⟨m₁, hadd, hok⟩⟩

/-! ## Progress -/

theorem deserializeId_ne_diverges : deserializeId data ≠ .error .diverges := by
  intro h
  unfold deserializeId at h
  split_ifs at h
  · cases hscan : scan (CString.ofBytes data).bytes with
    | none => rw [hscan] at h; cases h
    | some r => rw [hscan] at h; cases h
  · cases h

/-- With more fuel than bytes the decoder does not run out of it. -/
theorem decodeEntries_ne_diverges (hm : m.Valid) (hfuel : data.length < fuel) :
    decodeEntries fuel m data ≠ .error .diverges := by
  induction fuel generalizing m data with
  | zero => exact absurd hfuel (Nat.not_lt_zero _)
  | succ fuel ih =>
    intro h
    cases data with
    | nil => cases h
    | cons b data =>
      rw [List.length_cons] at hfuel
      have hlt : data.length < fuel := Nat.lt_of_succ_lt_succ hfuel
      rw [decodeEntries] at h
      split_ifs at h
      · exact ih (m := { m with deser := some (hashtableNew _ _) }) hm.newTable hlt h
      · rcases bind_eq_error.mp h with hread | ⟨⟨path, data'⟩, hread, h⟩
        · cases readString_error hread
        · have hlt' := length_lt_of_readString hread
          exact ih (hm.newEntry path) (by omega) h
      · exact ih hm.newChunk hlt h
      · rcases bind_eq_error.mp h with hread | ⟨⟨peer, mid⟩, hread, h⟩
        · exact deserializeId_ne_diverges hread
        · have hlt' := (deserializeId_isOk.mp ⟨peer, hread⟩).length_lt
          rcases bind_eq_error.mp h with hpush | ⟨m₁, hpush, h⟩
          · exact (hm.pushId peer).ne_diverges hpush
          · exact ih ((hm.pushId peer).of_ok hpush).2.1 (by omega) h
      · rcases bind_eq_error.mp h with hpush | ⟨m₁, hpush, h⟩
        · exact hm.pushChunk.ne_diverges hpush
        · exact ih (hm.pushChunk.of_ok hpush).2.1 hlt h
      · rcases bind_eq_error.mp h with hadd | ⟨m₁, hadd, h⟩
        · exact hm.addEntry.ne_diverges hadd
        · exact ih (hm.addEntry.of_ok hadd).2.1 hlt h
      · cases h

/-! ## Tables -/

/-- After the first marker there is a table. -/
theorem valid_start : DecoderMemory.Valid ⟨[], [], some (hashtableNew _ _), none, none⟩ where
  deser := rfl
  entry _ he := by cases he
  chunk _ hc := by cases hc

/-- The decoder from its first round on. -/
theorem filetableDecode_cons : filetableDecode (startTable :: data) = (do
    let (m, rest) ← decodeEntries (data.length + 1) ⟨[], [], some (hashtableNew _ _), none, none⟩ data
    pure (m, (startTable :: data).length - rest.length)) := rfl

theorem filetableDecode_of_ne {b : UInt8} (hb : b ≠ startTable) :
    filetableDecode (b :: data) = .error .filetableDeserialize := by
  unfold filetableDecode
  dsimp only [List.head?_cons]
  rw [if_pos hb]
  rfl

theorem filetableDecode_ne_diverges : filetableDecode data ≠ .error .diverges := by
  intro h
  cases data with
  | nil => cases h
  | cons b data =>
    by_cases hb : b = startTable
    · rw [hb, filetableDecode_cons] at h
      rcases bind_eq_error.mp h with hloop | ⟨r, -, h⟩
      · exact decodeEntries_ne_diverges valid_start (Nat.lt_succ_self _) hloop
      · cases h
    · rw [filetableDecode_of_ne hb] at h
      cases h

/-- A table lies in front of what is left. -/
theorem IsTable.exists_append (h : IsTable data rest) : ∃ b consumed, data = b :: (consumed ++ rest) := by
  obtain ⟨contents, rfl, hcontents⟩ := h
  obtain ⟨b, consumed, rfl⟩ := hcontents.exists_append
  exact ⟨startTable, b :: consumed, rfl⟩

/-- **Tables.** The decoder returns, inside the buffer, exactly on tables. -/
theorem returnsInside_filetableDecode : ReturnsInside filetableDecode data rest ↔ IsTable data rest := by
  constructor
  · rintro ⟨m, bytesRead, hok, -, -, hrest⟩
    cases data with
    | nil => cases hok
    | cons b data =>
      by_cases hb : b = startTable
      · rw [hb] at hrest hok ⊢
        rw [filetableDecode_cons] at hok
        obtain ⟨⟨m', d⟩, hloop, h⟩ := bind_eq_ok.mp hok
        cases h
        have htable : IsTable (startTable :: data) d :=
          ⟨data, rfl, isEntries_of_decodeEntries valid_start hloop⟩
        obtain ⟨b', consumed, hsplit⟩ := htable.exists_append
        rw [hrest, (drop_length_sub hsplit).2]
        exact htable
      · rw [filetableDecode_of_ne hb] at hok
        cases hok
  · intro h
    obtain ⟨b', consumed, hsplit⟩ := h.exists_append
    obtain ⟨hpos, hdrop⟩ := drop_length_sub hsplit
    obtain ⟨contents, rfl, hcontents⟩ := h
    obtain ⟨m, hm⟩ := decodeEntries_of_isEntries hcontents valid_start rfl rfl (Nat.lt_succ_self _)
    refine ⟨m, _, ?_, hpos, Nat.sub_le _ _, hdrop.symm⟩
    rw [filetableDecode_cons]
    exact bind_eq_ok.mpr ⟨(m, rest), hm, rfl⟩

/-! ## The table in memory

`filetableDeserialize` works on the objects themselves and stops where one would be used after it has
been put somewhere. Where it returns, the table that it has is the one in memory. -/

/-- The owners in a chunk. -/
def readChunk (queues : List (List ℤ)) : Option ℕ → List ℤ
  | none => []
  | some c => queues.getD c []

/-- An entry with its chunks. -/
def DecodedEntry.read (queues : List (List ℤ)) (d : DecodedEntry) : FileTableEntry :=
  ⟨d.path, none, d.chunks.map (readChunk queues), [], []⟩

/-- What a pointer to an entry points to. -/
def DecoderMemory.readEntry (m : DecoderMemory) (x : EntryPointer) : FileTableEntry :=
  (m.entries.getD x.place ⟨x.path, []⟩).read m.queues

/-- The memory holds what the registers own, and no one else points to it. -/
structure DecoderMemory.Shows (m : DecoderMemory) (r : Registers) : Prop where
  deser : ∀ table, r.deser = .own table →
    ∃ t, m.deser = some t ∧ t.table.map (List.map m.readEntry) = table.table
  entry : ∀ e, r.entry = .own e → ∃ k d, m.entry = some k ∧ m.entries[k]? = some d ∧
    e = d.read m.queues ∧ ∀ t ∈ m.deser, ∀ x ∈ t.elements, x.place ≠ k
  chunk : ∀ c, r.chunk = .own c → ∃ j, m.chunk = some j ∧ m.queues[j]? = some c ∧
    ∀ d ∈ m.entries, some j ∉ d.chunks
  place : ∀ t ∈ m.deser, ∀ x ∈ t.elements, x.place < m.entries.length
  chunks : ∀ d ∈ m.entries, ∀ c ∈ d.chunks, ∃ j, c = some j ∧ j < m.queues.length

section Shows

variable {r : Registers} {x : EntryPointer} {d : DecodedEntry} {path : CString}
  {table : HashTable FileTableEntry.path filetableentryHash}
  {t : HashTable EntryPointer.path filetableentryHash} {e : FileTableEntry} {c : List ℤ}

/-- A table whose entries read as before. -/
theorem map_readEntry_congr (h : ∀ x ∈ t.elements, m'.readEntry x = m.readEntry x) :
    t.table.map (List.map m'.readEntry) = t.table.map (List.map m.readEntry) := by
  refine List.map_congr_left fun bucket hbucket => List.map_congr_left fun x hx => h x ?_
  exact List.mem_flatten.mpr ⟨bucket, hbucket, hx⟩

theorem read_congr {queues queues' : List (List ℤ)}
    (h : ∀ c ∈ d.chunks, readChunk queues' c = readChunk queues c) : d.read queues' = d.read queues := by
  unfold DecodedEntry.read
  rw [List.map_congr_left h]

theorem readEntry_eq (h : m.entries[x.place]? = some d) : m.readEntry x = d.read m.queues := by
  unfold DecoderMemory.readEntry
  rw [List.getD_eq_getElem?_getD, h]
  rfl

theorem DecoderMemory.Shows.deser_of_readEntry_eq (h : m.Shows r) (m' : DecoderMemory)
    (hdeser : m'.deser = m.deser)
    (hread : ∀ t ∈ m.deser, ∀ x ∈ t.elements, m'.readEntry x = m.readEntry x) :
    ∀ table, r.deser = .own table →
      ∃ t, m'.deser = some t ∧ t.table.map (List.map m'.readEntry) = table.table := by
  intro table htable
  obtain ⟨t, ht, hmap⟩ := h.deser table htable
  exact ⟨t, hdeser.trans ht, (map_readEntry_congr (hread t ht)).trans hmap⟩

theorem shows_newTable (h : m.Shows r) : DecoderMemory.Shows { m with deser := some (hashtableNew _ _) }
    { r with deser := .own filetableNew.table } where
  deser table htable := by
    cases htable
    exact ⟨_, rfl, List.map_replicate⟩
  entry e he := by
    obtain ⟨k, d, hk, hd, hread, -⟩ := h.entry e he
    refine ⟨k, d, hk, hd, hread, fun t ht x hx => ?_⟩
    cases ht
    rw [elements_hashtableNew] at hx
    exact absurd hx List.not_mem_nil
  chunk := h.chunk
  place t ht x hx := by
    cases ht
    rw [elements_hashtableNew] at hx
    exact absurd hx List.not_mem_nil
  chunks := h.chunks

theorem shows_newEntry (h : m.Shows r) (path : CString) :
    (m.newEntry path).Shows { r with entry := .own ⟨path, none, [], [], []⟩ } where
  deser := by
    refine h.deser_of_readEntry_eq (m.newEntry path) rfl fun t ht x hx => ?_
    have hlt := h.place t ht x hx
    have hold := List.getElem?_eq_getElem hlt
    rw [readEntry_eq hold]
    exact readEntry_eq ((List.getElem?_append_left hlt).trans hold)
  entry e he := by
    cases he
    refine ⟨m.entries.length, ⟨path, []⟩, rfl, List.getElem?_concat_length, rfl, fun t ht x hx => ?_⟩
    exact (h.place t ht x hx).ne
  chunk c hc := by
    obtain ⟨j, hj, hcell, hnot⟩ := h.chunk c hc
    refine ⟨j, hj, hcell, fun d hd => ?_⟩
    rcases List.mem_append.mp hd with hd | hd
    · exact hnot d hd
    · rw [List.mem_singleton.mp hd]
      exact List.not_mem_nil
  place t ht x hx := by
    show _ < (m.entries ++ [_]).length
    rw [List.length_append]
    exact Nat.lt_succ_of_lt (h.place t ht x hx)
  chunks d hd := by
    rcases List.mem_append.mp hd with hd | hd
    · exact h.chunks d hd
    · rw [List.mem_singleton.mp hd]
      exact fun c hc => absurd hc List.not_mem_nil

theorem readChunk_eq {queues : List (List ℤ)} {j : ℕ} (h : queues[j]? = some c) :
    readChunk queues (some j) = c := by
  show queues.getD j [] = c
  rw [List.getD_eq_getElem?_getD, h]
  rfl

/-- The table and the entry are read as before, where the chunks that they hold are. -/
theorem DecoderMemory.Shows.of_readChunk_eq (h : m.Shows r) (m' : DecoderMemory)
    (hentries : m'.entries = m.entries) (hdeser : m'.deser = m.deser) (hentry : m'.entry = m.entry)
    (hqueue : ∀ d ∈ m.entries, ∀ c ∈ d.chunks, readChunk m'.queues c = readChunk m.queues c) :
    (∀ table, r.deser = .own table →
      ∃ t, m'.deser = some t ∧ t.table.map (List.map m'.readEntry) = table.table) ∧
    ∀ e, r.entry = .own e → ∃ k d, m'.entry = some k ∧ m'.entries[k]? = some d ∧
      e = d.read m'.queues ∧ ∀ t ∈ m'.deser, ∀ x ∈ t.elements, x.place ≠ k := by
  constructor
  · refine h.deser_of_readEntry_eq m' hdeser fun t ht x hx => ?_
    have hlt := h.place t ht x hx
    have hold := List.getElem?_eq_getElem hlt
    have hnew : m'.entries[x.place]? = some m.entries[x.place] := by
      rw [hentries]
      exact hold
    rw [readEntry_eq hold, readEntry_eq hnew]
    exact read_congr (hqueue _ (List.mem_of_getElem? hold))
  · rw [hentries, hdeser, hentry]
    intro e he
    obtain ⟨k, d, hk, hd, rfl, hplace⟩ := h.entry e he
    exact ⟨k, d, hk, hd, (read_congr (hqueue d (List.mem_of_getElem? hd))).symm, hplace⟩

theorem shows_newChunk (h : m.Shows r) : m.newChunk.Shows { r with chunk := .own [] } := by
  have hqueue : ∀ d ∈ m.entries, ∀ c ∈ d.chunks,
      readChunk (m.queues ++ [[]]) c = readChunk m.queues c := by
    intro d hd c hc
    obtain ⟨j, rfl, hj⟩ := h.chunks d hd c hc
    exact readChunk_eq ((List.getElem?_append_left hj).trans (by
      rw [List.getElem?_eq_getElem hj, readChunk_eq (List.getElem?_eq_getElem hj)]))
  obtain ⟨hdeser, hentry⟩ := h.of_readChunk_eq m.newChunk rfl rfl rfl hqueue
  refine ⟨hdeser, hentry, fun c hc => ?_, h.place, fun d hd c hc => ?_⟩
  · cases hc
    refine ⟨m.queues.length, rfl, List.getElem?_concat_length, fun d hd hmem => ?_⟩
    obtain ⟨j, hj, hlt⟩ := h.chunks d hd _ hmem
    exact absurd (Option.some.inj hj) hlt.ne'
  · obtain ⟨j, hj, hlt⟩ := h.chunks d hd c hc
    refine ⟨j, hj, ?_⟩
    show _ < (m.queues ++ [_]).length
    rw [List.length_append]
    exact Nat.lt_succ_of_lt hlt

theorem shows_pushId (h : m.Shows r) (hc : r.chunk = .own c) (peer : ℤ) :
    ∃ m', m.pushId peer = .ok m' ∧ m'.Shows { r with chunk := .own (c ++ [peer]) } := by
  obtain ⟨j, hj, hcell, hnot⟩ := h.chunk c hc
  obtain ⟨hlt, hget⟩ := List.getElem?_eq_some_iff.mp hcell
  have hqueue : ∀ d ∈ m.entries, ∀ c' ∈ d.chunks,
      readChunk (m.queues.set j (c ++ [peer])) c' = readChunk m.queues c' := by
    intro d hd c' hc'
    obtain ⟨i, rfl, hi⟩ := h.chunks d hd c' hc'
    have hne : j ≠ i := fun heq => hnot d hd (heq ▸ hc')
    show (m.queues.set j (c ++ [peer])).getD i [] = m.queues.getD i []
    rw [List.getD_eq_getElem?_getD, List.getD_eq_getElem?_getD, List.getElem?_set_ne hne]
  obtain ⟨hdeser, hentry⟩ :=
    h.of_readChunk_eq { m with queues := m.queues.set j (c ++ [peer]) } rfl rfl rfl hqueue
  refine ⟨{ m with queues := m.queues.set j (c ++ [peer]) }, ?_, hdeser, hentry,
    fun c' hc' => ?_, h.place, fun d hd c' hc' => ?_⟩
  · unfold DecoderMemory.pushId
    rw [hj]
    exact bind_eq_ok.mpr ⟨_, readCell_eq hcell, bind_eq_ok.mpr ⟨_, writeCell_eq hlt, rfl⟩⟩
  · cases hc'
    exact ⟨j, hj, List.getElem?_set_self hlt, hnot⟩
  · obtain ⟨i, hi, hilt⟩ := h.chunks d hd c' hc'
    exact ⟨i, hi, by rwa [List.length_set]⟩

theorem shows_pushChunk (h : m.Shows r) (he : r.entry = .own e) (hc : r.chunk = .own c) :
    ∃ m', m.pushChunk = .ok m' ∧
      m'.Shows { r with entry := .own { e with chunks := e.chunks ++ [c] }, chunk := .handedOver } := by
  obtain ⟨j, hj, hcell, hnot⟩ := h.chunk c hc
  obtain ⟨k, d, hk, hd, rfl, hplace⟩ := h.entry e he
  obtain ⟨hlt, hget⟩ := List.getElem?_eq_some_iff.mp hd
  obtain ⟨hjlt, -⟩ := List.getElem?_eq_some_iff.mp hcell
  refine ⟨{ m with entries := m.entries.set k { d with chunks := d.chunks ++ [some j] } }, ?_,
    h.deser_of_readEntry_eq _ rfl fun t ht x hx => ?_, fun e' he' => ?_, fun c' hc' => ?_,
    fun t ht x hx => ?_, fun d' hd' c' hc' => ?_⟩
  · unfold DecoderMemory.pushChunk
    rw [hk]
    refine bind_eq_ok.mpr ⟨d, readCell_eq hd, bind_eq_ok.mpr ⟨_, writeCell_eq hlt, ?_⟩⟩
    rw [hj, ← hk]
    rfl
  · -- the table holds other entries only
    have hold := List.getElem?_eq_getElem (h.place t ht x hx)
    rw [readEntry_eq hold]
    exact readEntry_eq ((List.getElem?_set_ne (hplace t ht x hx).symm).trans hold)
  · cases he'
    refine ⟨k, _, hk, List.getElem?_set_self hlt, ?_, hplace⟩
    unfold DecodedEntry.read
    rw [List.map_append, List.map_singleton, readChunk_eq hcell]
  · cases hc'
  · rw [List.length_set]
    exact h.place t ht x hx
  · rcases List.mem_or_eq_of_mem_set hd' with hd' | rfl
    · exact h.chunks d' hd' c' hc'
    · rcases List.mem_append.mp hc' with hc' | hc'
      · exact h.chunks d (List.mem_of_getElem? hd) c' hc'
      · exact ⟨j, List.mem_singleton.mp hc', hjlt⟩

/-- One more element in a bucket. -/
theorem map_modify_concat {β γ : Type} (f : β → γ) (buckets : List (List β)) (i : ℕ) (x : β) :
    (buckets.modify i fun ll => ll ++ [x]).map (List.map f) =
      (buckets.map (List.map f)).modify i fun ll => ll ++ [f x] := by
  apply List.ext_getElem?
  intro j
  rw [List.getElem?_map, List.getElem?_modify, List.getElem?_modify, List.getElem?_map]
  cases buckets[j]? with
  | none => rfl
  | some ll =>
    by_cases h : i = j
    · simp [h]
    · simp [h]

theorem shows_addEntry (h : m.Shows r) (htable : r.deser = .own table) (he : r.entry = .own e) :
    ∃ m', m.addEntry = .ok m' ∧
      m'.Shows { r with deser := .own (table.hashtableAdd e), entry := .handedOver } := by
  obtain ⟨t, ht, hmap⟩ := h.deser table htable
  obtain ⟨k, d, hk, hd, rfl, hplace⟩ := h.entry e he
  obtain ⟨hlt, hget⟩ := List.getElem?_eq_some_iff.mp hd
  have hadded : ∀ x ∈ (t.hashtableAdd ⟨d.path, k⟩).elements, x.place < m.entries.length := by
    intro x hx
    rcases List.mem_cons.mp (elements_hashtableAdd.mem_iff.mp hx) with rfl | hx
    · exact hlt
    · exact h.place t ht x hx
  refine ⟨{ m with deser := some (t.hashtableAdd ⟨d.path, k⟩) }, ?_, fun table' htable' => ?_,
    fun e' he' => ?_, h.chunk, fun t' ht' x hx => ?_, h.chunks⟩
  · unfold DecoderMemory.addEntry
    rw [ht, hk]
    refine bind_eq_ok.mpr ⟨d, readCell_eq hd, ?_⟩
    rw [← hk]
    rfl
  · cases htable'
    refine ⟨_, rfl, ?_⟩
    have hnew : m.readEntry ⟨d.path, k⟩ = d.read m.queues := readEntry_eq hd
    show (t.table.modify _ fun ll => ll ++ [_]).map (List.map m.readEntry) = table.table.modify _ _
    rw [map_modify_concat, hmap, hnew]
    rfl
  · cases he'
  · cases ht'
    exact hadded x hx

theorem get_eq_ok {α : Type} {register : Register α} {object : α} (h : register.get = .ok object) :
    register = .own object := by
  cases register with
  | own object' => exact congrArg Register.own (Except.ok.inj h)
  | null | handedOver => cases h

theorem handOver_eq_ok {α : Type} {register : Register α} {object : α}
    (h : register.handOver = .ok object) : register = .own object := by
  cases register with
  | own object' => exact congrArg Register.own (Except.ok.inj h)
  | null | handedOver => cases h

/-- Where the decoder on objects returns a table, the one with pointers has it in memory. -/
theorem decodeEntries_of_deserializeEntries (h : m.Shows r)
    (hok : deserializeEntries fuel r data = .ok (table, rest)) :
    ∃ m' t, decodeEntries fuel m data = .ok (m', rest) ∧ m'.deser = some t ∧
      t.table.map (List.map m'.readEntry) = table.table := by
  induction fuel generalizing m r data with
  | zero => cases hok
  | succ fuel ih =>
    cases data with
    | nil => cases hok
    | cons b data =>
      rw [deserializeEntries] at hok
      rw [decodeEntries]
      split_ifs at hok ⊢
      · exact ih (shows_newTable h) hok
      · obtain ⟨⟨path, data'⟩, hread, hok⟩ := bind_eq_ok.mp hok
        obtain ⟨m', t, hloop, ht⟩ := ih (shows_newEntry h path) hok
        exact ⟨m', t, bind_eq_ok.mpr ⟨_, hread, hloop⟩, ht⟩
      · exact ih (shows_newChunk h) hok
      · obtain ⟨⟨peer, data'⟩, hread, hok⟩ := bind_eq_ok.mp hok
        obtain ⟨c, hc, hok⟩ := bind_eq_ok.mp hok
        obtain ⟨m₁, hpush, h₁⟩ := shows_pushId h (get_eq_ok hc) peer
        obtain ⟨m', t, hloop, ht⟩ := ih h₁ hok
        exact ⟨m', t, bind_eq_ok.mpr ⟨_, hread, bind_eq_ok.mpr ⟨m₁, hpush, hloop⟩⟩, ht⟩
      · obtain ⟨e, he, hok⟩ := bind_eq_ok.mp hok
        obtain ⟨c, hc, hok⟩ := bind_eq_ok.mp hok
        obtain ⟨m₁, hpush, h₁⟩ := shows_pushChunk h (get_eq_ok he) (handOver_eq_ok hc)
        obtain ⟨m', t, hloop, ht⟩ := ih h₁ hok
        exact ⟨m', t, bind_eq_ok.mpr ⟨m₁, hpush, hloop⟩, ht⟩
      · obtain ⟨table', htable, hok⟩ := bind_eq_ok.mp hok
        obtain ⟨e, he, hok⟩ := bind_eq_ok.mp hok
        obtain ⟨m₁, hadd, h₁⟩ := shows_addEntry h (get_eq_ok htable) (get_eq_ok he)
        obtain ⟨m', t, hloop, ht⟩ := ih h₁ hok
        exact ⟨m', t, bind_eq_ok.mpr ⟨m₁, hadd, hloop⟩, ht⟩
      · obtain ⟨table', htable, hok⟩ := bind_eq_ok.mp hok
        cases hok
        obtain ⟨t, ht, hmap⟩ := h.deser table (get_eq_ok htable)
        exact ⟨m, t, rfl, ht, hmap⟩

/-- **One table.** What the decoder on objects returns is the table in memory, with the same
`bytesRead`. -/
theorem filetableDecode_of_filetableDeserialize {bytesRead : ℕ}
    (hok : filetableDeserialize data = .ok (table, bytesRead)) :
    ∃ m t, filetableDecode data = .ok (m, bytesRead) ∧ m.deser = some t ∧
      t.table.map (List.map m.readEntry) = table.table := by
  have hstart : DecoderMemory.Shows ⟨[], [], none, none, none⟩ ⟨.null, .null, .null⟩ := by
    refine ⟨?_, ?_, ?_, ?_, fun d hd => absurd hd List.not_mem_nil⟩
    · rintro table ⟨⟩
    · rintro e ⟨⟩
    · rintro c ⟨⟩
    · rintro t ⟨⟩
  cases data with
  | nil => cases hok
  | cons b data =>
    unfold filetableDeserialize at hok
    unfold filetableDecode
    dsimp only [List.head?_cons] at hok ⊢
    split_ifs at hok ⊢
    · cases hok
    · obtain ⟨⟨table', rest⟩, hloop, h⟩ := bind_eq_ok.mp hok
      cases h
      obtain ⟨m, t, hdecode, ht⟩ := decodeEntries_of_deserializeEntries hstart hloop
      exact ⟨m, t, bind_eq_ok.mpr ⟨_, hdecode, rfl⟩, ht⟩

end Shows

end DartSync
