import Mathlib.Tactic.Ring
import DartSync.Basic
import DartSync.Library.Buffer

/-!
# Chunky files

A file in transfer: the reader hands out chunks of 500000 bytes, and the last chunk holds what is
left over. `chunkyfile_get_chunk` computes the length of the last chunk as a remainder, which is
zero when the size is a positive multiple of the chunk size: the last 500000 bytes are never sent.
At every other size the chunks partition the file and any order of delivery reassembles it.
-/

namespace DartSync

open Buffer

/-- `CHUNKYFILE_CHUNK_SIZE` -/
def chunkyfileChunkSize : ℤ := 500000

/-- `_ChunkyFile`. A reader has no path, and no modification time either. -/
structure ChunkyFile where
  path : Option CString
  data : List UInt8
  size : ℤ
  chunksWritten : List Bool
  modifyTime : Int64
  deriving DecidableEq

/-- `num_chunks_for_size` -/
def numChunksForSize (size : ℤ) : ℤ :=
  if size.tmod chunkyfileChunkSize = 0 then size.tdiv chunkyfileChunkSize
  else size.tdiv chunkyfileChunkSize + 1

/-- `chunkyfile_new_for_reading_from_path`, of a regular file with the given bytes. The size is
`st_size` cut to an `int`. -/
def chunkyfileNewForReadingFromPath (content : List UInt8) : ChunkyFile :=
  let size := (Int32.ofNat content.length).toInt
  { path := none
    data := content.take size.toNat
    size := size
    chunksWritten := List.replicate (numChunksForSize size).toNat false
    modifyTime := 0 }

/-- The filler of a file whose chunks have not arrived. -/
def deadbeef : List UInt8 := [68, 69, 65, 68, 66, 69, 69, 70]

/-- `chunkyfile_new_for_writing_to_path` -/
def chunkyfileNewForWritingToPath (path : CString) (size : ℤ) (modifyTime : Int64) : ChunkyFile where
  path := some path
  data := (List.range size.toNat).map fun i => deadbeef.getD (i % 8) 0
  size := size
  chunksWritten := List.replicate (numChunksForSize size).toNat false
  modifyTime := modifyTime

/-- `chunkyfile_num_chunks` -/
def chunkyfileNumChunks (cf : ChunkyFile) : ℤ := numChunksForSize cf.size

/-- Where `chunkyfile_get_chunk` and `chunkyfile_set_chunk` place a chunk in the data. -/
def chunkOffset (chunkNum : ℤ) : ℤ := chunkNum * chunkyfileChunkSize

/-- The `chunkSize` that `chunkyfile_get_chunk` computes. -/
def chunkLength (cf : ChunkyFile) (chunkNum : ℤ) : ℤ :=
  if chunkNum = chunkyfileNumChunks cf - 1 then cf.size.tmod chunkyfileChunkSize
  else chunkyfileChunkSize

/-- The range of `len` bytes at `off` lies inside a buffer of `n` bytes. -/
def InBounds (off len : ℤ) (n : ℕ) : Prop := 0 ≤ off ∧ off + len ≤ n

instance (off len : ℤ) (n : ℕ) : Decidable (InBounds off len n) :=
  inferInstanceAs (Decidable (_ ∧ _))

/-- `chunkyfile_get_chunk`: the bytes at the pointer it returns, as many as it says. -/
def chunkyfileGetChunk (cf : ChunkyFile) (chunkNum : ℤ) : Except Abort (List UInt8) :=
  if InBounds (chunkOffset chunkNum) (chunkLength cf chunkNum) cf.data.length then
    .ok (slice cf.data (chunkOffset chunkNum).toNat (chunkLength cf chunkNum).toNat)
  else .error .outOfBounds

/-- `chunkyfile_set_chunk`. A chunk of another length than expected is reported and copied. -/
def chunkyfileSetChunk (cf : ChunkyFile) (chunkNum : ℤ) (chunk : List UInt8) :
    Except Abort ChunkyFile :=
  if InBounds chunkNum 1 cf.chunksWritten.length ∧
      InBounds (chunkOffset chunkNum) chunk.length cf.data.length then
    .ok { cf with
      chunksWritten := cf.chunksWritten.set chunkNum.toNat true
      data := splice cf.data (chunkOffset chunkNum).toNat chunk }
  else .error .outOfBounds

/-- `chunkyfile_all_chunks_written` -/
def chunkyfileAllChunksWritten (cf : ChunkyFile) : Bool :=
  (List.range (chunkyfileNumChunks cf).toNat).all fun i => cf.chunksWritten.getD i false

/-- The writer receives one chunk of the reader. -/
def deliverChunk (reader writer : ChunkyFile) (chunkNum : ℤ) : Except Abort ChunkyFile := do
  let chunk ← chunkyfileGetChunk reader chunkNum
  chunkyfileSetChunk writer chunkNum chunk

/-- The writer receives the chunks of the reader in the given order. -/
def deliver (reader writer : ChunkyFile) (order : List ℤ) : Except Abort ChunkyFile :=
  order.foldlM (deliverChunk reader) writer

/-- A valid chunk number of a file of that size. -/
def IsChunk (size chunkNum : ℤ) : Prop := 0 ≤ chunkNum ∧ chunkNum < numChunksForSize size

/-- Chunk `chunkNum` of `cf` holds the byte at `i`. -/
def Covers (cf : ChunkyFile) (chunkNum i : ℤ) : Prop :=
  chunkOffset chunkNum ≤ i ∧ i < chunkOffset chunkNum + chunkLength cf chunkNum

instance (cf : ChunkyFile) (chunkNum i : ℤ) : Decidable (Covers cf chunkNum i) :=
  inferInstanceAs (Decidable (_ ∧ _))

/-- Every delivery to a writer of the same size goes through, and once all chunks are written the
writer's data are the reader's. -/
def Reassembles (content : List UInt8) : Prop :=
  ∀ (path : CString) (modifyTime : Int64) (order : List ℤ),
    let reader := chunkyfileNewForReadingFromPath content
    let writer := chunkyfileNewForWritingToPath path content.length modifyTime
    (∀ c ∈ order, IsChunk content.length c) → ∃ w, deliver reader writer order = .ok w ∧
      (chunkyfileAllChunksWritten w = true → w.data = reader.data)

/-- The chunks hold every byte once, and put together they are the content. -/
structure Partitions (content : List UInt8) : Prop where
  inside : ∀ c i, IsChunk content.length c →
    Covers (chunkyfileNewForReadingFromPath content) c i → 0 ≤ i ∧ i < content.length
  once : ∀ i : ℤ, 0 ≤ i → i < content.length →
    ∃! c, IsChunk content.length c ∧ Covers (chunkyfileNewForReadingFromPath content) c i
  bytes : ∃ chunks, (List.range (numChunksForSize content.length).toNat).mapM
      (fun c : ℕ => chunkyfileGetChunk (chunkyfileNewForReadingFromPath content) c) =
      .ok chunks ∧ chunks.flatten = content

/-- The offset of every chunk is an `int`. -/
def OffsetsFit (content : List UInt8) : Prop :=
  ∀ c, IsChunk content.length c → 0 ≤ chunkOffset c ∧ chunkOffset c < 2 ^ 31

/-! ## Sizes -/

theorem numChunksForSize_of_nonneg {size : ℤ} (h : 0 ≤ size) :
    numChunksForSize size = (size + 499999) / 500000 := by
  unfold numChunksForSize chunkyfileChunkSize
  rw [Int.tmod_eq_emod_of_nonneg h, Int.tdiv_eq_ediv_of_nonneg h]
  split_ifs <;> omega

theorem chunkLength_of_nonneg {cf : ChunkyFile} (h : 0 ≤ cf.size) (c : ℤ) : chunkLength cf c =
    if c = (cf.size + 499999) / 500000 - 1 then cf.size % 500000 else 500000 := by
  unfold chunkLength chunkyfileNumChunks
  rw [numChunksForSize_of_nonneg h]
  unfold chunkyfileChunkSize
  rw [Int.tmod_eq_emod_of_nonneg h]

theorem isChunk_iff {size c : ℤ} (h : 0 ≤ size) : IsChunk size c ↔ 0 ≤ c ∧ c * 500000 < size := by
  unfold IsChunk
  rw [numChunksForSize_of_nonneg h]
  omega

theorem offsetsFit {content : List UInt8} (hlen : content.length < 2 ^ 31) : OffsetsFit content := by
  intro c hc
  rw [isChunk_iff (by omega)] at hc
  unfold chunkOffset chunkyfileChunkSize
  omega

section Transfer

variable {content : List UInt8} (hlen : content.length < 2 ^ 31) {path : CString}
  {modifyTime : Int64}

include hlen

theorem size_reader : (chunkyfileNewForReadingFromPath content).size = content.length :=
  Int32.toInt_ofNat_of_lt hlen

theorem data_reader : (chunkyfileNewForReadingFromPath content).data = content := by
  have hsize : (Int32.ofNat content.length).toInt = content.length := Int32.toInt_ofNat_of_lt hlen
  show content.take (Int32.ofNat content.length).toInt.toNat = content
  rw [hsize, Int.toNat_natCast, List.take_length]

theorem chunkLength_reader (c : ℤ) : chunkLength (chunkyfileNewForReadingFromPath content) c =
    if c = ((content.length : ℤ) + 499999) / 500000 - 1 then (content.length : ℤ) % 500000
    else 500000 := by
  rw [chunkLength_of_nonneg (by rw [size_reader hlen]; omega), size_reader hlen]

/-- Every chunk lies inside the file, also where the last one is cut short. -/
theorem chunk_inBounds {c : ℤ} (hc : IsChunk content.length c) :
    0 ≤ chunkLength (chunkyfileNewForReadingFromPath content) c ∧ 0 ≤ chunkOffset c ∧
      chunkOffset c + chunkLength (chunkyfileNewForReadingFromPath content) c ≤
        content.length := by
  rw [isChunk_iff (by omega)] at hc
  rw [chunkLength_reader hlen]
  unfold chunkOffset chunkyfileChunkSize
  split_ifs <;> omega

theorem chunkyfileGetChunk_reader {c : ℤ} (hc : IsChunk content.length c) :
    chunkyfileGetChunk (chunkyfileNewForReadingFromPath content) c =
      .ok (slice content (chunkOffset c).toNat
        (chunkLength (chunkyfileNewForReadingFromPath content) c).toNat) := by
  obtain ⟨-, hoff, hend⟩ := chunk_inBounds hlen hc
  unfold chunkyfileGetChunk
  rw [data_reader hlen, if_pos ⟨hoff, hend⟩]

/-! ## Delivery -/

omit hlen in
/-- What the writer holds after the chunks `done` have arrived. -/
structure Delivered (content : List UInt8) (writer : ChunkyFile) (done : List ℤ) (w : ChunkyFile) :
    Prop where
  size : w.size = content.length
  length_data : w.data.length = content.length
  length_written : w.chunksWritten.length = (numChunksForSize content.length).toNat
  written : ∀ c : ℕ, w.chunksWritten.getD c false = true ↔ (c : ℤ) ∈ done
  arrived : ∀ c ∈ done, ∀ i : ℕ, Covers (chunkyfileNewForReadingFromPath content) c i →
    w.data[i]? = content[i]?
  rest : ∀ i : ℕ, (∀ c ∈ done, ¬ Covers (chunkyfileNewForReadingFromPath content) c i) →
    w.data[i]? = writer.data[i]?

omit hlen in
theorem delivered_nil (path : CString) (modifyTime : Int64) : Delivered content
    (chunkyfileNewForWritingToPath path content.length modifyTime) []
    (chunkyfileNewForWritingToPath path content.length modifyTime) := by
  refine ⟨rfl, ?_, ?_, fun c => ?_, nofun, fun _ _ => rfl⟩
  · unfold chunkyfileNewForWritingToPath
    simp
  · unfold chunkyfileNewForWritingToPath
    simp
  · unfold chunkyfileNewForWritingToPath
    simp only [List.getD_eq_getElem?_getD, List.getElem?_replicate]
    split_ifs <;> simp

/-- One chunk arrives. -/
theorem Delivered.step {writer w : ChunkyFile} {done : List ℤ}
    (hd : Delivered content writer done w) {c : ℤ} (hc : IsChunk content.length c) :
    ∃ w', deliverChunk (chunkyfileNewForReadingFromPath content) w c = .ok w' ∧
      Delivered content writer (c :: done) w' := by
  obtain ⟨hpos, hoff, hend⟩ := chunk_inBounds hlen hc
  set len := chunkLength (chunkyfileNewForReadingFromPath content) c
  have hslice : (slice content (chunkOffset c).toNat len.toNat).length = len.toNat :=
    length_slice (by omega)
  have hroom : (chunkOffset c).toNat + (slice content (chunkOffset c).toNat len.toNat).length ≤
      w.data.length := by
    rw [hslice, hd.length_data]; omega
  have hbounds : InBounds c 1 w.chunksWritten.length ∧ InBounds (chunkOffset c)
      (slice content (chunkOffset c).toNat len.toNat).length w.data.length := by
    refine ⟨⟨hc.1, ?_⟩, hoff, by omega⟩
    rw [hd.length_written]
    have := hc.2
    omega
  have hread : ∀ i : ℕ, (splice w.data (chunkOffset c).toNat
      (slice content (chunkOffset c).toNat len.toNat))[i]? =
      if Covers (chunkyfileNewForReadingFromPath content) c i then content[i]? else w.data[i]? := by
    intro i
    rw [getElem?_splice hroom, hslice]
    have hiff : ((chunkOffset c).toNat ≤ i ∧ i < (chunkOffset c).toNat + len.toNat) ↔
        Covers (chunkyfileNewForReadingFromPath content) c i := by
      unfold Covers; omega
    by_cases h : Covers (chunkyfileNewForReadingFromPath content) c i
    · rw [if_pos h, if_pos (hiff.mpr h), getElem?_slice (by have := hiff.mpr h; omega)]
      congr 1
      have := hiff.mpr h
      omega
    · rw [if_neg h, if_neg (hiff.not.mpr h)]
  refine ⟨{ w with
    chunksWritten := w.chunksWritten.set c.toNat true
    data := splice w.data (chunkOffset c).toNat
      (slice content (chunkOffset c).toNat len.toNat) }, ?_, ?_⟩
  · unfold deliverChunk
    rw [chunkyfileGetChunk_reader hlen hc]
    exact if_pos hbounds
  refine ⟨hd.size, ?_, ?_, fun k => ?_, fun k hk i hi => ?_, fun i hi => ?_⟩
  · show (splice _ _ _).length = _
    rw [length_splice hroom, hd.length_data]
  · show (w.chunksWritten.set _ _).length = _
    rw [List.length_set, hd.length_written]
  · show (w.chunksWritten.set _ _).getD k false = true ↔ _
    have hlt : c.toNat < w.chunksWritten.length := by
      have := hbounds.1.2
      have := hc.1
      omega
    rw [List.mem_cons, ← hd.written k]
    simp only [List.getD_eq_getElem?_getD, List.getElem?_set]
    by_cases hk : c.toNat = k
    · rw [if_pos hk, if_pos hlt]
      have : (k : ℤ) = c := by have := hc.1; omega
      simp [this]
    · rw [if_neg hk]
      have : (k : ℤ) ≠ c := by omega
      simp [this]
  · show (splice _ _ _)[i]? = _
    rw [hread]
    split_ifs with h
    · rfl
    · rcases List.mem_cons.mp hk with rfl | hk
      exacts [absurd hi h, hd.arrived k hk i hi]
  · show (splice _ _ _)[i]? = _
    rw [hread, if_neg (hi c List.mem_cons_self)]
    exact hd.rest i fun k hk => hi k (List.mem_cons_of_mem _ hk)

/-- Every order of delivery goes through. -/
theorem Delivered.deliver {writer w : ChunkyFile} {done order : List ℤ}
    (hd : Delivered content writer done w) (horder : ∀ c ∈ order, IsChunk content.length c) :
    ∃ w', deliver (chunkyfileNewForReadingFromPath content) w order = .ok w' ∧
      Delivered content writer (order.reverse ++ done) w' := by
  induction order generalizing w done with
  | nil => exact ⟨w, rfl, hd⟩
  | cons c order ih =>
    obtain ⟨w1, h1, hd1⟩ := hd.step hlen (horder c List.mem_cons_self)
    obtain ⟨w', h', hd'⟩ := ih hd1 fun k hk => horder k (List.mem_cons_of_mem c hk)
    refine ⟨w', ?_, by simpa using hd'⟩
    unfold DartSync.deliver at h' ⊢
    rw [List.foldlM_cons, bind_eq_ok]
    exact ⟨w1, h1, h'⟩

omit hlen in
/-- The writer reports completion when every chunk has arrived. -/
theorem Delivered.all_written_iff {writer w : ChunkyFile} {done : List ℤ}
    (hd : Delivered content writer done w) : chunkyfileAllChunksWritten w = true ↔
      ∀ c, IsChunk content.length c → c ∈ done := by
  unfold chunkyfileAllChunksWritten chunkyfileNumChunks
  rw [List.all_eq_true, hd.size]
  constructor
  · rintro h c ⟨hc, hc'⟩
    have := (hd.written c.toNat).mp (h c.toNat (List.mem_range.mpr (by omega)))
    rwa [Int.toNat_of_nonneg hc] at this
  · intro h k hk
    exact (hd.written k).mpr (h k ⟨by omega, by have := List.mem_range.mp hk; omega⟩)

/-! ## Sizes at which the last chunk is not lost -/

omit hlen in
/-- A size that is no positive multiple of the chunk size. -/
def HasLastChunk (size : ℕ) : Prop := size = 0 ∨ size % 500000 ≠ 0

/-- There a chunk covers what lies in its range of the file. -/
theorem covers_iff (hsize : HasLastChunk content.length) {c i : ℤ}
    (hc : IsChunk content.length c) : Covers (chunkyfileNewForReadingFromPath content) c i ↔
      c * 500000 ≤ i ∧ i < c * 500000 + 500000 ∧ i < content.length := by
  rw [isChunk_iff (by omega)] at hc
  unfold Covers
  rw [chunkLength_reader hlen]
  unfold chunkOffset chunkyfileChunkSize
  unfold HasLastChunk at hsize
  split_ifs <;> omega

theorem existsUnique_covers (hsize : HasLastChunk content.length) {i : ℤ} (hi : 0 ≤ i)
    (hlt : i < content.length) :
    ∃! c, IsChunk content.length c ∧ Covers (chunkyfileNewForReadingFromPath content) c i := by
  have hc : IsChunk content.length (i / 500000) := by
    rw [isChunk_iff (by omega)]; omega
  refine ⟨i / 500000, ⟨hc, (covers_iff hlen hsize hc).mpr (by omega)⟩, ?_⟩
  rintro c ⟨hc, hcov⟩
  rw [covers_iff hlen hsize hc] at hcov
  omega

theorem reassembles (hsize : HasLastChunk content.length) : Reassembles content := by
  intro path modifyTime order reader writer horder
  obtain ⟨w, hw, hd⟩ := (delivered_nil path modifyTime).deliver hlen horder
  refine ⟨w, hw, fun hall => ?_⟩
  have hdone := hd.all_written_iff.mp hall
  rw [show reader.data = content from data_reader hlen]
  refine List.ext_getElem? fun i => ?_
  by_cases hi : i < content.length
  · obtain ⟨c, ⟨hc, hcov⟩, -⟩ := existsUnique_covers hlen hsize (i := i) (by omega) (by omega)
    exact hd.arrived c (hdone c hc) i hcov
  · rw [List.getElem?_eq_none (by rw [hd.length_data]; omega), List.getElem?_eq_none (by omega)]

omit hlen in
/-- Slices of one chunk size each, side by side. -/
theorem flatten_slices (count : ℕ) :
    ((List.range count).map fun c => slice content (c * 500000) 500000).flatten =
      slice content 0 (count * 500000) := by
  induction count with
  | zero => simp [slice]
  | succ count ih =>
    rw [List.range_succ, List.map_append, List.flatten_append, ih]
    have := slice_append_slice content 0 (count * 500000) 500000
    rw [Nat.zero_add] at this
    rw [Nat.succ_mul, ← this]
    simp

theorem partitions (hsize : HasLastChunk content.length) : Partitions content where
  inside c i hc hcov := by
    rw [covers_iff hlen hsize hc] at hcov
    have := hc.1
    omega
  once i := existsUnique_covers hlen hsize
  bytes := by
    refine ⟨_, mapM_eq_ok (g := fun c : ℕ => slice content (c * 500000) 500000) fun c hc => ?_, ?_⟩
    · have hchunk : IsChunk content.length c := by
        have := List.mem_range.mp hc
        exact ⟨by omega, by omega⟩
      rw [chunkyfileGetChunk_reader hlen hchunk]
      rw [isChunk_iff (by omega)] at hchunk
      -- the slice stops at the end of the file in any case
      unfold slice
      rw [chunkLength_reader hlen]
      unfold chunkOffset chunkyfileChunkSize
      unfold HasLastChunk at hsize
      rw [show ((c : ℤ) * 500000).toNat = c * 500000 by omega]
      split_ifs with hlast
      · congr 1
        rw [List.take_of_length_le, List.take_of_length_le] <;> rw [List.length_drop] <;> omega
      · rfl
    · rw [flatten_slices]
      unfold slice
      rw [List.drop_zero, List.take_of_length_le]
      rw [numChunksForSize_of_nonneg (by omega)]
      omega

/-- At a positive multiple of the chunk size no chunk holds the last byte. -/
theorem not_covers_last (hsize : ¬ HasLastChunk content.length) {c : ℤ}
    (hc : IsChunk content.length c) :
    ¬ Covers (chunkyfileNewForReadingFromPath content) c (content.length - 1 : ℕ) := by
  rw [isChunk_iff (by omega)] at hc
  unfold Covers
  rw [chunkLength_reader hlen]
  unfold chunkOffset chunkyfileChunkSize
  unfold HasLastChunk at hsize
  split_ifs <;> omega

/-- **Chunked transfer.** A file is cut into a partition by offsets that fit, and reassembled from
it, exactly when its size is no positive multiple of the chunk size. -/
theorem chunkedTransfer_iff :
    Reassembles content ∧ Partitions content ∧ OffsetsFit content ↔
      content.length = 0 ∨ content.length % 500000 ≠ 0 := by
  refine ⟨fun ⟨_, hpart, _⟩ => ?_, fun h => ⟨reassembles hlen h, partitions hlen h,
    offsetsFit hlen⟩⟩
  by_contra hsize
  have hpos : content.length ≠ 0 := fun h => hsize (Or.inl h)
  obtain ⟨c, ⟨hc, hcov⟩, -⟩ := hpart.once (content.length - 1 : ℕ) (by omega) (by omega)
  exact not_covers_last hlen hsize hc hcov

end Transfer

theorem chunkedTransfer_three_bytes :
    Reassembles [1, 2, 3] ∧ Partitions [1, 2, 3] ∧ OffsetsFit [1, 2, 3] ↔
      [1, 2, 3].length = 0 ∨ [1, 2, 3].length % 500000 ≠ 0 :=
  chunkedTransfer_iff (by decide)

/-! ## The lost bytes -/

theorem deadbeef_ne_zero (i : ℕ) : deadbeef.getD (i % 8) 0 ≠ 0 := by
  have : ∀ j < 8, deadbeef.getD j 0 ≠ 0 := by decide
  exact this _ (Nat.mod_lt _ (by decide))

/-- A file of zeros whose size is a positive multiple of the chunk size is complete with filler at
its end. -/
theorem not_reassembles_zeros {size : ℕ} (hlt : size < 2 ^ 31) (hsize : ¬ HasLastChunk size) :
    ¬ Reassembles (List.replicate size 0) := by
  set content : List UInt8 := List.replicate size 0 with hcontent
  have hlength : content.length = size := List.length_replicate
  have hlen : content.length < 2 ^ 31 := hlength ▸ hlt
  rw [← hlength] at hsize
  intro hre
  let order : List ℤ := (List.range (numChunksForSize content.length).toNat).map Int.ofNat
  have horder : ∀ c, c ∈ order ↔ IsChunk content.length c := by
    intro c
    rw [List.mem_map]
    constructor
    · rintro ⟨k, hk, rfl⟩
      have := List.mem_range.mp hk
      exact ⟨by simp, by show (k : ℤ) < _; omega⟩
    · rintro ⟨hc, hc'⟩
      exact ⟨c.toNat, List.mem_range.mpr (by omega), Int.toNat_of_nonneg hc⟩
  obtain ⟨w, hw, hdata⟩ := hre .empty 0 order fun c hc => (horder c).mp hc
  obtain ⟨w', hw', hd⟩ := (delivered_nil .empty 0).deliver hlen
    fun c hc => (horder c).mp hc
  obtain rfl : w = w' := Except.ok.inj (hw.symm.trans hw')
  have hall := hd.all_written_iff.mpr fun c hc =>
    List.mem_append_left _ (List.mem_reverse.mpr ((horder c).mpr hc))
  -- no chunk has overwritten the filler at the end
  have hpos : 0 < content.length := Nat.pos_of_ne_zero fun h => hsize (Or.inl h)
  have hrest := hd.rest (content.length - 1) fun c hc => by
    have hc : c ∈ order := by simpa using hc
    exact not_covers_last hlen hsize ((horder c).mp hc)
  rw [hdata hall, data_reader hlen, hcontent, List.getElem?_replicate, ← hcontent,
    if_pos (by omega)] at hrest
  unfold chunkyfileNewForWritingToPath at hrest
  rw [Int.toNat_natCast, List.getElem?_map, List.getElem?_range (by omega), Option.map_some,
    Option.some.injEq] at hrest
  exact deadbeef_ne_zero _ hrest.symm

/-- Half a million zeros arrive as half a million bytes of filler. -/
theorem not_reassembles_one_chunk : ¬ Reassembles (List.replicate 500000 0) :=
  not_reassembles_zeros (by decide) (by unfold HasLastChunk; omega)

/-- Every file of a size is reassembled exactly when the size is no positive multiple of the chunk
size. -/
theorem forall_reassembles_iff {size : ℕ} (hlt : size < 2 ^ 31) :
    (∀ content : List UInt8, content.length = size → Reassembles content) ↔ HasLastChunk size := by
  constructor
  · intro h
    by_contra hsize
    exact not_reassembles_zeros hlt hsize (h _ List.length_replicate)
  · rintro h content rfl
    exact reassembles hlt h

end DartSync
