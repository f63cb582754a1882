import DartSync.FileTable
import DartSync.HashTable.Calls

/-!
# Hashing paths

`hashPJW` adds characters that may be negative and folds the top four bits back after each, so what
it returns is small and not negative (`hashPJW_lt`), whatever the characters. The file table hands it
to the hash table, which takes it modulo its size with the `%` of C: `filetable_selects_bucket`.
-/

namespace DartSync

open Memory HashTableMem

/-- One turn of the loop of `hashPJW`, once the character has been added. -/
def foldNibble (h : UInt32) : UInt32 :=
  let g := h &&& 0xf0000000
  if g ≠ 0 then h ^^^ ((g >>> 24) ^^^ g) else h

variable {h : UInt32} {s : CString} {i : ℕ}

theorem getLsbD_mask (hi : 28 ≤ i) (hi' : i < 32) : (0xf0000000#32).getLsbD i = true := by
  obtain rfl | rfl | rfl | rfl : i = 28 ∨ i = 29 ∨ i = 30 ∨ i = 31 := by omega
  all_goals rfl

/-- What is xored in clears the top four bits and touches none but these and four below. -/
theorem getLsbD_fold (hi : 28 ≤ i) :
    (h.toBitVec ^^^ (((h.toBitVec &&& 0xf0000000#32) >>> 24) ^^^ (h.toBitVec &&& 0xf0000000#32))).getLsbD i =
      false := by
  by_cases hi' : i < 32
  · have hout : h.toBitVec.getLsbD (24 + i) = false := BitVec.getLsbD_of_ge _ _ (by omega)
    rw [BitVec.getLsbD_xor, BitVec.getLsbD_xor, BitVec.getLsbD_ushiftRight, BitVec.getLsbD_and,
      BitVec.getLsbD_and, getLsbD_mask hi hi', hout]
    simp
  · exact BitVec.getLsbD_of_ge _ _ (by omega)

theorem foldNibble_lt (h : UInt32) : (foldNibble h).toNat < 2 ^ 28 := by
  refine Nat.lt_pow_two_of_testBit _ fun i hi => ?_
  show (foldNibble h).toBitVec.getLsbD i = false
  unfold foldNibble
  dsimp only
  split_ifs with hg
  · exact getLsbD_fold hi
  · -- there is nothing to clear
    by_cases hi' : i < 32
    · have hzero : (h.toBitVec &&& 0xf0000000#32).getLsbD i = false := by
        have hg : h &&& 0xf0000000 = 0 := not_not.mp hg
        have hg : h.toBitVec &&& 0xf0000000#32 = 0#32 := congrArg UInt32.toBitVec hg
        rw [hg, BitVec.getLsbD_zero]
      rwa [BitVec.getLsbD_and, getLsbD_mask hi hi', Bool.and_true] at hzero
    · exact BitVec.getLsbD_of_ge _ _ (by omega)

/-- The loop keeps the bound, which holds before it. -/
theorem foldl_foldNibble_lt (bytes : List UInt8) (hh : h.toNat < 2 ^ 28) :
    (bytes.foldl (fun h b => foldNibble ((h <<< 4) + b.toInt8.toInt32.toUInt32)) h).toNat < 2 ^ 28 := by
  induction bytes generalizing h with
  | nil => exact hh
  | cons b bytes ih => exact ih (foldNibble_lt _)

theorem hashPJW_lt (s : CString) : (hashPJW s).toNat < 2 ^ 28 :=
  foldl_foldNibble_lt s.bytes (by decide)

/-! ## The hash of an entry -/

/-- What `hashPJW` returns: its `unsigned` as an `int`. -/
def hashPJWInt (s : CString) : ℤ := (hashPJW s).toInt32.toInt

theorem hashPJWInt_eq (s : CString) : hashPJWInt s = filetableentryHash s := by
  have hlt := hashPJW_lt s
  unfold hashPJWInt filetableentryHash
  show (hashPJW s).toBitVec.toInt = _
  exact BitVec.toInt_eq_toNat_of_lt (by show 2 * (hashPJW s).toNat < 2 ^ 32; omega)

/-- `filetableentry_hash`, as the hash table calls it -/
def entryHash (element : FileTableEntry) : ℤ := hashPJWInt element.path

/-- `filetableentry_equals` -/
def filetableentryEquals (e0 e1 : FileTableEntry) : Bool := decide (e0.path = e1.path)

theorem isHashing_entryHash : IsHashing entryHash filetableentryEquals where
  equivalence := by
    refine ⟨fun x => decide_eq_true rfl, fun h => ?_, fun h h' => ?_⟩
    · exact decide_eq_true (of_decide_eq_true h).symm
    · exact decide_eq_true ((of_decide_eq_true h).trans (of_decide_eq_true h'))
  hash_nonneg e := by
    unfold entryHash
    rw [hashPJWInt_eq]
    exact Int.natCast_nonneg _
  hash_eq x y hxy := congrArg hashPJWInt (of_decide_eq_true hxy)

theorem HashTableMem.Represents.length_table {α : Type} {hash : α → ℤ} {equals : α → α → Bool}
    {h : IsHashing hash equals} {mem : HashTableMem α} {ht : HashTable h.key h.hashKey}
    (hmem : mem.Represents h ht) : mem.table.length = initialTableSize := by
  obtain ⟨chains, hstores, hmap⟩ := hmem.stores
  rw [hstores.length_eq, ← List.length_map (f := List.map Prod.snd), hmap, ht.length_table]

/-- **Buckets.** `hashPJW` returns a number below 2 ^ 28 that is not negative; its remainder is the
index of a bucket; and in whatever order entries are added, looked up and removed, no call reads or
writes outside the array of the buckets. -/
theorem filetable_selects_bucket (heap : NodeHeap FileTableEntry) (tail : ℕ → Pointer)
    (calls : List (HashTableCall FileTableEntry × ℕ)) :
    (∀ s, 0 ≤ hashPJWInt s ∧ hashPJWInt s < 2 ^ 28) ∧
    ∃ answers ft, hashtableCalls entryHash filetableentryEquals (hashtableNew heap tail) calls =
        .ok (answers, ft) ∧
      ft.table.length = initialTableSize ∧ ft.tablesize = initialTableSize ∧
      ∀ e, 0 ≤ (entryHash e).tmod ft.tablesize ∧ (entryHash e).tmod ft.tablesize < initialTableSize ∧
        ∃ ll, readCell ft.table ((entryHash e).tmod ft.tablesize) = .ok ll := by
  refine ⟨fun s => ?_, ?_⟩
  · have hlt := hashPJW_lt s
    rw [hashPJWInt_eq]
    unfold filetableentryHash
    omega
  · have hnew := represents_hashtableNew isHashing_entryHash heap tail
    rw [← HashTable.ofList_nil] at hnew
    obtain ⟨ft, hcalls, hft⟩ := represents_hashtableCalls isHashing_entryHash hnew calls
    refine ⟨_, ft, hcalls, hft.length_table, hft.tablesize_eq, fun e => ?_⟩
    obtain ⟨-, ll, -, -, -, hread, -⟩ := hft.bucket e
    refine ⟨?_, ?_, ll, hread⟩
    · rw [hft.tablesize_eq, isHashing_entryHash.tmod_eq]
      exact Int.natCast_nonneg _
    · rw [hft.tablesize_eq, isHashing_entryHash.tmod_eq]
      exact Int.ofNat_lt.mpr (Nat.mod_lt _ (by decide))

end DartSync
