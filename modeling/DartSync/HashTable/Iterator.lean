import DartSync.HashTable

/-!
# Hash table iterators

An iterator goes through the lists in the order of the array and through each list from its head:
it returns the elements in the order of `elements` (`iterate_hashtableIteratorNew`). Adding the
elements to a new table in this order rebuilds every list (`foldl_hashtableAdd_elements`).
-/

namespace DartSync

namespace HashTable

variable {α κ : Type*} {key : α → κ} {hash : κ → ℕ} {ht : HashTable key hash} {table : List (List α)}
  {i fuel : ℕ} {x : α} {xs : List α}

/-! ## Going through a table -/

/-- `_HashTableIterator`: what its list iterator has not returned yet, and the index of the list. -/
structure Iterator (α : Type*) where
  pending : List α
  index : ℕ

variable {it : Iterator α}

/-- The loop that looks for a list that is not empty, on the lists from `i` on. -/
def nonemptyList : List (List α) → ℕ → Option (Iterator α)
  | [], _ => none
  | ll :: table, i => if 0 < ll.length then some ⟨ll, i⟩ else nonemptyList table (i + 1)

/-- `hashtableiterator_new` -/
def hashtableIteratorNew (ht : HashTable key hash) : Option (Iterator α) := nonemptyList ht.table 0

/-- `hashtableiterator_next` -/
def hashtableIteratorNext (ht : HashTable key hash) (it : Iterator α) : Option (α × Iterator α) :=
  match it.pending with
  | element :: pending => some (element, ⟨pending, it.index⟩)
  | [] => (nonemptyList (ht.table.drop (it.index + 1)) (it.index + 1)).bind fun it =>
    match it.pending with
    | element :: pending => some (element, ⟨pending, it.index⟩)
    | [] => none

/-- What `while ((element = hashtableiterator_next(iterator)))` goes through; `none` when it takes
more than `fuel` rounds. -/
def iterate (ht : HashTable key hash) : ℕ → Iterator α → Option (List α)
  | 0, _ => none
  | fuel + 1, it =>
    match hashtableIteratorNext ht it with
    | none => some []
    | some (element, it) => (iterate ht fuel it).map (element :: ·)

/-- What an iterator has not returned yet. -/
def Iterator.remaining (it : Iterator α) (ht : HashTable key hash) : List α :=
  it.pending ++ (ht.table.drop (it.index + 1)).flatten

theorem nonemptyList_eq_none (h : nonemptyList table i = none) : table.flatten = [] := by
  induction table generalizing i with
  | nil => rfl
  | cons ll table ih =>
    rw [nonemptyList] at h
    split_ifs at h with hll
    rw [List.flatten_cons, ih h, List.append_nil]
    exact List.eq_nil_of_length_eq_zero (Nat.eq_zero_of_not_pos hll)

/-- The list that is found is the first one with elements. -/
theorem nonemptyList_eq_some (h : nonemptyList table i = some it) :
    ∃ k, it.index = i + k ∧ it.pending ≠ [] ∧
      table.flatten = it.pending ++ (table.drop (k + 1)).flatten := by
  induction table generalizing i with
  | nil => cases h
  | cons ll table ih =>
    rw [nonemptyList] at h
    split_ifs at h with hll
    · cases h
      exact ⟨0, rfl, List.ne_nil_of_length_pos hll, rfl⟩
    · obtain ⟨k, hk, hne, hflat⟩ := ih h
      have hnil : ll = [] := List.eq_nil_of_length_eq_zero (Nat.eq_zero_of_not_pos hll)
      refine ⟨k + 1, by omega, hne, ?_⟩
      rw [List.flatten_cons, hnil, List.nil_append, hflat]
      rfl

/-- One call returns the first of the elements that remain. -/
theorem hashtableIteratorNext_eq (ht : HashTable key hash) (it : Iterator α) :
    (hashtableIteratorNext ht it = none ∧ it.remaining ht = []) ∨
      ∃ x it', hashtableIteratorNext ht it = some (x, it') ∧
        it.remaining ht = x :: it'.remaining ht := by
  obtain ⟨pending, index⟩ := it
  cases pending with
  | cons x pending => exact Or.inr ⟨x, ⟨pending, index⟩, rfl, rfl⟩
  | nil =>
    unfold hashtableIteratorNext
    dsimp only
    cases hfind : nonemptyList (ht.table.drop (index + 1)) (index + 1) with
    | none => exact Or.inl ⟨rfl, nonemptyList_eq_none hfind⟩
    | some found =>
      obtain ⟨k, hk, hne, hflat⟩ := nonemptyList_eq_some hfind
      obtain ⟨pending, index'⟩ := found
      obtain ⟨x, pending, rfl⟩ := List.exists_cons_of_ne_nil hne
      refine Or.inr ⟨x, ⟨pending, index'⟩, rfl, ?_⟩
      have hk : index' = index + 1 + k := hk
      show (ht.table.drop (index + 1)).flatten = x :: (pending ++ (ht.table.drop (index' + 1)).flatten)
      rw [hflat, List.drop_drop, hk]
      rfl

theorem iterate_eq (h : (it.remaining ht).length < fuel) :
    iterate ht fuel it = some (it.remaining ht) := by
  induction fuel generalizing it with
  | zero => exact absurd h (Nat.not_lt_zero _)
  | succ fuel ih =>
    rw [iterate]
    rcases hashtableIteratorNext_eq ht it with ⟨hnext, hnil⟩ | ⟨x, it', hnext, hcons⟩
    · rw [hnext, hnil]
    · rw [hcons, List.length_cons] at h
      rw [hnext, hcons]
      show (iterate ht fuel it').map _ = _
      rw [ih (by omega)]
      rfl

/-- **Iteration.** An iterator returns every element of the table, each once, and there is none for
an empty table. -/
theorem iterate_hashtableIteratorNew (h : ht.elements.length < fuel) :
    (hashtableIteratorNew ht = none ∧ ht.elements = []) ∨
      ∃ it, hashtableIteratorNew ht = some it ∧ iterate ht fuel it = some ht.elements := by
  cases hnew : hashtableIteratorNew ht with
  | none => exact Or.inl ⟨rfl, nonemptyList_eq_none hnew⟩
  | some it =>
    obtain ⟨k, hk, -, hflat⟩ := nonemptyList_eq_some hnew
    have hremaining : it.remaining ht = ht.elements := by
      show _ = ht.table.flatten
      rw [hflat, Iterator.remaining, hk, Nat.zero_add]
    refine Or.inr ⟨it, rfl, ?_⟩
    rw [← hremaining] at h ⊢
    exact iterate_eq h

/-! ## Rebuilding a table -/

theorem getD_hashtableNew (i : ℕ) : (hashtableNew key hash).table.getD i [] = [] := by
  rw [List.getD_eq_getElem?_getD]
  show (List.replicate _ _)[i]?.getD [] = _
  rw [List.getElem?_replicate]
  split_ifs <;> rfl

/-- The lists after some elements have been added. -/
theorem getD_foldl_hashtableAdd (ht : HashTable key hash) (xs : List α) :
    (xs.foldl hashtableAdd ht).table.getD i [] = ht.table.getD i [] ++
      if i < initialTableSize then xs.filter fun x => decide (index hash (key x) = i) else [] := by
  induction xs generalizing ht with
  | nil => simp
  | cons x xs ih =>
    have hlen := ht.length_table
    have hadd : (ht.hashtableAdd x).table.getD i [] = ht.table.getD i [] ++
        if i < initialTableSize then [x].filter fun x => decide (index hash (key x) = i) else [] := by
      show (ht.table.modify _ _).getD i [] = _
      rw [List.getD_eq_getElem?_getD, List.getD_eq_getElem?_getD, List.getElem?_modify]
      by_cases hi : i < initialTableSize
      · rw [List.getElem?_eq_getElem (by omega), if_pos hi]
        by_cases hx : index hash (key x) = i
        · simp [hx]
        · simp [hx]
      · rw [List.getElem?_eq_none (by omega), if_neg hi]
        simp
    rw [List.foldl_cons, ih, hadd, List.append_assoc]
    split_ifs
    · rw [← List.filter_append]
      rfl
    · rfl

/-- The elements of one index are those of one list. -/
theorem filter_flatten (table : List (List α)) {n : ℕ}
    (h : ∀ j x, x ∈ table.getD j [] → index hash (key x) = n + j) :
    table.flatten.filter (fun x => decide (index hash (key x) = n + i)) = table.getD i [] := by
  induction table generalizing n i with
  | nil => rfl
  | cons ll table ih =>
    have hhead : ∀ x ∈ ll, index hash (key x) = n := fun x hx => h 0 x hx
    have htail (j : ℕ) (x : α) (hx : x ∈ table.getD j []) : index hash (key x) = n + 1 + j := by
      rw [h (j + 1) x hx]
      omega
    rw [List.flatten_cons, List.filter_append]
    cases i with
    | zero =>
      have hrest : table.flatten.filter (fun x => decide (index hash (key x) = n + 0)) = [] := by
        refine List.filter_eq_nil_iff.mpr fun x hx => ?_
        obtain ⟨ll', hll', hx⟩ := List.mem_flatten.mp hx
        obtain ⟨j, hj⟩ := List.getElem?_of_mem hll'
        have := htail j x (by rw [List.getD_eq_getElem?_getD, hj]; exact hx)
        simp only [decide_eq_true_eq]
        omega
      rw [hrest, List.append_nil]
      exact List.filter_eq_self.mpr fun x hx => by simp [hhead x hx]
    | succ i =>
      have hnone : ll.filter (fun x => decide (index hash (key x) = n + (i + 1))) = [] := by
        refine List.filter_eq_nil_iff.mpr fun x hx => ?_
        have := hhead x hx
        simp only [decide_eq_true_eq]
        omega
      rw [hnone, List.nil_append, ← Nat.add_assoc, Nat.add_right_comm]
      exact ih htail

/-- **Rebuilding.** The elements added in the order of an iterator lie where they were. -/
theorem foldl_hashtableAdd_elements (ht : HashTable key hash) :
    ht.elements.foldl hashtableAdd (hashtableNew key hash) = ht := by
  apply ext_table
  apply List.ext_getElem?
  intro i
  have hlen := ht.length_table
  have hlen' := (ht.elements.foldl hashtableAdd (hashtableNew key hash)).length_table
  by_cases hi : i < initialTableSize
  · have hget := getD_foldl_hashtableAdd (hashtableNew key hash) ht.elements (i := i)
    have hfilter := filter_flatten ht.table (n := 0) (i := i)
      (fun j x hx => by rw [Nat.zero_add]; exact ht.placed j x hx)
    rw [Nat.zero_add] at hfilter
    rw [getD_hashtableNew, List.nil_append, if_pos hi] at hget
    have heq := hget.trans hfilter
    rw [List.getD_eq_getElem?_getD, List.getD_eq_getElem?_getD, List.getElem?_eq_getElem (by omega),
      List.getElem?_eq_getElem (by omega)] at heq
    rw [List.getElem?_eq_getElem (by omega), List.getElem?_eq_getElem (by omega)]
    exact congrArg some heq
  · rw [List.getElem?_eq_none (by omega), List.getElem?_eq_none (by omega)]

/-! ## Changing every element -/

variable {g : α → α}

/-- Every element replaced by another one with the same key. -/
def map (g : α → α) (hg : ∀ x, key (g x) = key x) (ht : HashTable key hash) :
    HashTable key hash where
  table := ht.table.map (List.map g)
  length_table := by rw [List.length_map, ht.length_table]
  placed i x h := by
    rw [List.getD_eq_getElem?_getD, List.getElem?_map] at h
    have hold (y : α) (hy : y ∈ ht.table[i]?.getD []) : hash (key y) % initialTableSize = i :=
      ht.placed i y (by rwa [List.getD_eq_getElem?_getD])
    cases hb : ht.table[i]? with
    | none => rw [hb] at h; exact absurd h List.not_mem_nil
    | some ll =>
      rw [hb] at h hold
      obtain ⟨y, hy, rfl⟩ := List.mem_map.mp h
      rw [hg]
      exact hold y hy

theorem elements_map (hg : ∀ x, key (g x) = key x) :
    (ht.map g hg).elements = ht.elements.map g :=
  List.map_flatten.symm

end HashTable

end DartSync
