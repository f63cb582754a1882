import DartSync.Library.KeyedList

/-!
# Hash tables

`HashTable.c`: an array of 1023 lists, with each element in the list of its hash. The elements are
hashed and compared by a key. `elements` is the order in which an iterator goes through the table;
every operation is one on this list (`hashtableGetElement_eq` and the lemmas after it).
-/

namespace DartSync

open KeyedList

/-- `INITIAL_TABLE_SIZE` -/
def initialTableSize : ℕ := 1023

variable {α κ : Type*} [DecidableEq κ]

/-- `_HashTable`. An element lies in the bucket of its hash. -/
structure HashTable (key : α → κ) (hash : κ → ℕ) where
  table : List (List α)
  length_table : table.length = initialTableSize
  placed : ∀ i x, x ∈ table.getD i [] → hash (key x) % initialTableSize = i

namespace HashTable

variable {key : α → κ} {hash : κ → ℕ} {ht : HashTable key hash} {k k' : κ} {x y : α}

/-- The index of the bucket of `k`. -/
def index (hash : κ → ℕ) (k : κ) : ℕ := hash k % initialTableSize

/-- `bucket_search_function` -/
def bucketSearchFunction (key : α → κ) (hash : κ → ℕ) (k : κ) (element : α) : Bool :=
  decide (hash (key element) = hash k) && decide (key element = k)

theorem bucketSearchFunction_eq : bucketSearchFunction key hash k = fun x => decide (key x = k) := by
  funext x
  unfold bucketSearchFunction
  by_cases h : key x = k <;> simp [h]

theorem getD_modify {table : List (List α)} {i j : ℕ} {g : List α → List α} (hg : g [] = []) :
    (table.modify i g).getD j [] = if i = j then g (table.getD j []) else table.getD j [] := by
  rw [List.getD_eq_getElem?_getD, List.getD_eq_getElem?_getD, List.getElem?_modify]
  split_ifs with h
  · cases table[j]? <;> simp [hg]
  · cases table[j]? <;> rfl

variable (key hash) in
/-- `hashtable_new` -/
def hashtableNew : HashTable key hash where
  table := List.replicate initialTableSize []
  length_table := List.length_replicate
  placed i x h := by
    rw [List.getD_eq_getElem?_getD, List.getElem?_replicate] at h
    split_ifs at h <;> exact absurd h List.not_mem_nil

/-- `hashtable_get_element` -/
def hashtableGetElement (ht : HashTable key hash) (k : κ) : Option α :=
  (ht.table.getD (index hash k) []).find? (bucketSearchFunction key hash k)

/-- `hashtable_remove_element`, the table without the element it returns. -/
def hashtableRemoveElement (ht : HashTable key hash) (k : κ) : HashTable key hash where
  table := ht.table.modify (index hash k) fun ll => ll.eraseP (bucketSearchFunction key hash k)
  length_table := by rw [List.length_modify, ht.length_table]
  placed i x h := by
    rw [getD_modify rfl] at h
    split_ifs at h
    exacts [ht.placed i x (List.mem_of_mem_eraseP h), ht.placed i x h]

/-- `hashtable_add` -/
def hashtableAdd (ht : HashTable key hash) (element : α) : HashTable key hash where
  table := ht.table.modify (index hash (key element)) fun ll => ll ++ [element]
  length_table := by rw [List.length_modify, ht.length_table]
  placed i x h := by
    rw [List.getD_eq_getElem?_getD, List.getElem?_modify] at h
    have hold : x ∈ ht.table[i]?.getD [] → hash (key x) % initialTableSize = i := fun hx =>
      ht.placed i x (by rwa [List.getD_eq_getElem?_getD])
    split_ifs at h with hi
    · cases hb : ht.table[i]? with
      | none => rw [hb] at h; exact absurd h List.not_mem_nil
      | some ll =>
        rw [hb] at h hold
        rcases List.mem_append.mp h with h | h
        · exact hold h
        · rw [List.mem_singleton.mp h]; exact hi
    · exact hold (by simpa using h)

/-- The element with the key of `element` overwritten: what a caller does through the pointer that
`hashtable_get_element` or an iterator returns. -/
def overwrite (ht : HashTable key hash) (element : α) : HashTable key hash where
  table := ht.table.modify (index hash (key element)) (replaceKey key (key element) element)
  length_table := by rw [List.length_modify, ht.length_table]
  placed i x h := by
    rw [getD_modify rfl] at h
    split_ifs at h with hi
    · rcases mem_of_mem_replaceKey h with rfl | h
      exacts [hi, ht.placed i x h]
    · exact ht.placed i x h

/-- What a `hashtableiterator` goes through. -/
def elements (ht : HashTable key hash) : List α := ht.table.flatten

omit [DecidableEq κ] in
/-- Two tables with the same buckets. -/
theorem ext_table {ht' : HashTable key hash} (h : ht.table = ht'.table) : ht = ht' := by
  cases ht
  cases ht'
  cases h
  rfl

/-- An element overwritten by itself. -/
theorem overwrite_self (h : ht.hashtableGetElement (key x) = some x) : ht.overwrite x = ht := by
  unfold hashtableGetElement at h
  rw [bucketSearchFunction_eq] at h
  apply ext_table
  show ht.table.modify _ _ = _
  apply List.ext_getElem?
  intro i
  rw [List.getElem?_modify]
  cases hb : ht.table[i]? with
  | none => rfl
  | some ll =>
    split_ifs with hi
    · rw [List.getD_eq_getElem?_getD, hi, hb] at h
      have h : findKey key (key x) ll = some x := h
      rw [Option.map_eq_map, Option.map_some, replaceKey_self h]
    · rfl

/-! ## The table as a list -/

/-- The elements of key `k` lie in the bucket `i` of `table`. -/
def OnlyIn (key : α → κ) (table : List (List α)) (k : κ) (i : ℕ) : Prop :=
  ∀ j x, x ∈ table.getD j [] → key x = k → j = i

omit [DecidableEq κ] in
theorem onlyIn (ht : HashTable key hash) (k : κ) : OnlyIn key ht.table k (index hash k) :=
  fun j x hx hk => by rw [← ht.placed j x hx, hk]; rfl

section OnlyIn

variable {table : List (List α)} {b : List α} {i : ℕ}

omit [DecidableEq κ] in
theorem OnlyIn.tail (h : OnlyIn key (b :: table) k (i + 1)) : OnlyIn key table k i :=
  fun j x hx hk => Nat.succ.inj (h (j + 1) x hx hk)

omit [DecidableEq κ] in
theorem OnlyIn.notMem_head (h : OnlyIn key (b :: table) k (i + 1)) : k ∉ b.map key := by
  intro hk
  obtain ⟨x, hx, hk⟩ := List.mem_map.mp hk
  exact absurd (h 0 x hx hk) (Nat.zero_ne_add_one i)

omit [DecidableEq κ] in
theorem OnlyIn.notMem_tail (h : OnlyIn key (b :: table) k 0) : k ∉ table.flatten.map key := by
  intro hk
  obtain ⟨x, hx, hk⟩ := List.mem_map.mp hk
  obtain ⟨c, hc, hx⟩ := List.mem_flatten.mp hx
  obtain ⟨j, hj⟩ := List.getElem?_of_mem hc
  refine absurd (h (j + 1) x ?_ hk) (Nat.succ_ne_zero j)
  rw [List.getD_cons_succ, List.getD_eq_getElem?_getD, hj]
  exact hx

theorem OnlyIn.findKey (h : OnlyIn key table k i) :
    findKey key k (table.getD i []) = findKey key k table.flatten := by
  induction table generalizing i with
  | nil => rfl
  | cons b table ih =>
    rw [List.flatten_cons, findKey_append]
    cases i with
    | zero => rw [findKey_eq_none.mpr h.notMem_tail, Option.or_none]; rfl
    | succ i => rw [findKey_eq_none.mpr h.notMem_head, Option.none_or, ← ih h.tail]; rfl

theorem OnlyIn.eraseKey (h : OnlyIn key table k i) :
    (table.modify i (eraseKey key k)).flatten = KeyedList.eraseKey key k table.flatten := by
  induction table generalizing i with
  | nil => rw [List.modify_nil]; rfl
  | cons b table ih =>
    rw [List.flatten_cons]
    cases i with
    | zero => rw [eraseKey_append_left h.notMem_tail]; rfl
    | succ i => rw [eraseKey_append_right h.notMem_head, ← ih h.tail]; rfl

theorem OnlyIn.replaceKey (h : OnlyIn key table k i) :
    (table.modify i (replaceKey key k x)).flatten = KeyedList.replaceKey key k x table.flatten := by
  induction table generalizing i with
  | nil => rw [List.modify_nil]; rfl
  | cons b table ih =>
    rw [List.flatten_cons]
    cases i with
    | zero => rw [replaceKey_append_left h.notMem_tail]; rfl
    | succ i => rw [replaceKey_append_right h.notMem_head, ← ih h.tail]; rfl

theorem flatten_modify_append (hi : i < table.length) :
    (table.modify i (fun ll => ll ++ [x])).flatten.Perm (x :: table.flatten) := by
  induction table generalizing i with
  | nil => simp at hi
  | cons b table ih =>
    rw [List.flatten_cons]
    cases i with
    | zero =>
      show (b ++ [x] ++ table.flatten).Perm _
      rw [List.append_assoc]
      exact List.perm_middle
    | succ i =>
      have := ih (i := i) (by simpa using hi)
      exact (this.append_left b).trans List.perm_middle

end OnlyIn

/-- **Lookup** is the search of the list. -/
theorem hashtableGetElement_eq : ht.hashtableGetElement k = findKey key k ht.elements := by
  unfold hashtableGetElement
  rw [bucketSearchFunction_eq]
  exact (ht.onlyIn k).findKey

omit [DecidableEq κ] in
theorem elements_hashtableNew : (hashtableNew key hash).elements = [] := by
  show (List.replicate initialTableSize []).flatten = _
  rw [List.flatten_replicate_nil]

theorem elements_hashtableRemoveElement :
    (ht.hashtableRemoveElement k).elements = eraseKey key k ht.elements := by
  refine Eq.trans ?_ (ht.onlyIn k).eraseKey
  show (ht.table.modify _ _).flatten = _
  rw [bucketSearchFunction_eq]
  rfl

theorem elements_overwrite :
    (ht.overwrite x).elements = replaceKey key (key x) x ht.elements :=
  (ht.onlyIn (key x)).replaceKey

omit [DecidableEq κ] in
theorem elements_hashtableAdd : (ht.hashtableAdd x).elements.Perm (x :: ht.elements) :=
  flatten_modify_append (by rw [ht.length_table]; exact Nat.mod_lt _ (by decide))

end HashTable

end DartSync
