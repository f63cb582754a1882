import DartSync.HashTable.Iterator

/-!
# Hash tables as bags

The table of a list of elements that are added in their order (`ofList`). Lookup and removal in it
are those of the list, and an iterator goes through the elements of the list in some order.
-/

namespace DartSync

namespace HashTable

open KeyedList

variable {α κ : Type*} [DecidableEq κ] {key : α → κ} {hash : κ → ℕ} {ht : HashTable key hash}
  {i : ℕ} {k : κ} {x : α} {l : List α}

variable (key hash) in
/-- The elements added to a new table in their order. -/
def ofList (l : List α) : HashTable key hash := l.foldl hashtableAdd (hashtableNew key hash)

omit [DecidableEq κ] in
theorem ofList_nil : ofList key hash [] = hashtableNew key hash := rfl

omit [DecidableEq κ] in
theorem ofList_append_singleton : ofList key hash (l ++ [x]) = (ofList key hash l).hashtableAdd x :=
  List.foldl_append

omit [DecidableEq κ] in
/-- A list of the table has the elements of its index. -/
theorem getD_ofList (hi : i < initialTableSize) : (ofList key hash l).table.getD i [] =
    l.filter fun x => decide (index hash (key x) = i) := by
  unfold ofList
  rw [getD_foldl_hashtableAdd, getD_hashtableNew, if_pos hi, List.nil_append]

omit [DecidableEq κ] in
theorem ext_getD {ht' : HashTable key hash}
    (h : ∀ i < initialTableSize, ht.table.getD i [] = ht'.table.getD i []) : ht = ht' := by
  apply ext_table
  apply List.ext_getElem (ht.length_table.trans ht'.length_table.symm)
  intro i hi hi'
  have hget := h i (by rwa [ht.length_table] at hi)
  rwa [List.getD_eq_getElem?_getD, List.getD_eq_getElem?_getD, List.getElem?_eq_getElem hi,
    List.getElem?_eq_getElem hi'] at hget

theorem findKey_filter_index (k : κ) (l : List α) :
    findKey key k (l.filter fun x => decide (index hash (key x) = index hash k)) =
      findKey key k l := by
  unfold findKey
  rw [List.find?_filter]
  congr 1
  funext x
  by_cases h : key x = k <;> simp [h]

theorem filter_index_eraseKey (k : κ) (l : List α) :
    (eraseKey key k l).filter (fun x => decide (index hash (key x) = i)) =
      if index hash k = i then eraseKey key k (l.filter fun x => decide (index hash (key x) = i))
      else l.filter fun x => decide (index hash (key x) = i) := by
  induction l with
  | nil => split_ifs <;> rfl
  | cons a l ih =>
    rw [eraseKey_cons]
    by_cases ha : key a = k
    · subst ha
      rw [if_pos rfl]
      by_cases hi : index hash (key a) = i
      · rw [if_pos hi, List.filter_cons_of_pos (by simpa using hi), eraseKey_cons, if_pos rfl]
      · rw [if_neg hi, List.filter_cons_of_neg (by simpa using hi)]
    · rw [if_neg ha]
      by_cases hi : index hash (key a) = i
      · rw [List.filter_cons_of_pos (by simpa using hi), List.filter_cons_of_pos (by simpa using hi),
          ih, eraseKey_cons, if_neg ha]
        split_ifs <;> rfl
      · rw [List.filter_cons_of_neg (by simpa using hi), List.filter_cons_of_neg (by simpa using hi),
          ih]

/-- Lookup returns the element of its key that was added first. -/
theorem hashtableGetElement_ofList : (ofList key hash l).hashtableGetElement k = findKey key k l := by
  have hget : (ofList key hash l).table.getD (index hash k) [] =
      l.filter fun x => decide (index hash (key x) = index hash k) :=
    getD_ofList (Nat.mod_lt _ (by decide))
  unfold hashtableGetElement
  rw [hget, bucketSearchFunction_eq]
  exact findKey_filter_index k l

/-- Removal takes this element out. -/
theorem hashtableRemoveElement_ofList :
    (ofList key hash l).hashtableRemoveElement k = ofList key hash (eraseKey key k l) := by
  refine ext_getD fun i hi => ?_
  rw [getD_ofList hi, filter_index_eraseKey, ← getD_ofList hi]
  show ((ofList key hash l).table.modify _ _).getD i [] = _
  rw [getD_modify rfl, bucketSearchFunction_eq]
  rfl

omit [DecidableEq κ] in
theorem elements_foldl_hashtableAdd (ht : HashTable key hash) (l : List α) :
    (l.foldl hashtableAdd ht).elements.Perm (ht.elements ++ l) := by
  induction l generalizing ht with
  | nil => rw [List.append_nil]; rfl
  | cons x l ih =>
    refine (ih (ht.hashtableAdd x)).trans ?_
    exact (elements_hashtableAdd.append_right l).trans List.perm_middle.symm

omit [DecidableEq κ] in
variable (key hash) in
/-- An iterator goes through the elements in some order. -/
theorem elements_ofList (l : List α) : (ofList key hash l).elements.Perm l := by
  have h := elements_foldl_hashtableAdd (hashtableNew key hash) l
  rwa [elements_hashtableNew] at h

end HashTable

end DartSync
