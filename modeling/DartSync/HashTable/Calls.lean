import DartSync.HashTable.Memory

/-!
# Calls on hash tables

What calls of the functions of `HashTable.c` do is said on the list of the elements in the order they
were added (`bagCall`). Whatever the sequence of calls, the table in memory returns the same answers,
and an iterator returns what remains, each element once: `hashtable_refines_bag`.
-/

namespace DartSync

open Memory

namespace HashTableMem

variable {α : Type} {hash : α → ℤ} {equals : α → α → Bool} {h : IsHashing hash equals}
  {mem : HashTableMem α} {ht : HashTable h.key h.hashKey} {table : List LinkedList}
  {heap : NodeHeap α} {chains : List (List (ℕ × α))} {l : List α}

/-! ## Iterators -/

theorem Stores.drop (hstores : Stores table heap chains) (n : ℕ) :
    Stores (table.drop n) heap (chains.drop n) where
  length_eq := by rw [List.length_drop, List.length_drop, hstores.length_eq]
  represents i ll cs hll hcs := by
    rw [List.getElem?_drop] at hll hcs
    exact hstores.represents (n + i) ll cs hll hcs
  disjoint i j cs ds hij hcs hds := by
    rw [List.getElem?_drop] at hcs hds
    exact hstores.disjoint (n + i) (n + j) cs ds (fun heq => hij (Nat.add_left_cancel heq)) hcs hds

/-- The iterator in memory stands where `it` stands. -/
def IteratorAt (chains : List (List (ℕ × α))) (hti : HashTableIteratorMem)
    (it : HashTable.Iterator α) : Prop :=
  hti.index = it.index ∧ ∃ before after, chains[hti.index]? = some (before ++ after) ∧
    hti.ln = lastOf none before ∧ it.pending = after.map Prod.snd

/-- The first list with a node is the first one with an element. -/
theorem nonemptyList_eq (hstores : Stores table heap chains) (i : ℕ) :
    match HashTable.nonemptyList (chains.map (List.map Prod.snd)) i with
    | none => nonemptyList table i = none
    | some it => ∃ k cs, nonemptyList table i = some (i + k) ∧ it.index = i + k ∧
        chains[k]? = some cs ∧ it.pending = cs.map Prod.snd ∧ cs ≠ [] := by
  induction table generalizing i chains with
  | nil =>
    cases chains with
    | nil => rfl
    | cons cs chains => exact absurd hstores.length_eq.symm (Nat.succ_ne_zero chains.length)
  | cons ll table ih =>
    cases chains with
    | nil => exact absurd hstores.length_eq (Nat.succ_ne_zero table.length)
    | cons cs chains =>
      have hsize : ll.size = cs.length := (hstores.represents 0 ll cs rfl rfl).size_eq
      have hiff : 0 < linkedlistLength ll ↔ 0 < (cs.map Prod.snd).length := by
        rw [List.length_map, linkedlistLength, hsize]
        omega
      rw [List.map_cons, HashTable.nonemptyList, nonemptyList]
      by_cases hpos : 0 < (cs.map Prod.snd).length
      · rw [if_pos hpos, if_pos (hiff.mpr hpos)]
        refine ⟨0, cs, rfl, rfl, rfl, rfl, List.ne_nil_of_length_pos ?_⟩
        rwa [List.length_map] at hpos
      · rw [if_neg hpos, if_neg (mt hiff.mp hpos)]
        have hrest := ih (hstores.drop 1) (i + 1)
        cases hfind : HashTable.nonemptyList (chains.map (List.map Prod.snd)) (i + 1) with
        | none =>
          simp only [List.drop_succ_cons, List.drop_zero] at hrest
          rw [hfind] at hrest
          exact hrest
        | some it =>
          simp only [List.drop_succ_cons, List.drop_zero] at hrest
          rw [hfind] at hrest
          obtain ⟨k, ds, hk, hindex, hds, hpending, hne⟩ := hrest
          refine ⟨k + 1, ds, ?_, ?_, hds, hpending, hne⟩
          · rw [hk, Nat.add_right_comm]
            rfl
          · rw [hindex, Nat.add_right_comm]
            rfl

/-- `hashtableiterator_next` -/
theorem hashtableiteratorNext_eq (hstores : Stores mem.table mem.heap chains)
    (hmap : chains.map (List.map Prod.snd) = ht.table) {hti : HashTableIteratorMem}
    {it : HashTable.Iterator α} (hit : IteratorAt chains hti it) :
    match HashTable.hashtableIteratorNext ht it with
    | none => ∃ hti', mem.hashtableiteratorNext hti = .ok (none, hti')
    | some (x, it') => ∃ hti', mem.hashtableiteratorNext hti = .ok (some x, hti') ∧
        IteratorAt chains hti' it' := by
  obtain ⟨ln, index⟩ := hti
  obtain ⟨pending, _⟩ := it
  obtain ⟨hindex, before, after, hchain, hln, hpending⟩ := hit
  cases hindex
  cases hln
  cases hpending
  obtain ⟨ll, hll, hrep⟩ := hstores.exists_list hchain
  unfold HashTable.hashtableIteratorNext HashTableMem.hashtableiteratorNext
  cases after with
  | cons d after =>
    refine ⟨⟨some d.1, index⟩, bind_eq_ok.mpr ⟨ll, readCell_eq hll,
      bind_eq_ok.mpr ⟨_, hrep.linkedlistiteratorNext, rfl⟩⟩, rfl, before ++ [d], after, ?_,
      lastOf_concat.symm, rfl⟩
    rw [List.append_assoc]
    exact hchain
  | nil =>
    have hfind := nonemptyList_eq (hstores.drop (index + 1)) (index + 1)
    rw [List.map_drop, hmap] at hfind
    dsimp only [List.map_nil]
    cases hnonempty : HashTable.nonemptyList (ht.table.drop (index + 1)) (index + 1) with
    | none =>
      rw [hnonempty] at hfind
      refine ⟨⟨lastOf none before, index⟩, bind_eq_ok.mpr ⟨ll, readCell_eq hll,
        bind_eq_ok.mpr ⟨_, hrep.linkedlistiteratorNext, ?_⟩⟩⟩
      dsimp only
      rw [hfind]
      rfl
    | some it =>
      rw [hnonempty] at hfind
      obtain ⟨k, ds, hk, hindex, hds, hpending, hne⟩ := hfind
      obtain ⟨pending, _⟩ := it
      cases hindex
      cases hpending
      obtain ⟨d, ds, rfl⟩ := List.exists_cons_of_ne_nil hne
      rw [List.getElem?_drop] at hds
      obtain ⟨ll', hll', hrep'⟩ := hstores.exists_list hds
      -- the iterator of that list is at its root, in front of everything
      rw [← List.nil_append (d :: ds)] at hrep'
      refine ⟨⟨some d.1, index + 1 + k⟩, bind_eq_ok.mpr ⟨ll, readCell_eq hll,
        bind_eq_ok.mpr ⟨_, hrep.linkedlistiteratorNext, ?_⟩⟩, rfl, [d], ds, hds, rfl, rfl⟩
      dsimp only
      rw [hk]
      exact bind_eq_ok.mpr ⟨ll', readCell_eq hll',
        bind_eq_ok.mpr ⟨_, hrep'.linkedlistiteratorNext, rfl⟩⟩

/-- The rounds of an iterator. -/
theorem iterate_eq (hstores : Stores mem.table mem.heap chains)
    (hmap : chains.map (List.map Prod.snd) = ht.table) {hti : HashTableIteratorMem}
    {it : HashTable.Iterator α} (hit : IteratorAt chains hti it) (fuel : ℕ) {xs : List α}
    (hiterate : HashTable.iterate ht fuel it = some xs) : mem.iterate fuel hti = .ok xs := by
  induction fuel generalizing hti it xs with
  | zero => cases hiterate
  | succ fuel ih =>
    have hnext := hashtableiteratorNext_eq hstores hmap hit
    unfold HashTable.iterate at hiterate
    unfold HashTableMem.iterate
    cases hstep : HashTable.hashtableIteratorNext ht it with
    | none =>
      rw [hstep] at hnext hiterate
      cases hiterate
      obtain ⟨hti', hnext⟩ := hnext
      exact bind_eq_ok.mpr ⟨_, hnext, rfl⟩
    | some step =>
      obtain ⟨x, it'⟩ := step
      rw [hstep] at hnext hiterate
      obtain ⟨hti', hnext, hit'⟩ := hnext
      obtain ⟨xs', hrest, rfl⟩ := Option.map_eq_some_iff.mp hiterate
      exact bind_eq_ok.mpr ⟨_, hnext, bind_eq_ok.mpr ⟨xs', ih hit' hrest, rfl⟩⟩

/-- A new iterator goes through the elements of the table. -/
theorem Represents.iterate (hmem : mem.Represents h ht) :
    (mem.hashtableiteratorNew = none ∧ ht.elements = []) ∨
      ∃ hti, mem.hashtableiteratorNew = some hti ∧ ht.elements ≠ [] ∧
        ∀ fuel, ht.elements.length < fuel → mem.iterate fuel hti = .ok ht.elements := by
  obtain ⟨chains, hstores, hmap⟩ := hmem.stores
  have hfind := nonemptyList_eq hstores 0
  rw [hmap] at hfind
  unfold hashtableiteratorNew
  cases hnew : HashTable.nonemptyList ht.table 0 with
  | none =>
    rw [hnew] at hfind
    exact Or.inl ⟨by rw [hfind]; rfl, HashTable.nonemptyList_eq_none hnew⟩
  | some it =>
    rw [hnew] at hfind
    obtain ⟨k, cs, hk, hindex, hcs, hpending, hne⟩ := hfind
    have hit : IteratorAt chains ⟨none, 0 + k⟩ it :=
      ⟨hindex.symm, [], cs, by rw [Nat.zero_add]; exact hcs, rfl, hpending⟩
    refine Or.inr ⟨⟨none, 0 + k⟩, by rw [hk]; rfl, fun hnil => ?_, fun fuel hfuel => ?_⟩
    · obtain ⟨_, -, hpending, hflat⟩ := HashTable.nonemptyList_eq_some hnew
      exact hpending (List.append_eq_nil_iff.mp (hflat.symm.trans hnil)).1
    · rcases HashTable.iterate_hashtableIteratorNew hfuel with ⟨hnone, -⟩ | ⟨it', hsome, hiterate⟩
      · exact absurd (hnew.symm.trans hnone) (Option.some_ne_none it)
      · have hit' : it = it' := Option.some.inj (hnew.symm.trans hsome)
        subst hit'
        exact iterate_eq hstores hmap hit fuel hiterate

/-! ## Sequences of calls -/

inductive HashTableCall (α : Type)
  | add (element : α)
  | removeElement (e : α)
  | getElement (e : α)
  | removeAll

/-- What a call does to the elements in the order they were added, and what it returns. -/
def bagCall (equals : α → α → Bool) (l : List α) : HashTableCall α → Option α × List α
  | .add element => (none, l ++ [element])
  | .removeElement e => (l.find? (equals · e), l.eraseP (equals · e))
  | .getElement e => (l.find? (equals · e), l)
  | .removeAll => (none, [])

/-- What the code does; `hint` is where `malloc` looks first. -/
def hashtableCall (hash : α → ℤ) (equals : α → α → Bool) (mem : HashTableMem α) (hint : ℕ) :
    HashTableCall α → Except Abort (Option α × HashTableMem α)
  | .add element => (hashtableAdd hash mem hint element).map (none, ·)
  | .removeElement e => hashtableRemoveElement hash equals mem e
  | .getElement e => (hashtableGetElement hash equals mem e).map (·, mem)
  | .removeAll => (hashtableRemoveAll mem).map (none, ·)

/-- The calls one after another, with the answer of each. -/
def bagCalls (equals : α → α → Bool) (l : List α) :
    List (HashTableCall α) → List (Option α) × List α
  | [] => ([], l)
  | call :: calls =>
    let (answer, l) := bagCall equals l call
    let (answers, l) := bagCalls equals l calls
    (answer :: answers, l)

/-- The calls one after another, each with its hint to `malloc`. -/
def hashtableCalls (hash : α → ℤ) (equals : α → α → Bool) (mem : HashTableMem α) :
    List (HashTableCall α × ℕ) → Except Abort (List (Option α) × HashTableMem α)
  | [] => .ok ([], mem)
  | (call, hint) :: calls => do
    let (answer, mem) ← hashtableCall hash equals mem hint call
    let (answers, mem) ← hashtableCalls hash equals mem calls
    return (answer :: answers, mem)

theorem find?_equals (h : IsHashing hash equals) (e : α) (l : List α) :
    KeyedList.findKey h.key (h.key e) l = l.find? (equals · e) := by
  unfold KeyedList.findKey
  congr 1
  funext x
  rw [Bool.eq_iff_iff, decide_eq_true_iff]
  exact h.key_eq

theorem eraseP_equals (h : IsHashing hash equals) (e : α) (l : List α) :
    KeyedList.eraseKey h.key (h.key e) l = l.eraseP (equals · e) := by
  unfold KeyedList.eraseKey
  congr 1
  funext x
  rw [Bool.eq_iff_iff, decide_eq_true_iff]
  exact h.key_eq

/-- What one call preserves. -/
theorem represents_hashtableCall (h : IsHashing hash equals)
    (hmem : mem.Represents h (HashTable.ofList h.key h.hashKey l)) (hint : ℕ)
    (call : HashTableCall α) :
    ∃ mem', hashtableCall hash equals mem hint call = .ok ((bagCall equals l call).1, mem') ∧
      mem'.Represents h (HashTable.ofList h.key h.hashKey (bagCall equals l call).2) := by
  cases call with
  | add element =>
    obtain ⟨mem', hadd, hmem'⟩ := hmem.hashtableAdd hint element
    rw [← HashTable.ofList_append_singleton] at hmem'
    exact ⟨mem', by rw [hashtableCall, hadd]; rfl, hmem'⟩
  | removeElement e =>
    obtain ⟨mem', hremove, hmem'⟩ := hmem.hashtableRemoveElement e
    rw [HashTable.hashtableGetElement_ofList, find?_equals] at hremove
    rw [HashTable.hashtableRemoveElement_ofList, eraseP_equals] at hmem'
    exact ⟨mem', hremove, hmem'⟩
  | getElement e =>
    have hget := hmem.hashtableGetElement e
    rw [HashTable.hashtableGetElement_ofList, find?_equals] at hget
    exact ⟨mem, by rw [hashtableCall, hget]; rfl, hmem⟩
  | removeAll =>
    obtain ⟨mem', hremove, hmem'⟩ := hmem.hashtableRemoveAll
    exact ⟨mem', by rw [hashtableCall, hremove]; rfl, hmem'⟩

/-- What a sequence of calls preserves. -/
theorem represents_hashtableCalls (h : IsHashing hash equals)
    (hmem : mem.Represents h (HashTable.ofList h.key h.hashKey l))
    (calls : List (HashTableCall α × ℕ)) :
    ∃ mem', hashtableCalls hash equals mem calls =
        .ok ((bagCalls equals l (calls.map Prod.fst)).1, mem') ∧
      mem'.Represents h
        (HashTable.ofList h.key h.hashKey (bagCalls equals l (calls.map Prod.fst)).2) := by
  induction calls generalizing mem l with
  | nil => exact ⟨mem, rfl, hmem⟩
  | cons call calls ih =>
    obtain ⟨call, hint⟩ := call
    obtain ⟨mem1, hcall, hmem1⟩ := represents_hashtableCall h hmem hint call
    obtain ⟨mem', hcalls, hmem'⟩ := ih hmem1
    exact ⟨mem', bind_eq_ok.mpr ⟨_, hcall, bind_eq_ok.mpr ⟨_, hcalls, rfl⟩⟩, hmem'⟩

/-- **Hash tables are keyed bags.** Every call on a new table returns what it returns on the list of
the elements, wherever `malloc` puts the nodes. In the end there is an iterator unless the table is
empty, and it returns the elements of the list in some order. -/
theorem hashtable_refines_bag (hash : α → ℤ) (equals : α → α → Bool) (h : IsHashing hash equals)
    (heap : NodeHeap α) (tail : ℕ → Pointer) (calls : List (HashTableCall α × ℕ)) :
    ∃ mem, hashtableCalls hash equals (hashtableNew heap tail) calls =
        .ok ((bagCalls equals [] (calls.map Prod.fst)).1, mem) ∧
      (mem.hashtableiteratorNew = none ↔ (bagCalls equals [] (calls.map Prod.fst)).2 = []) ∧
      ∀ hti, mem.hashtableiteratorNew = some hti →
        ∃ xs, xs.Perm (bagCalls equals [] (calls.map Prod.fst)).2 ∧
          ∀ fuel, xs.length < fuel → mem.iterate fuel hti = .ok xs := by
  have hnew := represents_hashtableNew h heap tail
  rw [← HashTable.ofList_nil] at hnew
  obtain ⟨mem, hcalls, hmem⟩ := represents_hashtableCalls h hnew calls
  have hperm := HashTable.elements_ofList h.key h.hashKey (bagCalls equals [] (calls.map Prod.fst)).2
  refine ⟨mem, hcalls, ?_, fun hti hnew => ?_⟩
  · rcases hmem.iterate with ⟨hnone, hnil⟩ | ⟨hti, hsome, hne, -⟩
    · rw [hnil] at hperm
      exact ⟨fun _ => hperm.symm.eq_nil, fun _ => hnone⟩
    · constructor
      · intro hnone
        rw [hsome] at hnone
        cases hnone
      · intro hnil
        exact absurd (List.length_eq_zero_iff.mp (by rw [hperm.length_eq, hnil]; rfl)) hne
  · rcases hmem.iterate with ⟨hnone, -⟩ | ⟨hti', hsome, -, hiterate⟩
    · rw [hnone] at hnew
      cases hnew
    · rw [hsome] at hnew
      cases hnew
      exact ⟨_, hperm, hiterate⟩

namespace BagExample

/-- Numbers that are equal when they have the same last digit, and lie in one list. -/
theorem isHashing : IsHashing (fun _ : ℕ => 5) (fun x y => decide (x % 10 = y % 10)) where
  equivalence := ⟨fun x => by simp, fun h => by simpa using (by simpa using h : _ = _).symm,
    fun h h' => by simpa using (by simpa using h : _ = _).trans (by simpa using h' : _ = _)⟩
  hash_nonneg _ := by decide
  hash_eq _ _ _ := rfl

def calls : List (HashTableCall ℕ × ℕ) :=
  [(.add 3, 0), (.add 14, 0), (.add 13, 7), (.removeElement 23, 0), (.add 3, 0), (.getElement 43, 0)]

end BagExample

open BagExample in
theorem hashtable_refines_bag_reused : ∃ mem,
    hashtableCalls (fun _ => 5) (fun x y => decide (x % 10 = y % 10))
      (hashtableNew Heap.empty fun _ => some 9) calls =
        .ok ([none, none, none, some 3, none, some 13], mem) ∧
      (mem.hashtableiteratorNew = none ↔ [14, 13, 3] = []) ∧
      ∀ hti, mem.hashtableiteratorNew = some hti →
        ∃ xs, xs.Perm [14, 13, 3] ∧ ∀ fuel, xs.length < fuel → mem.iterate fuel hti = .ok xs :=
  hashtable_refines_bag _ _ isHashing Heap.empty (fun _ => some 9) calls

end HashTableMem

end DartSync
