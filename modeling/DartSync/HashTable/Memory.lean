import DartSync.HashTable.Bag
import DartSync.LinkedList

/-!
# Hash tables in memory

The functions of `HashTable.c` on an array of linked lists in a heap, with the hash function and the
comparison that the table was made with. A table in memory stands for one of `HashTable`, whose keys
are the classes of equal elements (`HashTableMem.Represents`), so by `Bag` for the list of the
elements in the order they were added: `hashtable_refines_bag`.
-/

namespace DartSync

open Memory

variable {α : Type}

/-! ## The functions of `HashTable.c` -/

/-- `_HashTable`; `hash` and `equals` are given to every function. -/
structure HashTableMem (α : Type) where
  table : List LinkedList
  tablesize : ℤ
  heap : NodeHeap α

/-- `_HashTableIterator`: where its list iterator stands in the list at `index`. -/
structure HashTableIteratorMem where
  ln : Pointer
  index : ℕ

namespace HashTableMem

/-- `bucket_search_function` -/
def bucketSearchFunction (hash : α → ℤ) (equals : α → α → Bool) (key element : α) : Bool :=
  decide (hash element = hash key) && equals element key

/-- `hashtable_new`; `tail` is what `malloc` finds in the lists. -/
def hashtableNew (heap : NodeHeap α) (tail : ℕ → Pointer) : HashTableMem α where
  table := (List.range initialTableSize).map fun i => linkedlistNew (tail i)
  tablesize := initialTableSize
  heap := heap

/-- `hashtable_get_element` -/
def hashtableGetElement (hash : α → ℤ) (equals : α → α → Bool) (ht : HashTableMem α) (e : α) :
    Except Abort (Option α) := do
  let ll ← readCell ht.table ((hash e).tmod ht.tablesize)
  linkedlistGet ht.heap ll (bucketSearchFunction hash equals e)

/-- `hashtable_remove_element` -/
def hashtableRemoveElement (hash : α → ℤ) (equals : α → α → Bool) (ht : HashTableMem α) (e : α) :
    Except Abort (Option α × HashTableMem α) := do
  let ll ← readCell ht.table ((hash e).tmod ht.tablesize)
  let (element, ll, heap) ← linkedlistRemove ht.heap ll (bucketSearchFunction hash equals e)
  let table ← writeCell ht.table ((hash e).tmod ht.tablesize) ll
  return (element, { ht with table := table, heap := heap })

/-- `hashtable_add` -/
def hashtableAdd (hash : α → ℤ) (ht : HashTableMem α) (hint : ℕ) (element : α) :
    Except Abort (HashTableMem α) := do
  let index := (hash element).tmod ht.tablesize
  let ll ← readCell ht.table index
  let (ll, heap) ← linkedlistAppend ht.heap hint ll element
  let table ← writeCell ht.table index ll
  return { ht with table := table, heap := heap }

/-- The loop of `hashtable_remove_all`. -/
def removeAllLists (heap : NodeHeap α) : List LinkedList → Except Abort (List LinkedList × NodeHeap α)
  | [] => .ok ([], heap)
  | ll :: table => do
    let (ll, heap) ← linkedlistRemoveAll heap ll
    let (table, heap) ← removeAllLists heap table
    return (ll :: table, heap)

/-- `hashtable_remove_all` -/
def hashtableRemoveAll (ht : HashTableMem α) : Except Abort (HashTableMem α) := do
  let (table, heap) ← removeAllLists ht.heap ht.table
  return { ht with table := table, heap := heap }

/-- The loop that looks for a list that is not empty, on the lists from `i` on. -/
def nonemptyList : List LinkedList → ℕ → Option ℕ
  | [], _ => none
  | ll :: table, i => if 0 < linkedlistLength ll then some i else nonemptyList table (i + 1)

/-- `hashtableiterator_new` -/
def hashtableiteratorNew (ht : HashTableMem α) : Option HashTableIteratorMem :=
  (nonemptyList ht.table 0).map fun i => ⟨none, i⟩

/-- `hashtableiterator_next` -/
def hashtableiteratorNext (ht : HashTableMem α) (hti : HashTableIteratorMem) :
    Except Abort (Option α × HashTableIteratorMem) := do
  let ll ← readCell ht.table hti.index
  let (element, ln) ← linkedlistiteratorNext ht.heap ll hti.ln
  match element with
  | some element => pure (some element, { hti with ln := ln })
  | none =>
    match nonemptyList (ht.table.drop (hti.index + 1)) (hti.index + 1) with
    | none => pure (none, { hti with ln := ln })
    | some i => do
      let ll ← readCell ht.table i
      let (element, ln) ← linkedlistiteratorNext ht.heap ll none
      return (element, ⟨ln, i⟩)

/-- What `while ((element = hashtableiterator_next(iterator)))` goes through, in at most `fuel`
rounds. -/
def iterate (ht : HashTableMem α) : ℕ → HashTableIteratorMem → Except Abort (List α)
  | 0, _ => .error .diverges
  | fuel + 1, hti => do
    let (element, hti) ← ht.hashtableiteratorNext hti
    match element with
    | none => pure []
    | some element => do
      let elements ← ht.iterate fuel hti
      return element :: elements

/-! ## The lists of a table -/

/-- The lists are chains of nodes, each of its own nodes. -/
structure Stores (table : List LinkedList) (heap : NodeHeap α) (chains : List (List (ℕ × α))) : Prop where
  length_eq : table.length = chains.length
  represents : ∀ (i : ℕ) (ll : LinkedList) (cs : List (ℕ × α)),
    table[i]? = some ll → chains[i]? = some cs → ll.Represents heap cs
  disjoint : ∀ (i j : ℕ) (cs ds : List (ℕ × α)), i ≠ j → chains[i]? = some cs → chains[j]? = some ds →
    ∀ p ∈ cs.map Prod.fst, p ∉ ds.map Prod.fst

variable {table : List LinkedList} {heap heap' : NodeHeap α} {chains : List (List (ℕ × α))}
  {cs cs' : List (ℕ × α)} {ll ll' : LinkedList} {i : ℕ}

theorem Stores.exists_of_lt (h : Stores table heap chains) (hi : i < table.length) :
    ∃ ll cs, table[i]? = some ll ∧ chains[i]? = some cs ∧ ll.Represents heap cs := by
  have hi' : i < chains.length := h.length_eq ▸ hi
  exact ⟨table[i], chains[i], List.getElem?_eq_getElem hi, List.getElem?_eq_getElem hi',
    h.represents i _ _ (List.getElem?_eq_getElem hi) (List.getElem?_eq_getElem hi')⟩

/-- The list whose chain is in the bucket. -/
theorem Stores.exists_list (h : Stores table heap chains) (hcs : chains[i]? = some cs) :
    ∃ ll, table[i]? = some ll ∧ ll.Represents heap cs := by
  obtain ⟨ll, cs', hll, hcs', hrep⟩ :=
    h.exists_of_lt (h.length_eq ▸ (List.getElem?_eq_some_iff.mp hcs).1)
  obtain rfl := Option.some.inj (hcs'.symm.trans hcs)
  exact ⟨ll, hll, hrep⟩

/-- The lists other than a changed one. -/
theorem Stores.frame {j : ℕ} {ds : List (ℕ × α)} (h : Stores table heap chains) (hne : i ≠ j)
    (hcs : chains[i]? = some cs) (hds : chains[j]? = some ds) (hll : table[j]? = some ll)
    (hframe : ∀ q, q ∉ cs.map Prod.fst → heap.cell q ≠ none → heap'.cell q = heap.cell q) :
    ll.Represents heap' ds := by
  have hrep := h.represents j ll ds hll hds
  refine hrep.congr fun q hq => hframe q (fun hmem => h.disjoint i j cs ds hne hcs hds q hmem hq) ?_
  obtain ⟨c, hc, rfl⟩ := List.mem_map.mp hq
  obtain ⟨node, hnode, -⟩ := hrep.segment.cell_of_mem hc
  rw [hnode]
  exact Option.some_ne_none node

/-- One list changed, to nodes that it had or that were free. -/
theorem Stores.set (h : Stores table heap chains) (hcs : chains[i]? = some cs)
    (hll' : ll'.Represents heap' cs')
    (hnew : ∀ q ∈ cs'.map Prod.fst, q ∈ cs.map Prod.fst ∨ heap.cell q = none)
    (hframe : ∀ q, q ∉ cs.map Prod.fst → heap.cell q ≠ none → heap'.cell q = heap.cell q) :
    Stores (table.set i ll') heap' (chains.set i cs') where
  length_eq := by rw [List.length_set, List.length_set, h.length_eq]
  represents j ll ds hll hds := by
    rw [List.getElem?_set] at hll hds
    by_cases hij : i = j
    · subst hij
      rw [if_pos rfl] at hll hds
      split_ifs at hll with hlt
      · rw [if_pos (h.length_eq ▸ hlt)] at hds
        cases hll
        cases hds
        exact hll'
    · rw [if_neg hij] at hll hds
      exact h.frame hij hcs hds hll hframe
  disjoint := by
    have hother : ∀ (j : ℕ) (ds : List (ℕ × α)), i ≠ j → chains[j]? = some ds →
        ∀ p ∈ cs'.map Prod.fst, p ∉ ds.map Prod.fst := by
      intro j ds hij hds p hp hmem
      rcases hnew p hp with hp | hfree
      · exact h.disjoint i j cs ds hij hcs hds p hp hmem
      · have hlt : j < table.length := h.length_eq ▸ (List.getElem?_eq_some_iff.mp hds).1
        obtain ⟨c, hc, rfl⟩ := List.mem_map.mp hmem
        obtain ⟨node, hnode, -⟩ :=
          (h.represents j _ ds (List.getElem?_eq_getElem hlt) hds).segment.cell_of_mem hc
        rw [hfree] at hnode
        cases hnode
    have hself : ∀ ds, (chains.set i cs')[i]? = some ds → ds = cs' := by
      intro ds hds
      rw [List.getElem?_set_self (List.getElem?_eq_some_iff.mp hcs).1] at hds
      exact (Option.some.inj hds).symm
    intro j k ds es hjk hds hes p hp hmem
    by_cases hij : i = j
    · subst hij
      rw [hself ds hds] at hp
      rw [List.getElem?_set_ne hjk] at hes
      exact hother k es hjk hes p hp hmem
    · rw [List.getElem?_set_ne hij] at hds
      by_cases hik : i = k
      · subst hik
        rw [hself es hes] at hmem
        exact hother j ds hij hds p hmem hp
      · rw [List.getElem?_set_ne hik] at hes
        exact h.disjoint j k ds es hjk hds hes p hp hmem

/-- Lists without nodes. -/
theorem stores_replicate (h : ∀ ll ∈ table, ll.Represents heap []) :
    Stores table heap (List.replicate table.length []) where
  length_eq := List.length_replicate.symm
  represents i ll cs hll hcs := by
    rw [List.getElem?_replicate] at hcs
    split_ifs at hcs
    cases hcs
    exact h ll (List.mem_of_getElem? hll)
  disjoint i j cs ds _ hcs _ p hp := by
    rw [List.getElem?_replicate] at hcs
    split_ifs at hcs
    cases hcs
    exact absurd hp List.not_mem_nil

/-- `hashtable_remove_all` leaves lists without nodes. -/
theorem removeAllLists_eq (h : Stores table heap chains) :
    ∃ table' heap', removeAllLists heap table = .ok (table', heap') ∧
      table'.length = table.length ∧ ∀ ll ∈ table', ll.Represents heap' [] := by
  induction table generalizing heap chains with
  | nil => exact ⟨[], heap, rfl, rfl, fun ll hll => absurd hll List.not_mem_nil⟩
  | cons ll table ih =>
    cases chains with
    | nil => exact absurd h.length_eq (Nat.succ_ne_zero table.length)
    | cons cs chains =>
      obtain ⟨ll', heap1, hremove, hll', hframe⟩ := (h.represents 0 ll cs rfl rfl).linkedlistRemoveAll
      have htail : Stores table heap1 chains := {
        length_eq := Nat.succ.inj h.length_eq
        represents := fun i ll ds hll hds => h.frame (i := 0) (j := i + 1) (Nat.succ_ne_zero i).symm
          rfl hds hll fun q hq _ => hframe q hq
        disjoint := fun i j cs ds hij hcs hds =>
          h.disjoint (i + 1) (j + 1) cs ds (fun heq => hij (Nat.succ.inj heq)) hcs hds }
      obtain ⟨table', heap', hloop, hlength, hempty⟩ := ih htail
      refine ⟨ll' :: table', heap', ?_, congrArg Nat.succ hlength, fun ll hll => ?_⟩
      · exact bind_eq_ok.mpr ⟨_, hremove, bind_eq_ok.mpr ⟨_, hloop, rfl⟩⟩
      · rcases List.mem_cons.mp hll with rfl | hll
        · exact hll'.congr fun q hq => absurd hq List.not_mem_nil
        · exact hempty ll hll

/-! ## The elements of a table -/

/-- What a table needs of its functions: `equals` is an equivalence, `hash` is not negative and does
not tell equal elements apart. -/
structure IsHashing (hash : α → ℤ) (equals : α → α → Bool) : Prop where
  equivalence : Equivalence fun x y => equals x y = true
  hash_nonneg : ∀ x, 0 ≤ hash x
  hash_eq : ∀ x y, equals x y = true → hash x = hash y

variable {hash : α → ℤ} {equals : α → α → Bool}

namespace IsHashing

/-- Equal elements. -/
def setoid (h : IsHashing hash equals) : Setoid α := ⟨fun x y => equals x y = true, h.equivalence⟩

/-- The class of the elements that are equal to `x`. -/
def key (h : IsHashing hash equals) (x : α) : Quotient h.setoid := Quotient.mk _ x

/-- The hash of a class. -/
def hashKey (h : IsHashing hash equals) : Quotient h.setoid → ℕ :=
  Quotient.lift (fun x => (hash x).toNat) fun x y hxy => by rw [h.hash_eq x y hxy]

theorem key_eq (h : IsHashing hash equals) {x y : α} : h.key x = h.key y ↔ equals x y = true :=
  ⟨fun heq => Quotient.exact heq, fun hxy => Quotient.sound (s := h.setoid) hxy⟩

instance (h : IsHashing hash equals) : DecidableEq (Quotient h.setoid) :=
  letI : ∀ x y : α, Decidable (h.setoid.r x y) := fun x y =>
    inferInstanceAs (Decidable (equals x y = true))
  Quotient.decidableEq

/-- Elements are searched by their class. -/
theorem bucketSearchFunction_eq (h : IsHashing hash equals) (e : α) :
    bucketSearchFunction hash equals e =
      HashTable.bucketSearchFunction h.key h.hashKey (h.key e) := by
  funext x
  have hhash : (hash x = hash e) = ((hash x).toNat = (hash e).toNat) := by
    have hx := h.hash_nonneg x
    have he := h.hash_nonneg e
    exact propext ⟨fun heq => by rw [heq], fun heq => by omega⟩
  have hequals : equals x e = decide (h.key x = h.key e) := by
    rw [Bool.eq_iff_iff, decide_eq_true_iff]
    exact h.key_eq.symm
  unfold bucketSearchFunction HashTable.bucketSearchFunction
  rw [hequals]
  congr 1
  exact decide_eq_decide.mpr hhash.to_iff

/-- The index that the code computes for an element. -/
theorem tmod_eq (h : IsHashing hash equals) (e : α) :
    (hash e).tmod initialTableSize = (HashTable.index h.hashKey (h.key e) : ℕ) := by
  have he : hash e = ((hash e).toNat : ℤ) := (Int.toNat_of_nonneg (h.hash_nonneg e)).symm
  rw [he]
  rfl

end IsHashing

/-- The table in memory is `ht`. -/
structure Represents (mem : HashTableMem α) (h : IsHashing hash equals)
    (ht : HashTable h.key h.hashKey) : Prop where
  tablesize_eq : mem.tablesize = initialTableSize
  stores : ∃ chains, Stores mem.table mem.heap chains ∧ chains.map (List.map Prod.snd) = ht.table

variable {mem : HashTableMem α} {h : IsHashing hash equals} {ht : HashTable h.key h.hashKey}

theorem stores_map_linkedlistNew (heap : NodeHeap α) (tail : ℕ → Pointer) (n : ℕ) :
    Stores ((List.range n).map fun i => linkedlistNew (tail i)) heap (List.replicate n []) := by
  have hempty : ∀ ll ∈ (List.range n).map (fun i => linkedlistNew (tail i)),
      ll.Represents heap [] := by
    intro ll hll
    obtain ⟨i, -, rfl⟩ := List.mem_map.mp hll
    exact represents_linkedlistNew heap (tail i)
  have hstores := stores_replicate hempty
  rwa [List.length_map, List.length_range] at hstores

theorem represents_hashtableNew (h : IsHashing hash equals) (heap : NodeHeap α) (tail : ℕ → Pointer) :
    (hashtableNew heap tail).Represents h (HashTable.hashtableNew h.key h.hashKey) where
  tablesize_eq := rfl
  stores := by
    unfold hashtableNew HashTable.hashtableNew
    dsimp only
    refine ⟨_, stores_map_linkedlistNew heap tail initialTableSize, ?_⟩
    rw [List.map_replicate, List.map_nil]

/-- The list that an element is looked up in. -/
theorem Represents.bucket (hmem : mem.Represents h ht) (e : α) :
    ∃ chains ll cs, Stores mem.table mem.heap chains ∧ chains.map (List.map Prod.snd) = ht.table ∧
      readCell mem.table ((hash e).tmod mem.tablesize) = .ok ll ∧
      chains[HashTable.index h.hashKey (h.key e)]? = some cs ∧ ll.Represents mem.heap cs ∧
      ht.table.getD (HashTable.index h.hashKey (h.key e)) [] = cs.map Prod.snd ∧
      HashTable.index h.hashKey (h.key e) < mem.table.length := by
  obtain ⟨chains, hstores, hmap⟩ := hmem.stores
  have hlt : HashTable.index h.hashKey (h.key e) < mem.table.length := by
    rw [hstores.length_eq, ← List.length_map (f := List.map Prod.snd), hmap, ht.length_table]
    exact Nat.mod_lt _ (by decide)
  obtain ⟨ll, cs, hll, hcs, hrep⟩ := hstores.exists_of_lt hlt
  refine ⟨chains, ll, cs, hstores, hmap, ?_, hcs, hrep, ?_, hlt⟩
  · rw [hmem.tablesize_eq, h.tmod_eq]
    exact readCell_eq hll
  · rw [← hmap, List.getD_eq_getElem?_getD, List.getElem?_map, hcs]
    rfl

/-- The lists of a table of which one is changed. -/
theorem map_set_eq_modify {table : List (List α)} {g : List α → List α}
    (hmap : chains.map (List.map Prod.snd) = table) (hg : cs'.map Prod.snd = g (table.getD i [])) :
    (chains.set i cs').map (List.map Prod.snd) = table.modify i g := by
  apply List.ext_getElem?
  intro j
  rw [List.getElem?_modify, List.map_set, hmap, List.getElem?_set, hg, List.getD_eq_getElem?_getD]
  by_cases hij : i = j
  · subst hij
    cases hget : table[i]? with
    | none => rw [if_pos rfl, if_neg (by rw [List.getElem?_eq_none_iff] at hget; omega)]; rfl
    | some l => rw [if_pos rfl, if_pos (List.getElem?_eq_some_iff.mp hget).1]; simp
  · simp [hij]

/-- `hashtable_get_element` -/
theorem Represents.hashtableGetElement (hmem : mem.Represents h ht) (e : α) :
    hashtableGetElement hash equals mem e = .ok (ht.hashtableGetElement (h.key e)) := by
  obtain ⟨chains, ll, cs, -, -, hread, -, hrep, hget, -⟩ := hmem.bucket e
  unfold HashTableMem.hashtableGetElement HashTable.hashtableGetElement
  rw [hget, ← h.bucketSearchFunction_eq]
  exact bind_eq_ok.mpr ⟨ll, hread, hrep.linkedlistGet _⟩

/-- `hashtable_remove_element` -/
theorem Represents.hashtableRemoveElement (hmem : mem.Represents h ht) (e : α) :
    ∃ mem', hashtableRemoveElement hash equals mem e =
        .ok (ht.hashtableGetElement (h.key e), mem') ∧
      mem'.Represents h (ht.hashtableRemoveElement (h.key e)) := by
  obtain ⟨chains, ll, cs, hstores, hmap, hread, hcs, hrep, hget, hlt⟩ := hmem.bucket e
  obtain ⟨ll', heap', cs', hremove, hll', hcs', hsub, hframe⟩ :=
    hrep.linkedlistRemove (bucketSearchFunction hash equals e)
  refine ⟨⟨mem.table.set (HashTable.index h.hashKey (h.key e)) ll', mem.tablesize, heap'⟩, ?_,
    hmem.tablesize_eq, chains.set (HashTable.index h.hashKey (h.key e)) cs', ?_, ?_⟩
  · unfold HashTableMem.hashtableRemoveElement HashTable.hashtableGetElement
    rw [hget, ← h.bucketSearchFunction_eq]
    refine bind_eq_ok.mpr ⟨ll, hread, bind_eq_ok.mpr ⟨_, hremove, bind_eq_ok.mpr ⟨_, ?_, rfl⟩⟩⟩
    rw [hmem.tablesize_eq, h.tmod_eq]
    exact writeCell_eq hlt
  · exact hstores.set hcs hll' (fun q hq => Or.inl (List.map_subset _ hsub hq)) fun q hq _ => hframe q hq
  · refine map_set_eq_modify hmap ?_
    rw [hget, hcs', ← h.bucketSearchFunction_eq]

/-- `hashtable_add` -/
theorem Represents.hashtableAdd (hmem : mem.Represents h ht) (hint : ℕ) (x : α) :
    ∃ mem', hashtableAdd hash mem hint x = .ok mem' ∧
      mem'.Represents h (ht.hashtableAdd x) := by
  obtain ⟨chains, ll, cs, hstores, hmap, hread, hcs, hrep, hget, hlt⟩ := hmem.bucket x
  obtain ⟨p, ll', heap', happend, hfree, hll', hframe⟩ := hrep.linkedlistAppend hint x
  refine ⟨⟨mem.table.set (HashTable.index h.hashKey (h.key x)) ll', mem.tablesize, heap'⟩, ?_,
    hmem.tablesize_eq, chains.set (HashTable.index h.hashKey (h.key x)) (cs ++ [(p, x)]), ?_, ?_⟩
  · unfold HashTableMem.hashtableAdd
    refine bind_eq_ok.mpr ⟨ll, hread, bind_eq_ok.mpr ⟨_, happend, bind_eq_ok.mpr ⟨_, ?_, rfl⟩⟩⟩
    rw [hmem.tablesize_eq, h.tmod_eq]
    exact writeCell_eq hlt
  · refine hstores.set hcs hll' (fun q hq => ?_) fun q hq hlive =>
      hframe q (fun heq => hlive (heq ▸ hfree)) hq
    rw [List.map_append, List.mem_append] at hq
    refine hq.imp id fun hq => ?_
    rw [show q = p from List.mem_singleton.mp hq]
    exact hfree
  · refine map_set_eq_modify hmap ?_
    rw [hget, List.map_append]
    rfl

/-- `hashtable_remove_all` -/
theorem Represents.hashtableRemoveAll (hmem : mem.Represents h ht) :
    ∃ mem', hashtableRemoveAll mem = .ok mem' ∧
      mem'.Represents h (HashTable.hashtableNew h.key h.hashKey) := by
  obtain ⟨chains, hstores, hmap⟩ := hmem.stores
  obtain ⟨table', heap', hloop, hlength, hempty⟩ := removeAllLists_eq hstores
  refine ⟨⟨table', mem.tablesize, heap'⟩, bind_eq_ok.mpr ⟨_, hloop, rfl⟩, hmem.tablesize_eq, _,
    stores_replicate hempty, ?_⟩
  have hsize : table'.length = initialTableSize := by
    rw [hlength, hstores.length_eq, ← List.length_map (f := List.map Prod.snd), hmap, ht.length_table]
  rw [List.map_replicate, hsize]
  rfl

end HashTableMem

end DartSync
