import DartSync.Basic
import DartSync.Library.Heap

/-!
# Linked lists in memory

The functions of `LinkedList.c` that the hash table calls, on nodes in a heap. NULL and freed nodes
are not followed: a function that meets one aborts. A list stands for a chain of nodes and their
elements (`LinkedList.Represents`); on such a list no function aborts, each does to the chain what it
is for, and the nodes outside the chain stay as they are.
-/

namespace DartSync

open Memory

variable {α : Type}

/-- `_LinkedNode` -/
structure LinkedNode (α : Type) where
  forward : Pointer
  back : Pointer
  element : α

abbrev NodeHeap (α : Type) := Heap (LinkedNode α)

/-- `_LinkedList`. `linkedlist_new` leaves `tail` as `malloc` has found it. -/
structure LinkedList where
  root : Pointer
  tail : Pointer
  size : ℤ

/-! ## Nodes -/

/-- `*n` -/
def deref (heap : NodeHeap α) : Pointer → Except Abort (LinkedNode α)
  | none => .error .nullPointer
  | some p => match heap.cell p with
    | none => .error .outOfBounds
    | some node => .ok node

/-- An assignment to fields of `*n`. -/
def assign (heap : NodeHeap α) (n : Pointer) (set : LinkedNode α → LinkedNode α) :
    Except Abort (NodeHeap α) :=
  match n with
  | none => .error .nullPointer
  | some p => match heap.cell p with
    | none => .error .outOfBounds
    | some node => .ok (heap.put p (set node))

/-- `linkednode_new`; `hint` is where `malloc` looks first. -/
def linkednodeNew (heap : NodeHeap α) (hint : ℕ) (forward back : Pointer) (element : α) :
    Pointer × NodeHeap α :=
  (some (heap.fresh hint), heap.put (heap.fresh hint) ⟨forward, back, element⟩)

/-- `linkednode_destroy` -/
def linkednodeDestroy (heap : NodeHeap α) : Pointer → Except Abort (NodeHeap α)
  | none => .ok heap
  | some p => match heap.cell p with
    | none => .error .outOfBounds
    | some _ => .ok (heap.free p)

/-- `linkednode_search`, at most `fuel` nodes deep. -/
def linkednodeSearch (heap : NodeHeap α) (f : α → Bool) : ℕ → Pointer → Except Abort Pointer
  | 0, _ => .error .diverges
  | fuel + 1, n => do
    let node ← deref heap n
    if f node.element then pure n
    else if node.forward.isSome then linkednodeSearch heap f fuel node.forward
    else pure none

/-- `linkednode_unlink` -/
def linkednodeUnlink (heap : NodeHeap α) (n : Pointer) : Except Abort (NodeHeap α) :=
  match n with
  | none => .ok heap
  | some p => do
    let node ← deref heap (some p)
    match node.back, node.forward with
    | none, none => pure heap
    | some _, some _ => do
      let heap ← assign heap node.back fun back => { back with forward := node.forward }
      let node ← deref heap (some p)
      assign heap node.forward fun forward => { forward with back := node.back }
    | none, some _ => assign heap node.forward fun forward => { forward with back := none }
    | some _, none => assign heap node.back fun back => { back with forward := none }

/-- `linkednode_remove` -/
def linkednodeRemove (heap : NodeHeap α) (root : Pointer) (f : α → Bool) :
    Except Abort (Pointer × NodeHeap α) := do
  let n ← linkednodeSearch heap f (heap.limit + 1) root
  let heap ← linkednodeUnlink heap n
  return (n, heap)

/-! ## Lists -/

/-- `linkedlist_new` -/
def linkedlistNew (tail : Pointer) : LinkedList := ⟨none, tail, 0⟩

/-- `linkedlist_append` -/
def linkedlistAppend (heap : NodeHeap α) (hint : ℕ) (ll : LinkedList) (element : α) :
    Except Abort (LinkedList × NodeHeap α) :=
  if ll.root = none then
    let (root, heap) := linkednodeNew heap hint none none element
    .ok (⟨root, root, ll.size + 1⟩, heap)
  else do
    let (ln, heap) := linkednodeNew heap hint none ll.tail element
    let heap ← assign heap ll.tail fun tail => { tail with forward := ln }
    return (⟨ll.root, ln, ll.size + 1⟩, heap)

/-- `linkedlist_remove`; `f` is the search function at its key. -/
def linkedlistRemove (heap : NodeHeap α) (ll : LinkedList) (f : α → Bool) :
    Except Abort (Option α × LinkedList × NodeHeap α) :=
  if ll.root = none then .ok (none, ll, heap)
  else do
    let (ln, heap) ← linkednodeRemove heap ll.root f
    if ln = none then pure (none, ll, heap)
    else do
      let node ← deref heap ln
      let root := if node.back = none then node.forward else ll.root
      let tail := if node.forward = none then node.back else ll.tail
      let heap ← linkednodeDestroy heap ln
      return (some node.element, ⟨root, tail, ll.size - 1⟩, heap)

/-- `linkedlist_get` -/
def linkedlistGet (heap : NodeHeap α) (ll : LinkedList) (f : α → Bool) : Except Abort (Option α) :=
  if ll.root = none then .ok none
  else do
    let ln ← linkednodeSearch heap f (heap.limit + 1) ll.root
    if ln = none then pure none
    else do
      let node ← deref heap ln
      return some node.element

/-- `linkedlist_length` -/
def linkedlistLength (ll : LinkedList) : ℤ := ll.size

/-- The loop of `linkedlist_remove_all`. -/
def linkednodeDestroyAll : ℕ → NodeHeap α → Pointer → Except Abort (NodeHeap α)
  | 0, _, _ => .error .diverges
  | fuel + 1, heap, ln =>
    if ln = none then .ok heap
    else do
      let node ← deref heap ln
      let heap ← linkednodeDestroy heap ln
      linkednodeDestroyAll fuel heap node.forward

/-- `linkedlist_remove_all` -/
def linkedlistRemoveAll (heap : NodeHeap α) (ll : LinkedList) :
    Except Abort (LinkedList × NodeHeap α) := do
  let heap ← linkednodeDestroyAll (heap.limit + 1) heap ll.root
  return (⟨none, none, 0⟩, heap)

/-- `linkedlistiterator_next`: the element, and where the iterator then stands. -/
def linkedlistiteratorNext (heap : NodeHeap α) (ll : LinkedList) (ln : Pointer) :
    Except Abort (Option α × Pointer) :=
  if ln = none ∧ ll.root ≠ none then do
    let node ← deref heap ll.root
    return (some node.element, ll.root)
  else if ln ≠ none then do
    let node ← deref heap ln
    if node.forward ≠ none then do
      let next ← deref heap node.forward
      return (some next.element, node.forward)
    else pure (none, ln)
  else .ok (none, ln)

/-! ## Chains -/

section Chains

variable {cell cell' : ℕ → Option (LinkedNode α)} {back stop : Pointer} {cs ds : List (ℕ × α)}
  {c : ℕ × α} {f : α → Bool}

/-- Where a chain of nodes begins that is followed by `stop`. -/
def firstOf : List (ℕ × α) → Pointer → Pointer
  | [], stop => stop
  | c :: _, _ => some c.1

/-- Where a chain of nodes ends that comes after `back`. -/
def lastOf : Pointer → List (ℕ × α) → Pointer
  | back, [] => back
  | _, c :: cs => lastOf (some c.1) cs

/-- The nodes `cs`, linked forwards to `stop` and back to `back`. -/
def Segment (cell : ℕ → Option (LinkedNode α)) : Pointer → List (ℕ × α) → Pointer → Prop
  | _, [], _ => True
  | back, c :: cs, stop =>
    cell c.1 = some ⟨firstOf cs stop, back, c.2⟩ ∧ Segment cell (some c.1) cs stop

theorem firstOf_append : firstOf (cs ++ ds) stop = firstOf cs (firstOf ds stop) := by
  cases cs <;> rfl

theorem firstOf_eq_none : firstOf cs none = none ↔ cs = [] := by
  cases cs <;> simp [firstOf]

theorem lastOf_append : lastOf back (cs ++ ds) = lastOf (lastOf back cs) ds := by
  induction cs generalizing back with
  | nil => rfl
  | cons c cs ih => exact ih

theorem lastOf_concat : lastOf back (cs ++ [c]) = some c.1 := lastOf_append

theorem lastOf_eq_none : lastOf none cs = none ↔ cs = [] := by
  constructor
  · intro h
    by_contra hcs
    rw [← List.dropLast_append_getLast hcs, lastOf_concat] at h
    cases h
  · rintro rfl
    rfl

theorem segment_append : Segment cell back (cs ++ ds) stop ↔
    Segment cell back cs (firstOf ds stop) ∧ Segment cell (lastOf back cs) ds stop := by
  induction cs generalizing back with
  | nil => exact (and_iff_right trivial).symm
  | cons c cs ih =>
    show cell c.1 = some ⟨firstOf (cs ++ ds) stop, back, c.2⟩ ∧
      Segment cell (some c.1) (cs ++ ds) stop ↔ _
    rw [ih, firstOf_append, ← and_assoc]
    rfl

theorem Segment.congr (h : Segment cell back cs stop) (heq : ∀ p ∈ cs.map Prod.fst, cell' p = cell p) :
    Segment cell' back cs stop := by
  induction cs generalizing back with
  | nil => trivial
  | cons c cs ih =>
    exact ⟨(heq _ List.mem_cons_self).trans h.1, ih h.2 fun p hp => heq p (List.mem_cons_of_mem _ hp)⟩

theorem Segment.cell_of_mem (h : Segment cell back cs stop) (hc : c ∈ cs) :
    ∃ node, cell c.1 = some node ∧ node.element = c.2 := by
  induction cs generalizing back with
  | nil => exact absurd hc List.not_mem_nil
  | cons d cs ih =>
    rcases List.mem_cons.mp hc with rfl | hc
    · exact ⟨_, h.1, rfl⟩
    · exact ih h.2 hc

/-- The last node linked to something else. -/
theorem Segment.setStop {stop' : Pointer} (h : Segment cell back (cs ++ [c]) stop)
    (hnot : c.1 ∉ cs.map Prod.fst) (hlast : cell' c.1 = some ⟨stop', lastOf back cs, c.2⟩)
    (heq : ∀ p, p ≠ c.1 → cell' p = cell p) : Segment cell' back (cs ++ [c]) stop' := by
  obtain ⟨hcs, -⟩ := segment_append.mp h
  refine segment_append.mpr ⟨hcs.congr fun p hp => heq p fun hpc => hnot (hpc ▸ hp), hlast, trivial⟩

/-- The first node linked back to something else. -/
theorem Segment.setBack {back' : Pointer} (h : Segment cell back (c :: cs) stop)
    (hnot : c.1 ∉ cs.map Prod.fst) (hfirst : cell' c.1 = some ⟨firstOf cs stop, back', c.2⟩)
    (heq : ∀ p, p ≠ c.1 → cell' p = cell p) : Segment cell' back' (c :: cs) stop :=
  ⟨hfirst, h.2.congr fun p hp => heq p fun hpc => hnot (hpc ▸ hp)⟩

end Chains

/-! ## What the functions do to a chain -/

section Operations

variable {heap : NodeHeap α} {ll : LinkedList} {back stop : Pointer} {cs ds : List (ℕ × α)}
  {c : ℕ × α} {f : α → Bool} {p : ℕ} {node : LinkedNode α} {fuel : ℕ}

theorem deref_eq (h : heap.cell p = some node) : deref heap (some p) = .ok node := by
  rw [deref, h]

theorem assign_eq {set : LinkedNode α → LinkedNode α} (h : heap.cell p = some node) :
    assign heap (some p) set = .ok (heap.put p (set node)) := by
  rw [assign, h]

theorem linkednodeDestroy_eq (h : heap.cell p = some node) :
    linkednodeDestroy heap (some p) = .ok (heap.free p) := by
  rw [linkednodeDestroy, h]

/-- The list is the chain of the nodes `cs`. -/
structure LinkedList.Represents (ll : LinkedList) (heap : NodeHeap α) (cs : List (ℕ × α)) : Prop where
  root_eq : ll.root = firstOf cs none
  tail_eq : cs ≠ [] → ll.tail = lastOf none cs
  size_eq : ll.size = cs.length
  segment : Segment heap.cell none cs none
  nodup : (cs.map Prod.fst).Nodup

theorem represents_linkedlistNew (heap : NodeHeap α) (tail : Pointer) :
    (linkedlistNew tail).Represents heap [] where
  root_eq := rfl
  tail_eq h := absurd rfl h
  size_eq := rfl
  segment := trivial
  nodup := List.nodup_nil

/-- Changes outside the chain. -/
theorem LinkedList.Represents.congr {heap' : NodeHeap α} (h : ll.Represents heap cs)
    (heq : ∀ p ∈ cs.map Prod.fst, heap'.cell p = heap.cell p) : ll.Represents heap' cs :=
  { h with segment := h.segment.congr heq }

theorem LinkedList.Represents.length_le (h : ll.Represents heap cs) : cs.length ≤ heap.limit := by
  rw [← List.length_map (f := Prod.fst)]
  refine Heap.length_le_limit h.nodup fun p hp => ?_
  obtain ⟨c, hc, rfl⟩ := List.mem_map.mp hp
  obtain ⟨node, hnode, -⟩ := h.segment.cell_of_mem hc
  exact ⟨node, hnode⟩

theorem LinkedList.Represents.root_ne (h : ll.Represents heap cs) (hcs : cs ≠ []) : ll.root ≠ none := by
  rw [h.root_eq]
  exact mt firstOf_eq_none.mp hcs

/-- `linkednode_search` finds the first node whose element the search function accepts. -/
theorem linkednodeSearch_eq (h : Segment heap.cell back cs none) (hcs : cs ≠ [])
    (hfuel : cs.length ≤ fuel) : linkednodeSearch heap f fuel (firstOf cs none) =
      .ok ((cs.find? fun c => f c.2).map Prod.fst) := by
  induction fuel generalizing back cs with
  | zero => exact absurd (List.length_eq_zero_iff.mp (Nat.le_zero.mp hfuel)) hcs
  | succ fuel ih =>
    obtain ⟨c, cs, rfl⟩ := List.exists_cons_of_ne_nil hcs
    unfold linkednodeSearch
    refine bind_eq_ok.mpr ⟨_, deref_eq h.1, ?_⟩
    rw [List.find?_cons]
    by_cases hf : f c.2
    · rw [if_pos hf, hf]
      rfl
    · rw [if_neg hf, Bool.eq_false_iff.mpr hf]
      cases cs with
      | nil => rfl
      | cons d cs =>
        exact (if_pos rfl).trans
          (ih h.2 (List.cons_ne_nil d cs) (Nat.le_of_succ_le_succ hfuel))

/-- `linkedlist_get` -/
theorem LinkedList.Represents.linkedlistGet (h : ll.Represents heap cs) (f : α → Bool) :
    linkedlistGet heap ll f = .ok ((cs.map Prod.snd).find? f) := by
  unfold DartSync.linkedlistGet
  by_cases hcs : cs = []
  · rw [if_pos (by rw [h.root_eq, hcs]; rfl), hcs]
    rfl
  · have hsearch := linkednodeSearch_eq (f := f) h.segment hcs (Nat.le_succ_of_le h.length_le)
    rw [if_neg (h.root_ne hcs), h.root_eq, List.find?_map]
    refine bind_eq_ok.mpr ⟨_, hsearch, ?_⟩
    show _ = Except.ok ((cs.find? fun c => f c.2).map Prod.snd)
    cases hfind : cs.find? fun c => f c.2 with
    | none => rfl
    | some c =>
      obtain ⟨node, hnode, helement⟩ := h.segment.cell_of_mem (List.mem_of_find?_eq_some hfind)
      refine (if_neg (Option.some_ne_none c.1)).trans (bind_eq_ok.mpr ⟨node, deref_eq hnode, ?_⟩)
      rw [helement]
      rfl

/-- The end of a chain linked to `stop`; an empty chain has no end to link. -/
theorem assign_lastOf (stop' : Pointer) (h : Segment heap.cell none cs stop)
    (hnodup : (cs.map Prod.fst).Nodup) :
    ∃ heap', (lastOf none cs = none → heap' = heap) ∧
      (lastOf none cs ≠ none →
        assign heap (lastOf none cs) (fun back => { back with forward := stop' }) = .ok heap') ∧
      Segment heap'.cell none cs stop' ∧
      ∀ q, q ∉ cs.map Prod.fst → heap'.cell q = heap.cell q := by
  by_cases hcs : cs = []
  · subst hcs
    exact ⟨heap, fun _ => rfl, fun hne => absurd rfl hne, trivial, fun _ _ => rfl⟩
  · obtain ⟨init, c, rfl⟩ : ∃ init c, cs = init ++ [c] :=
      ⟨_, _, (List.dropLast_append_getLast hcs).symm⟩
    have hlast : heap.cell c.1 = some ⟨stop, lastOf none init, c.2⟩ := (segment_append.mp h).2.1
    have hnot : c.1 ∉ init.map Prod.fst := by
      rw [List.map_append, List.nodup_append] at hnodup
      exact fun hc => hnodup.2.2 _ hc _ List.mem_cons_self rfl
    have hmem : c.1 ∈ (init ++ [c]).map Prod.fst :=
      List.mem_map_of_mem (List.mem_append_right init (List.mem_singleton_self c))
    rw [lastOf_concat]
    exact ⟨heap.put c.1 ⟨stop', lastOf none init, c.2⟩, nofun, fun _ => assign_eq hlast,
      h.setStop hnot Heap.cell_put fun q hq => Heap.cell_put_of_ne hq,
      fun q hq => Heap.cell_put_of_ne fun heq => hq (heq ▸ hmem)⟩

theorem LinkedList.Represents.fresh_notMem (h : ll.Represents heap cs) (hint : ℕ) :
    heap.fresh hint ∉ cs.map Prod.fst := by
  intro hmem
  obtain ⟨c, hc, hcp⟩ := List.mem_map.mp hmem
  obtain ⟨node, hnode, -⟩ := h.segment.cell_of_mem hc
  rw [hcp, heap.cell_fresh hint] at hnode
  cases hnode

/-- `linkedlist_append` -/
theorem LinkedList.Represents.linkedlistAppend (h : ll.Represents heap cs) (hint : ℕ) (x : α) :
    ∃ p ll' heap', linkedlistAppend heap hint ll x = .ok (ll', heap') ∧ heap.cell p = none ∧
      ll'.Represents heap' (cs ++ [(p, x)]) ∧
      ∀ q, q ≠ p → q ∉ cs.map Prod.fst → heap'.cell q = heap.cell q := by
  have hfresh : heap.cell (heap.fresh hint) = none := heap.cell_fresh hint
  have hnot := h.fresh_notMem hint
  unfold DartSync.linkedlistAppend
  by_cases hcs : cs = []
  · subst hcs
    refine ⟨heap.fresh hint, _, _, if_pos h.root_eq, hfresh,
      ⟨rfl, fun _ => rfl, ?_, ⟨Heap.cell_put, trivial⟩, List.nodup_singleton _⟩,
      fun q hq _ => Heap.cell_put_of_ne hq⟩
    show ll.size + 1 = _
    rw [h.size_eq]
    rfl
  · -- the new node is put outside the chain, and then the last node is linked to it
    let heap1 := heap.put (heap.fresh hint) ⟨none, lastOf none cs, x⟩
    have hsegment1 : Segment heap1.cell none cs none :=
      h.segment.congr fun q hq => Heap.cell_put_of_ne fun heq => hnot (heq ▸ hq)
    obtain ⟨heap2, -, hassign, hsegment2, hframe⟩ :=
      assign_lastOf (some (heap.fresh hint)) hsegment1 h.nodup
    refine ⟨heap.fresh hint, ⟨ll.root, some (heap.fresh hint), ll.size + 1⟩, heap2, ?_, hfresh,
      ⟨?_, fun _ => ?_, ?_, ?_, ?_⟩, ?_⟩
    · rw [if_neg (h.root_ne hcs)]
      refine bind_eq_ok.mpr ⟨heap2, ?_, rfl⟩
      rw [h.tail_eq hcs]
      exact hassign (mt lastOf_eq_none.mp hcs)
    · show ll.root = _
      rw [h.root_eq, firstOf_append]
      obtain ⟨c, cs, rfl⟩ := List.exists_cons_of_ne_nil hcs
      rfl
    · rw [lastOf_concat]
    · have hlength : (cs ++ [(heap.fresh hint, x)]).length = cs.length + 1 := List.length_append
      show ll.size + 1 = _
      rw [h.size_eq, hlength]
      rfl
    · refine segment_append.mpr ⟨hsegment2, ?_, trivial⟩
      rw [hframe _ hnot]
      exact Heap.cell_put
    · rw [List.map_append, List.nodup_append]
      refine ⟨h.nodup, List.nodup_singleton _, fun q hq r hr heq => hnot ?_⟩
      have hr : r = heap.fresh hint := List.mem_singleton.mp hr
      rwa [← hr, ← heq]
    · intro q hq hqcs
      exact (hframe q hqcs).trans (Heap.cell_put_of_ne hq)

/-- The start of a chain linked back to `back'`; an empty chain has no start to link. -/
theorem assign_firstOf (back' : Pointer) (h : Segment heap.cell back cs none)
    (hnodup : (cs.map Prod.fst).Nodup) :
    ∃ heap', (firstOf cs none = none → heap' = heap) ∧
      (firstOf cs none ≠ none →
        assign heap (firstOf cs none) (fun forward => { forward with back := back' }) = .ok heap') ∧
      Segment heap'.cell back' cs none ∧
      ∀ q, q ∉ cs.map Prod.fst → heap'.cell q = heap.cell q := by
  cases cs with
  | nil => exact ⟨heap, fun _ => rfl, fun hne => absurd rfl hne, trivial, fun _ _ => rfl⟩
  | cons c cs =>
    exact ⟨heap.put c.1 ⟨firstOf cs none, back', c.2⟩, nofun, fun _ => assign_eq h.1,
      h.setBack (List.nodup_cons.mp hnodup).1 Heap.cell_put fun q hq => Heap.cell_put_of_ne hq,
      fun q hq => Heap.cell_put_of_ne fun heq => hq (heq ▸ List.mem_cons_self)⟩

/-- Two chains in one: the end of the first linked to `stop'`, and then the start of the second back to
`back'`. -/
theorem relink (stop' back' : Pointer) (hcs : Segment heap.cell none cs stop)
    (hds : Segment heap.cell back ds none) (hnodup : ((cs ++ ds).map Prod.fst).Nodup) :
    ∃ heap1 heap2, (lastOf none cs = none → heap1 = heap) ∧
      (lastOf none cs ≠ none →
        assign heap (lastOf none cs) (fun back => { back with forward := stop' }) = .ok heap1) ∧
      (firstOf ds none = none → heap2 = heap1) ∧
      (firstOf ds none ≠ none →
        assign heap1 (firstOf ds none) (fun forward => { forward with back := back' }) = .ok heap2) ∧
      Segment heap2.cell none cs stop' ∧ Segment heap2.cell back' ds none ∧
      (∀ q, q ∉ cs.map Prod.fst → heap1.cell q = heap.cell q) ∧
      ∀ q, q ∉ (cs ++ ds).map Prod.fst → heap2.cell q = heap.cell q := by
  rw [List.map_append, List.nodup_append] at hnodup
  obtain ⟨hnodupcs, hnodupds, hdisjoint⟩ := hnodup
  have hdiff : ∀ q ∈ ds.map Prod.fst, q ∉ cs.map Prod.fst := fun q hq hmem =>
    hdisjoint _ hmem _ hq rfl
  obtain ⟨heap1, hsame1, hassign1, hseg1, hframe1⟩ := assign_lastOf stop' hcs hnodupcs
  obtain ⟨heap2, hsame2, hassign2, hseg2, hframe2⟩ :=
    assign_firstOf back' (hds.congr fun q hq => hframe1 q (hdiff q hq)) hnodupds
  refine ⟨heap1, heap2, hsame1, hassign1, hsame2, hassign2,
    hseg1.congr fun q hq => hframe2 q fun hmem => hdiff q hmem hq, hseg2, hframe1, fun q hq => ?_⟩
  rw [List.map_append, List.mem_append, not_or] at hq
  rw [hframe2 q hq.2, hframe1 q hq.1]

/-- `linkednode_unlink` takes a node out of its chain and leaves the node itself as it is. -/
theorem linkednodeUnlink_eq (h : Segment heap.cell none (cs ++ c :: ds) none)
    (hnodup : ((cs ++ c :: ds).map Prod.fst).Nodup) :
    ∃ heap', linkednodeUnlink heap (some c.1) = .ok heap' ∧
      heap'.cell c.1 = some ⟨firstOf ds none, lastOf none cs, c.2⟩ ∧
      Segment heap'.cell none (cs ++ ds) none ∧
      ∀ q, q ∉ (cs ++ ds).map Prod.fst → heap'.cell q = heap.cell q := by
  obtain ⟨hcs, hc, hds⟩ := segment_append.mp h
  rw [List.map_append, List.map_cons, List.nodup_middle, List.nodup_cons, ← List.map_append] at hnodup
  obtain ⟨hcnot, hnodup⟩ := hnodup
  obtain ⟨heap1, heap2, hsame1, hassign1, hsame2, hassign2, hseg1, hseg2, hframe1, hframe⟩ :=
    relink (firstOf ds none) (lastOf none cs) hcs hds hnodup
  have hc1 : heap1.cell c.1 = some ⟨firstOf ds none, lastOf none cs, c.2⟩ := by
    rw [List.map_append, List.mem_append, not_or] at hcnot
    exact (hframe1 c.1 hcnot.1).trans hc
  refine ⟨heap2, ?_, (hframe c.1 hcnot).trans hc, segment_append.mpr ⟨hseg1, hseg2⟩, hframe⟩
  unfold linkednodeUnlink
  refine bind_eq_ok.mpr ⟨_, deref_eq hc, ?_⟩
  dsimp only
  -- the four cases of the source: neighbours on both sides, on one side or on none
  cases hback : lastOf none cs with
  | none =>
    rw [hsame1 hback] at hsame2 hassign2
    cases hforward : firstOf ds none with
    | none => rw [hsame2 hforward]; rfl
    | some d =>
      rw [hback, hforward] at hassign2
      exact hassign2 (Option.some_ne_none d)
  | some b =>
    rw [hback] at hassign1
    have hassign1 := hassign1 (Option.some_ne_none b)
    cases hforward : firstOf ds none with
    | none =>
      rw [hforward] at hassign1
      rw [hsame2 hforward]
      exact hassign1
    | some d =>
      rw [hforward] at hassign1 hc1 hassign2
      rw [hback] at hc1 hassign2
      exact bind_eq_ok.mpr ⟨heap1, hassign1, bind_eq_ok.mpr ⟨_, deref_eq hc1,
        hassign2 (Option.some_ne_none d)⟩⟩

theorem lastOf_of_ne_nil {back back' : Pointer} (h : cs ≠ []) : lastOf back cs = lastOf back' cs := by
  cases cs with
  | nil => exact absurd rfl h
  | cons c cs => rfl

/-- A node taken out of the chain and freed, as `linkedlist_remove` and `linkedlistiterator_remove` do. -/
theorem LinkedList.Represents.takeOut (h : ll.Represents heap (cs ++ c :: ds)) :
    ∃ heap', linkednodeUnlink heap (some c.1) = .ok heap' ∧
      heap'.cell c.1 = some ⟨firstOf ds none, lastOf none cs, c.2⟩ ∧
      LinkedList.Represents ⟨if lastOf none cs = none then firstOf ds none else ll.root,
        if firstOf ds none = none then lastOf none cs else ll.tail, ll.size - 1⟩
        (heap'.free c.1) (cs ++ ds) ∧
      ∀ q, q ∉ (cs ++ c :: ds).map Prod.fst → (heap'.free c.1).cell q = heap.cell q := by
  have hne : cs ++ c :: ds ≠ [] := List.append_ne_nil_of_right_ne_nil _ (List.cons_ne_nil c ds)
  obtain ⟨heap1, hunlink, hcell, hsegment, hframe⟩ := linkednodeUnlink_eq h.segment h.nodup
  have hnodup := h.nodup
  rw [List.map_append, List.map_cons, List.nodup_middle, List.nodup_cons, ← List.map_append] at hnodup
  have hmap : ∀ q, q ∉ (cs ++ c :: ds).map Prod.fst → q ≠ c.1 ∧ q ∉ (cs ++ ds).map Prod.fst := by
    intro q hq
    rw [List.map_append, List.map_cons, List.mem_append, List.mem_cons, not_or, not_or] at hq
    rw [List.map_append, List.mem_append, not_or]
    exact ⟨hq.2.1, hq.1, hq.2.2⟩
  refine ⟨heap1, hunlink, hcell, ⟨?_, fun hrest => ?_, ?_, hsegment.congr fun q hq => ?_, hnodup.2⟩,
    fun q hq => ?_⟩
  · show (if lastOf none cs = none then firstOf ds none else ll.root) = _
    rw [firstOf_append]
    by_cases hcs : cs = []
    · rw [if_pos (lastOf_eq_none.mpr hcs), hcs]
      rfl
    · rw [if_neg (mt lastOf_eq_none.mp hcs), h.root_eq, firstOf_append]
      obtain ⟨b, cs, rfl⟩ := List.exists_cons_of_ne_nil hcs
      rfl
  · show (if firstOf ds none = none then lastOf none cs else ll.tail) = _
    by_cases hds : ds = []
    · rw [if_pos (firstOf_eq_none.mpr hds), hds, List.append_nil]
    · rw [if_neg (mt firstOf_eq_none.mp hds), h.tail_eq hne, lastOf_append, lastOf_append]
      exact lastOf_of_ne_nil hds
  · show ll.size - 1 = _
    rw [h.size_eq, List.length_append, List.length_append, List.length_cons]
    omega
  · exact Heap.cell_free_of_ne fun heq => hnodup.1 (heq ▸ hq)
  · obtain ⟨hqc, hq⟩ := hmap q hq
    rw [Heap.cell_free_of_ne hqc, hframe q hq]

/-- `linkedlist_remove` of a list in which the search function accepts an element. -/
theorem LinkedList.Represents.linkedlistRemove_some (h : ll.Represents heap (cs ++ c :: ds))
    (hbefore : ∀ b ∈ cs, f b.2 = false) (hc : f c.2 = true) :
    ∃ ll' heap', linkedlistRemove heap ll f = .ok (some c.2, ll', heap') ∧
      ll'.Represents heap' (cs ++ ds) ∧
      ∀ q, q ∉ (cs ++ c :: ds).map Prod.fst → heap'.cell q = heap.cell q := by
  have hne : cs ++ c :: ds ≠ [] := List.append_ne_nil_of_right_ne_nil _ (List.cons_ne_nil c ds)
  have hfind : (cs ++ c :: ds).find? (fun c => f c.2) = some c := List.find?_eq_some_iff_append.mpr
    ⟨hc, cs, ds, rfl, fun b hb => congrArg not (hbefore b hb)⟩
  have hsearch := linkednodeSearch_eq (f := f) h.segment hne (Nat.le_succ_of_le h.length_le)
  rw [hfind] at hsearch
  obtain ⟨heap1, hunlink, hcell, h', hframe⟩ := h.takeOut
  refine ⟨_, _, ?_, h', hframe⟩
  unfold DartSync.linkedlistRemove linkednodeRemove
  rw [if_neg (h.root_ne hne), h.root_eq]
  refine bind_eq_ok.mpr ⟨(some c.1, heap1), bind_eq_ok.mpr ⟨_, hsearch,
    bind_eq_ok.mpr ⟨heap1, hunlink, rfl⟩⟩, ?_⟩
  refine (if_neg (Option.some_ne_none c.1)).trans (bind_eq_ok.mpr ⟨_, deref_eq hcell, ?_⟩)
  exact bind_eq_ok.mpr ⟨_, linkednodeDestroy_eq hcell, rfl⟩

/-- `linkedlist_remove` of a list in which the search function accepts no element. -/
theorem LinkedList.Represents.linkedlistRemove_none (h : ll.Represents heap cs)
    (hnone : ∀ c ∈ cs, f c.2 = false) : linkedlistRemove heap ll f = .ok (none, ll, heap) := by
  unfold DartSync.linkedlistRemove linkednodeRemove
  by_cases hcs : cs = []
  · exact if_pos (by rw [h.root_eq, hcs]; rfl)
  · have hsearch := linkednodeSearch_eq (f := f) h.segment hcs (Nat.le_succ_of_le h.length_le)
    rw [List.find?_eq_none.mpr fun c hc => by rw [hnone c hc]; exact nofun] at hsearch
    rw [if_neg (h.root_ne hcs), h.root_eq]
    exact bind_eq_ok.mpr ⟨(none, heap), bind_eq_ok.mpr ⟨_, hsearch, rfl⟩, rfl⟩

/-- The first element that the search function accepts. -/
theorem find?_map_snd (hbefore : ∀ b ∈ cs, f b.2 = false) (hc : f c.2 = true) :
    ((cs ++ c :: ds).map Prod.snd).find? f = some c.2 := by
  have hfind : (cs ++ c :: ds).find? (f ∘ Prod.snd) = some c := List.find?_eq_some_iff_append.mpr
    ⟨hc, cs, ds, rfl, fun b hb => congrArg not (hbefore b hb)⟩
  rw [List.find?_map, hfind]
  rfl

theorem eraseP_map_snd (hbefore : ∀ b ∈ cs, f b.2 = false) (hc : f c.2 = true) :
    ((cs ++ c :: ds).map Prod.snd).eraseP f = (cs ++ ds).map Prod.snd := by
  rw [List.map_append, List.map_append, List.map_cons, List.eraseP_append_right,
    List.eraseP_cons_of_pos hc]
  intro x hx
  obtain ⟨b, hb, rfl⟩ := List.mem_map.mp hx
  exact Bool.eq_false_iff.mp (hbefore b hb)

/-- `linkedlist_remove` takes out the first element that the search function accepts. -/
theorem LinkedList.Represents.linkedlistRemove (h : ll.Represents heap cs) (f : α → Bool) :
    ∃ ll' heap' cs', linkedlistRemove heap ll f = .ok ((cs.map Prod.snd).find? f, ll', heap') ∧
      ll'.Represents heap' cs' ∧ cs'.map Prod.snd = (cs.map Prod.snd).eraseP f ∧ cs' ⊆ cs ∧
      ∀ q, q ∉ cs.map Prod.fst → heap'.cell q = heap.cell q := by
  cases hfind : cs.find? fun c => f c.2 with
  | none =>
    have hnone : ∀ c ∈ cs, f c.2 = false := fun c hc =>
      Bool.eq_false_iff.mpr (List.find?_eq_none.mp hfind c hc)
    refine ⟨ll, heap, cs, ?_, h, ?_, List.Subset.refl cs, fun _ _ => rfl⟩
    · rw [h.linkedlistRemove_none hnone, List.find?_map]
      show _ = Except.ok ((cs.find? fun c => f c.2).map Prod.snd, ll, heap)
      rw [hfind]
      rfl
    · refine (List.eraseP_of_forall_not fun x hx => ?_).symm
      obtain ⟨c, hc, rfl⟩ := List.mem_map.mp hx
      rw [hnone c hc]
      exact nofun
  | some c =>
    obtain ⟨hc, init, rest, rfl, hbefore⟩ := List.find?_eq_some_iff_append.mp hfind
    have hbefore : ∀ b ∈ init, f b.2 = false := fun b hb => by simpa using hbefore b hb
    obtain ⟨ll', heap', hremove, h', hframe⟩ := h.linkedlistRemove_some hbefore hc
    refine ⟨ll', heap', init ++ rest, ?_, h', ?_, fun b hb => ?_, hframe⟩
    · rw [hremove, find?_map_snd hbefore hc]
    · rw [eraseP_map_snd hbefore hc]
    · rcases List.mem_append.mp hb with hb | hb
      · exact List.mem_append_left _ hb
      · exact List.mem_append_right _ (List.mem_cons_of_mem c hb)

theorem linkednodeDestroyAll_eq (h : Segment heap.cell back cs none) (hnodup : (cs.map Prod.fst).Nodup)
    (hfuel : cs.length < fuel) : ∃ heap', linkednodeDestroyAll fuel heap (firstOf cs none) = .ok heap' ∧
      ∀ q, q ∉ cs.map Prod.fst → heap'.cell q = heap.cell q := by
  induction fuel generalizing heap back cs with
  | zero => exact absurd hfuel (Nat.not_lt_zero _)
  | succ fuel ih =>
    unfold linkednodeDestroyAll
    cases cs with
    | nil => exact ⟨heap, rfl, fun _ _ => rfl⟩
    | cons c cs =>
      obtain ⟨hc, hnodup⟩ := List.nodup_cons.mp hnodup
      have hsegment : Segment (heap.free c.1).cell (some c.1) cs none :=
        h.2.congr fun q hq => Heap.cell_free_of_ne fun heq => hc (heq ▸ hq)
      obtain ⟨heap', hloop, hframe⟩ := ih hsegment hnodup (Nat.lt_of_succ_lt_succ hfuel)
      refine ⟨heap', ?_, fun q hq => ?_⟩
      · rw [if_neg (by exact nofun)]
        exact bind_eq_ok.mpr ⟨_, deref_eq h.1, bind_eq_ok.mpr ⟨_, linkednodeDestroy_eq h.1, hloop⟩⟩
      · rw [List.map_cons, List.mem_cons, not_or] at hq
        rw [hframe q hq.2, Heap.cell_free_of_ne hq.1]

/-- `linkedlist_remove_all` -/
theorem LinkedList.Represents.linkedlistRemoveAll (h : ll.Represents heap cs) :
    ∃ ll' heap', linkedlistRemoveAll heap ll = .ok (ll', heap') ∧ ll'.Represents heap' [] ∧
      ∀ q, q ∉ cs.map Prod.fst → heap'.cell q = heap.cell q := by
  obtain ⟨heap', hloop, hframe⟩ :=
    linkednodeDestroyAll_eq h.segment h.nodup (Nat.lt_succ_of_le h.length_le)
  refine ⟨⟨none, none, 0⟩, heap', ?_, ⟨rfl, fun hne => absurd rfl hne, rfl, trivial, List.nodup_nil⟩,
    hframe⟩
  unfold DartSync.linkedlistRemoveAll
  rw [h.root_eq]
  exact bind_eq_ok.mpr ⟨heap', hloop, rfl⟩

/-- `linkedlistiterator_next` when the iterator has gone through `cs`. -/
theorem LinkedList.Represents.linkedlistiteratorNext (h : ll.Represents heap (cs ++ ds)) :
    linkedlistiteratorNext heap ll (lastOf none cs) = .ok (match ds with
      | [] => (none, lastOf none cs)
      | d :: _ => (some d.2, some d.1)) := by
  unfold DartSync.linkedlistiteratorNext
  by_cases hcs : cs = []
  · subst hcs
    cases ds with
    | nil =>
      rw [if_neg fun hroot => hroot.2 h.root_eq]
      rfl
    | cons d ds =>
      have hroot : ll.root = some d.1 := h.root_eq
      rw [if_pos ⟨rfl, by rw [hroot]; exact Option.some_ne_none d.1⟩, hroot]
      exact bind_eq_ok.mpr ⟨_, deref_eq h.segment.1, rfl⟩
  · obtain ⟨init, c, rfl⟩ : ∃ init c, cs = init ++ [c] :=
      ⟨_, _, (List.dropLast_append_getLast hcs).symm⟩
    obtain ⟨hcs', hds⟩ := segment_append.mp h.segment
    have hc : heap.cell c.1 = some ⟨firstOf ds none, lastOf none init, c.2⟩ :=
      (segment_append.mp hcs').2.1
    rw [lastOf_concat, if_neg fun hroot => Option.some_ne_none c.1 hroot.1,
      if_pos (Option.some_ne_none c.1)]
    refine bind_eq_ok.mpr ⟨_, deref_eq hc, ?_⟩
    cases ds with
    | nil => rfl
    | cons d ds =>
      exact (if_pos (Option.some_ne_none d.1)).trans (bind_eq_ok.mpr ⟨_, deref_eq hds.1, rfl⟩)

end Operations

end DartSync
