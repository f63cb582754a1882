import DartSync.LinkedList

/-!
# List iterators in memory

The iterator of `LinkedList.c`. Where it stands is said by the chain before it and the chain ahead of
it: it points to the last node of the former, or to no node if there is none. On a list that stands for
the two chains no function aborts, other than `linkedlistiterator_previous` on an empty list.
-/

namespace DartSync

open Memory

variable {α : Type}

/-- `_LinkedListIterator` -/
structure LinkedListIterator where
  ln : Pointer
  index : ℤ

namespace LinkedListIterator

/-- `linkedlistiterator_new` -/
def linkedlistiteratorNew : LinkedListIterator := ⟨none, 0⟩

/-- `linkedlistiterator_next`, with the index. -/
def next (heap : NodeHeap α) (ll : LinkedList) (lli : LinkedListIterator) :
    Except Abort (Option α × LinkedListIterator) :=
  if lli.ln = none ∧ ll.root ≠ none then do
    let node ← deref heap ll.root
    return (some node.element, ⟨ll.root, 0⟩)
  else if lli.ln ≠ none then do
    let node ← deref heap lli.ln
    if node.forward ≠ none then do
      let next ← deref heap node.forward
      return (some next.element, ⟨node.forward, lli.index + 1⟩)
    else pure (none, lli)
  else .ok (none, lli)

/-- `linkedlistiterator_previous` -/
def previous (heap : NodeHeap α) (ll : LinkedList) (lli : LinkedListIterator) :
    Except Abort (Option α × LinkedListIterator) :=
  if lli.ln = none ∧ ll.tail ≠ none then do
    let node ← deref heap ll.tail
    return (some node.element, ⟨ll.tail, ll.size - 1⟩)
  else do
    -- the source follows `ln` here without asking whether it is NULL
    let node ← deref heap lli.ln
    if node.back ≠ none then do
      let back ← deref heap node.back
      return (some back.element, ⟨node.back, lli.index - 1⟩)
    else pure (none, lli)

/-- `linkedlistiterator_insert_before` -/
def insertBefore (heap : NodeHeap α) (hint : ℕ) (ll : LinkedList) (lli : LinkedListIterator)
    (element : α) : Except Abort (Bool × LinkedList × LinkedListIterator × NodeHeap α) :=
  if lli.ln ≠ none then do
    let node ← deref heap lli.ln
    if node.back = none then do
      let (newNode, heap) := linkednodeNew heap hint lli.ln none element
      let heap ← assign heap lli.ln fun ln => { ln with back := newNode }
      return (true, ⟨newNode, ll.tail, ll.size + 1⟩, ⟨lli.ln, lli.index + 1⟩, heap)
    else do
      let (newNode, heap) := linkednodeNew heap hint lli.ln node.back element
      let heap ← assign heap node.back fun back => { back with forward := newNode }
      let heap ← assign heap lli.ln fun ln => { ln with back := newNode }
      return (true, ⟨ll.root, ll.tail, ll.size + 1⟩, ⟨lli.ln, lli.index + 1⟩, heap)
  else .ok (false, ll, lli, heap)

/-- `linkedlistiterator_insert_after` -/
def insertAfter (heap : NodeHeap α) (hint : ℕ) (ll : LinkedList) (lli : LinkedListIterator)
    (element : α) : Except Abort (Bool × LinkedList × LinkedListIterator × NodeHeap α) :=
  if lli.ln ≠ none then do
    let node ← deref heap lli.ln
    if node.forward = none then do
      let (newNode, heap) := linkednodeNew heap hint none lli.ln element
      let heap ← assign heap lli.ln fun ln => { ln with forward := newNode }
      return (true, ⟨ll.root, newNode, ll.size + 1⟩, lli, heap)
    else do
      let (newNode, heap) := linkednodeNew heap hint node.forward lli.ln element
      let heap ← assign heap node.forward fun forward => { forward with back := newNode }
      let heap ← assign heap lli.ln fun ln => { ln with forward := newNode }
      return (true, ⟨ll.root, ll.tail, ll.size + 1⟩, lli, heap)
  else .ok (false, ll, lli, heap)

/-- `linkedlistiterator_remove` -/
def remove (heap : NodeHeap α) (ll : LinkedList) (lli : LinkedListIterator) :
    Except Abort (Option α × LinkedList × LinkedListIterator × NodeHeap α) :=
  if lli.ln ≠ none then do
    let node ← deref heap lli.ln
    let heap ← linkednodeUnlink heap lli.ln
    let toRemove ← deref heap lli.ln
    let root := if toRemove.back = none then toRemove.forward else ll.root
    let tail := if toRemove.forward = none then toRemove.back else ll.tail
    let heap ← linkednodeDestroy heap lli.ln
    return (some toRemove.element, ⟨root, tail, ll.size - 1⟩, ⟨node.back, lli.index - 1⟩, heap)
  else .ok (none, ll, lli, heap)

/-- `linkedlistiterator_reset` -/
def reset (lli : LinkedListIterator) : LinkedListIterator := { lli with ln := none }

/-- The index goes its own way. -/
theorem map_next (heap : NodeHeap α) (ll : LinkedList) (lli : LinkedListIterator) :
    (lli.next heap ll).map (fun r => (r.1, r.2.ln)) = linkedlistiteratorNext heap ll lli.ln := by
  unfold next linkedlistiteratorNext
  split_ifs with hroot hln
  · cases deref heap ll.root <;> rfl
  · cases deref heap lli.ln with
    | error => rfl
    | ok node =>
      show ((if node.forward ≠ none then _ else _) : Except Abort _).map _ =
        if node.forward ≠ none then _ else _
      split_ifs with hforward
      · cases deref heap node.forward <;> rfl
      · rfl
  · rfl

/-! ## Inserting a node into a chain -/

section Operations

variable {heap heap' : NodeHeap α} {ll : LinkedList} {lli : LinkedListIterator} {back stop : Pointer}
  {cs ds : List (ℕ × α)} {c : ℕ × α} {p : ℕ} {x : α}

/-- `relink`, the second chain first. -/
theorem relink_forward (stop' back' : Pointer) (hcs : Segment heap.cell none cs stop)
    (hds : Segment heap.cell back ds none) (hnodup : ((cs ++ ds).map Prod.fst).Nodup) :
    ∃ heap1 heap2, (firstOf ds none = none → heap1 = heap) ∧
      (firstOf ds none ≠ none →
        assign heap (firstOf ds none) (fun forward => { forward with back := back' }) = .ok heap1) ∧
      (lastOf none cs ≠ none →
        assign heap1 (lastOf none cs) (fun back => { back with forward := stop' }) = .ok heap2) ∧
      Segment heap2.cell none cs stop' ∧ Segment heap2.cell back' ds none ∧
      ∀ q, q ∉ (cs ++ ds).map Prod.fst → heap2.cell q = heap.cell q := by
  rw [List.map_append, List.nodup_append] at hnodup
  obtain ⟨hnodupcs, hnodupds, hdisjoint⟩ := hnodup
  have hdiff : ∀ q ∈ cs.map Prod.fst, q ∉ ds.map Prod.fst := fun q hq hmem =>
    hdisjoint _ hq _ hmem rfl
  obtain ⟨heap1, hsame1, hassign1, hseg1, hframe1⟩ := assign_firstOf back' hds hnodupds
  obtain ⟨heap2, -, hassign2, hseg2, hframe2⟩ :=
    assign_lastOf stop' (hcs.congr fun q hq => hframe1 q (hdiff q hq)) hnodupcs
  refine ⟨heap1, heap2, hsame1, hassign1, hassign2, hseg2,
    hseg1.congr fun q hq => hframe2 q fun hmem => hdiff q hmem hq, fun q hq => ?_⟩
  rw [List.map_append, List.mem_append, not_or] at hq
  rw [hframe2 q hq.1, hframe1 q hq.2]

/-- The list with a node between two chains. -/
theorem represents_insert (h : ll.Represents heap (cs ++ ds)) (hp : p ∉ (cs ++ ds).map Prod.fst)
    (hcs : Segment heap'.cell none cs (some p)) (hds : Segment heap'.cell (some p) ds none)
    (hcell : heap'.cell p = some ⟨firstOf ds none, lastOf none cs, x⟩) :
    LinkedList.Represents ⟨if lastOf none cs = none then some p else ll.root,
      if firstOf ds none = none then some p else ll.tail, ll.size + 1⟩ heap' (cs ++ (p, x) :: ds) where
  root_eq := by
    show (if lastOf none cs = none then some p else ll.root) = _
    rw [firstOf_append]
    by_cases hnil : cs = []
    · rw [if_pos (lastOf_eq_none.mpr hnil), hnil]
      rfl
    · rw [if_neg (mt lastOf_eq_none.mp hnil), h.root_eq, firstOf_append]
      obtain ⟨b, cs, rfl⟩ := List.exists_cons_of_ne_nil hnil
      rfl
  tail_eq _ := by
    show (if firstOf ds none = none then some p else ll.tail) = _
    rw [lastOf_append]
    by_cases hnil : ds = []
    · rw [if_pos (firstOf_eq_none.mpr hnil), hnil]
      rfl
    · rw [if_neg (mt firstOf_eq_none.mp hnil), h.tail_eq (List.append_ne_nil_of_right_ne_nil _ hnil),
        lastOf_append]
      exact lastOf_of_ne_nil hnil
  size_eq := by
    show ll.size + 1 = _
    rw [h.size_eq, List.length_append, List.length_append, List.length_cons]
    rfl
  segment := segment_append.mpr ⟨hcs, hcell, hds⟩
  nodup := by
    rw [List.map_append, List.map_cons, List.nodup_middle, List.nodup_cons, ← List.map_append]
    exact ⟨hp, h.nodup⟩

/-- `linkedlistiterator_insert_before` -/
theorem insertBefore_eq (h : ll.Represents heap (cs ++ c :: ds)) (hln : lli.ln = some c.1) (hint : ℕ)
    (x : α) : ∃ p ll' heap', lli.insertBefore heap hint ll x =
      .ok (true, ll', ⟨some c.1, lli.index + 1⟩, heap') ∧
      ll'.Represents heap' (cs ++ (p, x) :: c :: ds) := by
  have hp := h.fresh_notMem hint
  have hc : heap.cell c.1 = some ⟨firstOf ds none, lastOf none cs, c.2⟩ := (segment_append.mp h.segment).2.1
  let heap1 := heap.put (heap.fresh hint) ⟨some c.1, lastOf none cs, x⟩
  have hseg : Segment heap1.cell none (cs ++ c :: ds) none :=
    h.segment.congr fun q hq => Heap.cell_put_of_ne fun heq => hp (heq ▸ hq)
  obtain ⟨hcs, hds⟩ := segment_append.mp hseg
  obtain ⟨heap2, heap3, hsame2, hassign2, -, hassign3, hcs3, hds3, -, hframe⟩ :=
    relink (some (heap.fresh hint)) (some (heap.fresh hint)) hcs hds h.nodup
  have hassign3 := hassign3 (Option.some_ne_none c.1)
  have h' := represents_insert h hp hcs3 hds3 ((hframe _ hp).trans Heap.cell_put)
  refine ⟨_, _, heap3, ?_, h'⟩
  unfold insertBefore
  rw [hln, if_pos (Option.some_ne_none c.1), if_neg (show firstOf (c :: ds) none ≠ none from
    Option.some_ne_none c.1)]
  refine bind_eq_ok.mpr ⟨_, deref_eq hc, ?_⟩
  by_cases hback : lastOf none cs = none
  · rw [if_pos hback, if_pos hback]
    have heq : heap1 = heap.put (heap.fresh hint) ⟨some c.1, none, x⟩ := by rw [← hback]
    rw [hsame2 hback, heq] at hassign3
    exact bind_eq_ok.mpr ⟨heap3, hassign3, rfl⟩
  · rw [if_neg hback, if_neg hback]
    exact bind_eq_ok.mpr ⟨heap2, hassign2 hback, bind_eq_ok.mpr ⟨heap3, hassign3, rfl⟩⟩

/-- `linkedlistiterator_insert_after` -/
theorem insertAfter_eq (h : ll.Represents heap (cs ++ c :: ds)) (hln : lli.ln = some c.1) (hint : ℕ)
    (x : α) : ∃ p ll' heap', lli.insertAfter heap hint ll x = .ok (true, ll', lli, heap') ∧
      ll'.Represents heap' (cs ++ c :: (p, x) :: ds) := by
  have hsplit : cs ++ c :: ds = (cs ++ [c]) ++ ds := (List.append_cons cs c ds)
  have hc : heap.cell c.1 = some ⟨firstOf ds none, lastOf none cs, c.2⟩ := (segment_append.mp h.segment).2.1
  rw [hsplit] at h
  have hp := h.fresh_notMem hint
  let heap1 := heap.put (heap.fresh hint) ⟨firstOf ds none, some c.1, x⟩
  have hseg : Segment heap1.cell none ((cs ++ [c]) ++ ds) none :=
    h.segment.congr fun q hq => Heap.cell_put_of_ne fun heq => hp (heq ▸ hq)
  obtain ⟨hcs, hds⟩ := segment_append.mp hseg
  obtain ⟨heap2, heap3, hsame2, hassign2, hassign3, hcs3, hds3, hframe⟩ :=
    relink_forward (some (heap.fresh hint)) (some (heap.fresh hint)) hcs hds h.nodup
  rw [lastOf_concat] at hassign3
  have hassign3 := hassign3 (Option.some_ne_none c.1)
  have hnew : heap3.cell (heap.fresh hint) = some ⟨firstOf ds none, lastOf none (cs ++ [c]), x⟩ := by
    rw [lastOf_concat]
    exact (hframe _ hp).trans Heap.cell_put
  have h' := represents_insert h hp hcs3 hds3 hnew
  rw [← List.append_cons, lastOf_concat, if_neg (Option.some_ne_none c.1)] at h'
  refine ⟨_, _, heap3, ?_, h'⟩
  unfold insertAfter
  rw [hln, if_pos (Option.some_ne_none c.1)]
  refine bind_eq_ok.mpr ⟨_, deref_eq hc, ?_⟩
  by_cases hforward : firstOf ds none = none
  · rw [if_pos hforward, if_pos hforward]
    have heq : heap1 = heap.put (heap.fresh hint) ⟨none, some c.1, x⟩ := by rw [← hforward]
    rw [hsame2 hforward, heq] at hassign3
    exact bind_eq_ok.mpr ⟨heap3, hassign3, rfl⟩
  · rw [if_neg hforward, if_neg hforward]
    exact bind_eq_ok.mpr ⟨heap2, hassign2 hforward, bind_eq_ok.mpr ⟨heap3, hassign3, rfl⟩⟩

/-! ## The other functions -/

/-- `linkedlistiterator_next` -/
theorem next_eq (h : ll.Represents heap (cs ++ ds)) (hln : lli.ln = lastOf none cs) :
    ∃ lli', lli.next heap ll = .ok (ds.head?.map Prod.snd, lli') ∧
      lli'.ln = lastOf none (cs ++ ds.take 1) := by
  have hnext := h.linkedlistiteratorNext
  rw [← hln, ← map_next] at hnext
  cases hok : lli.next heap ll with
  | error a => rw [hok] at hnext; cases hnext
  | ok r =>
    rw [hok] at hnext
    have hr := Except.ok.inj hnext
    have hfst : r.1 = ds.head?.map Prod.snd := (congrArg Prod.fst hr).trans (by cases ds <;> rfl)
    refine ⟨r.2, congrArg Except.ok (Prod.ext hfst rfl), ?_⟩
    rw [lastOf_append, ← hln]
    exact (congrArg Prod.snd hr).trans (by cases ds <;> rfl)

/-- `linkedlistiterator_previous` from no node. -/
theorem previous_last (h : ll.Represents heap (cs ++ [c])) (hln : lli.ln = none) :
    ∃ index, lli.previous heap ll = .ok (some c.2, ⟨some c.1, index⟩) := by
  have htail := h.tail_eq (List.append_ne_nil_of_right_ne_nil _ (List.cons_ne_nil c []))
  rw [lastOf_concat] at htail
  have hc : heap.cell c.1 = some ⟨none, lastOf none cs, c.2⟩ := (segment_append.mp h.segment).2.1
  unfold previous
  rw [if_pos ⟨hln, by rw [htail]; exact Option.some_ne_none c.1⟩, htail]
  exact ⟨_, bind_eq_ok.mpr ⟨_, deref_eq hc, rfl⟩⟩

/-- `linkedlistiterator_previous` from a node. -/
theorem previous_eq (h : ll.Represents heap (cs ++ c :: ds)) (hln : lli.ln = some c.1) :
    ∃ lli', lli.previous heap ll = .ok (cs.getLast?.map Prod.snd, lli') ∧
      lli'.ln = if cs = [] then some c.1 else lastOf none cs := by
  obtain ⟨hcs, hc, -⟩ := segment_append.mp h.segment
  unfold previous
  rw [if_neg fun hnone => Option.some_ne_none c.1 (hln ▸ hnone.1), hln]
  by_cases hnil : cs = []
  · subst hnil
    exact ⟨lli, bind_eq_ok.mpr ⟨_, deref_eq hc, rfl⟩, hln⟩
  · obtain ⟨init, b, rfl⟩ : ∃ init b, cs = init ++ [b] :=
      ⟨_, _, (List.dropLast_append_getLast hnil).symm⟩
    have hb : heap.cell b.1 = some ⟨some c.1, lastOf none init, b.2⟩ := (segment_append.mp hcs).2.1
    rw [lastOf_concat] at hc
    rw [List.getLast?_concat, if_neg hnil, lastOf_concat]
    exact ⟨_, bind_eq_ok.mpr ⟨_, deref_eq hc, (if_pos (Option.some_ne_none b.1)).trans
      (bind_eq_ok.mpr ⟨_, deref_eq hb, rfl⟩)⟩, rfl⟩

/-- From no node it follows `tail`, or else NULL, and never returns that there is no element. -/
theorem previous_ne_none (hln : lli.ln = none) (lli' : LinkedListIterator) :
    lli.previous heap ll ≠ .ok (none, lli') := by
  intro hok
  unfold previous at hok
  split_ifs at hok with htail
  · obtain ⟨node, -, hnode⟩ := bind_eq_ok.mp hok
    cases hnode
  · rw [hln] at hok
    cases hok

/-- `linkedlistiterator_remove` -/
theorem remove_eq (h : ll.Represents heap (cs ++ c :: ds)) (hln : lli.ln = some c.1) :
    ∃ ll' lli' heap', lli.remove heap ll = .ok (some c.2, ll', lli', heap') ∧
      ll'.Represents heap' (cs ++ ds) ∧ lli'.ln = lastOf none cs := by
  have hc : heap.cell c.1 = some ⟨firstOf ds none, lastOf none cs, c.2⟩ := (segment_append.mp h.segment).2.1
  obtain ⟨heap1, hunlink, hcell, h', -⟩ := h.takeOut
  refine ⟨_, ⟨lastOf none cs, lli.index - 1⟩, _, ?_, h', rfl⟩
  unfold remove
  rw [hln, if_pos (Option.some_ne_none c.1)]
  refine bind_eq_ok.mpr ⟨_, deref_eq hc, bind_eq_ok.mpr ⟨heap1, hunlink,
    bind_eq_ok.mpr ⟨_, deref_eq hcell, ?_⟩⟩⟩
  exact bind_eq_ok.mpr ⟨_, linkednodeDestroy_eq hcell, rfl⟩

end Operations

end LinkedListIterator

end DartSync
