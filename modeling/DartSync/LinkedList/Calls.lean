import DartSync.Library.Runs
import DartSync.LinkedList.Iterator

/-!
# Calls on a linked list and its iterator

What a call is to do is said on a list with a cursor (`cursorCall`). In every run in which
`linkedlistiterator_previous` is not called on an empty list, every call does that
(`linkedlist_refines_cursor`), and the links, the ends and the size are those of the list.
-/

namespace DartSync

open Memory Runs

variable {α : Type}

/-- A search function comes at its key; `hint` is where `malloc` looks first. -/
inductive LinkedListCall (α : Type)
  | append (hint : ℕ) (element : α)
  | remove (f : α → Bool)
  | get (f : α → Bool)
  | removeAll
  | next
  | previous
  | insertBefore (hint : ℕ) (element : α)
  | insertAfter (hint : ℕ) (element : α)
  | iteratorRemove
  | reset

/-- What a call returns. -/
inductive LinkedListAnswer (α : Type)
  | nothing
  | element (element : Option α)
  | inserted (inserted : Bool)

/-! ## Lists with a cursor -/

/-- A list with a cursor. An unpositioned cursor has passed no element. -/
inductive CursorList (α : Type)
  /-- `passed` begins with the current element and goes backwards. -/
  | cursor (passed ahead : List α)
  /-- The list has lost the current element without the cursor. -/
  | dangling (elements : List α)

namespace CursorList

def elements : CursorList α → List α
  | cursor passed ahead => passed.reverse ++ ahead
  | dangling elements => elements

def append (x : α) : CursorList α → CursorList α
  | cursor passed ahead => cursor passed (ahead ++ [x])
  | dangling elements => dangling (elements ++ [x])

def remove (f : α → Bool) : CursorList α → CursorList α
  | cursor [] ahead => cursor [] (ahead.eraseP f)
  | cursor (x :: passed) ahead =>
    if passed.any f then cursor (x :: (passed.reverse.eraseP f).reverse) ahead
    else if f x then dangling (passed.reverse ++ ahead)
    else cursor (x :: passed) (ahead.eraseP f)
  | dangling elements => dangling (elements.eraseP f)

def removeAll : CursorList α → CursorList α
  | cursor [] _ => cursor [] []
  | _ => dangling []

def next : CursorList α → Option α × CursorList α
  | cursor passed (x :: ahead) => (some x, cursor (x :: passed) ahead)
  | list => (none, list)

def previous : CursorList α → Option α × CursorList α
  | cursor [] ahead => (ahead.getLast?, cursor ahead.reverse [])
  | cursor (x :: y :: passed) ahead => (some y, cursor (y :: passed) (x :: ahead))
  | list => (none, list)

def insertBefore (y : α) : CursorList α → Bool × CursorList α
  | cursor (x :: passed) ahead => (true, cursor (x :: y :: passed) ahead)
  | list => (false, list)

def insertAfter (y : α) : CursorList α → Bool × CursorList α
  | cursor (x :: passed) ahead => (true, cursor (x :: passed) (y :: ahead))
  | list => (false, list)

def iteratorRemove : CursorList α → Option α × CursorList α
  | cursor (x :: passed) ahead => (some x, cursor passed ahead)
  | list => (none, list)

def reset (list : CursorList α) : CursorList α := cursor [] list.elements

variable {f : α → Bool} {x : α} {passed ahead : List α}

theorem remove_passed (h : passed.any f = true) : (cursor (x :: passed) ahead).remove f =
    cursor (x :: (passed.reverse.eraseP f).reverse) ahead := if_pos h

theorem remove_current (h : passed.any f = false) (hx : f x = true) :
    (cursor (x :: passed) ahead).remove f = dangling (passed.reverse ++ ahead) :=
  (if_neg (Bool.eq_false_iff.mp h)).trans (if_pos hx)

theorem remove_ahead (h : passed.any f = false) (hx : f x = false) :
    (cursor (x :: passed) ahead).remove f = cursor (x :: passed) (ahead.eraseP f) :=
  (if_neg (Bool.eq_false_iff.mp h)).trans (if_neg (Bool.eq_false_iff.mp hx))

/-- The first of the elements that the search function accepts goes, wherever the cursor is. -/
theorem elements_remove (f : α → Bool) (list : CursorList α) :
    (list.remove f).elements = list.elements.eraseP f := by
  cases list with
  | dangling elements => rfl
  | cursor passed ahead =>
    cases passed with
    | nil => rfl
    | cons x passed =>
      show _ = ((x :: passed).reverse ++ ahead).eraseP f
      rw [List.reverse_cons, List.append_assoc]
      by_cases hpassed : passed.any f = true
      · obtain ⟨y, hy, hfy⟩ := List.any_eq_true.mp hpassed
        rw [remove_passed hpassed, List.eraseP_append_left hfy _ (List.mem_reverse.mpr hy)]
        simp [elements]
      · have hpassed := Bool.eq_false_iff.mpr hpassed
        have hbefore : ∀ y ∈ passed.reverse, ¬ f y = true := fun y hy =>
          List.any_eq_false.mp hpassed y (List.mem_reverse.mp hy)
        rw [List.eraseP_append_right _ hbefore]
        by_cases hx : f x = true
        · rw [remove_current hpassed hx, List.singleton_append, List.eraseP_cons_of_pos hx]
          rfl
        · rw [remove_ahead hpassed (Bool.eq_false_iff.mpr hx), List.singleton_append,
            List.eraseP_cons_of_neg hx]
          simp [elements]

end CursorList

/-- What a call is to do. -/
def cursorCall (list : CursorList α) : LinkedListCall α → LinkedListAnswer α × CursorList α
  | .append _ element => (.nothing, list.append element)
  | .remove f => (.element (list.elements.find? f), list.remove f)
  | .get f => (.element (list.elements.find? f), list)
  | .removeAll => (.nothing, list.removeAll)
  | .next => (.element list.next.1, list.next.2)
  | .previous => (.element list.previous.1, list.previous.2)
  | .insertBefore _ element => (.inserted (list.insertBefore element).1, (list.insertBefore element).2)
  | .insertAfter _ element => (.inserted (list.insertAfter element).1, (list.insertAfter element).2)
  | .iteratorRemove => (.element list.iteratorRemove.1, list.iteratorRemove.2)
  | .reset => (.nothing, list.reset)

/-! ## Lists in memory -/

/-- A list and its iterator in memory. -/
structure IteratedList (α : Type) where
  heap : NodeHeap α
  ll : LinkedList
  lli : LinkedListIterator

/-- What the code does. -/
def linkedlistCall (s : IteratedList α) :
    LinkedListCall α → Except Abort (LinkedListAnswer α × IteratedList α)
  | .append hint element => do
    let (ll, heap) ← linkedlistAppend s.heap hint s.ll element
    return (.nothing, ⟨heap, ll, s.lli⟩)
  | .remove f => do
    let (element, ll, heap) ← linkedlistRemove s.heap s.ll f
    return (.element element, ⟨heap, ll, s.lli⟩)
  | .get f => do
    let element ← linkedlistGet s.heap s.ll f
    return (.element element, s)
  | .removeAll => do
    let (ll, heap) ← linkedlistRemoveAll s.heap s.ll
    return (.nothing, ⟨heap, ll, s.lli⟩)
  | .next => do
    let (element, lli) ← s.lli.next s.heap s.ll
    return (.element element, ⟨s.heap, s.ll, lli⟩)
  | .previous => do
    let (element, lli) ← s.lli.previous s.heap s.ll
    return (.element element, ⟨s.heap, s.ll, lli⟩)
  | .insertBefore hint element => do
    let (inserted, ll, lli, heap) ← s.lli.insertBefore s.heap hint s.ll element
    return (.inserted inserted, ⟨heap, ll, lli⟩)
  | .insertAfter hint element => do
    let (inserted, ll, lli, heap) ← s.lli.insertAfter s.heap hint s.ll element
    return (.inserted inserted, ⟨heap, ll, lli⟩)
  | .iteratorRemove => do
    let (element, ll, lli, heap) ← s.lli.remove s.heap s.ll
    return (.element element, ⟨heap, ll, lli⟩)
  | .reset => .ok (.nothing, ⟨s.heap, s.ll, s.lli.reset⟩)

/-- The list is a chain of nodes with links in both directions, with its ends and its size, and the
iterator stands where the cursor stands. -/
def IteratedList.Represents (s : IteratedList α) : CursorList α → Prop
  | .cursor passed ahead => ∃ cs ds, s.ll.Represents s.heap (cs ++ ds) ∧
      s.lli.ln = lastOf none cs ∧ cs.map Prod.snd = passed.reverse ∧ ds.map Prod.snd = ahead
  | .dangling elements => ∃ cs, s.ll.Represents s.heap cs ∧ cs.map Prod.snd = elements

/-- The iterator is not used after the list has lost its node; it may be reset. -/
def MayCall : CursorList α → LinkedListCall α → Prop
  | .dangling _, .next | .dangling _, .previous | .dangling _, .insertBefore _ _
  | .dangling _, .insertAfter _ _ | .dangling _, .iteratorRemove => False
  | _, _ => True

/-- The condition under which a call does what it is to do. -/
def StaysInList (list : CursorList α) : LinkedListCall α → Prop
  | .previous => list.elements ≠ []
  | _ => True

/-- No missing node is followed, what is returned is right, and so is the list afterwards. -/
def CallsCursor (s : IteratedList α) (list : CursorList α) (call : LinkedListCall α) : Prop :=
  ∃ s', linkedlistCall s call = .ok ((cursorCall list call).1, s') ∧
    s'.Represents (cursorCall list call).2

section Calls

variable {s : IteratedList α} {list : CursorList α} {call : LinkedListCall α} {f : α → Bool}
  {x : α} {passed ahead : List α}

/-- Where the current element is. -/
theorem exists_concat {cs : List (ℕ × α)} (h : cs.map Prod.snd = (x :: passed).reverse) :
    ∃ init p, cs = init ++ [(p, x)] ∧ init.map Prod.snd = passed.reverse := by
  rw [List.reverse_cons] at h
  obtain ⟨init, last, rfl, hinit, hlast⟩ := List.map_eq_append_iff.mp h
  obtain ⟨c, rfl, rfl⟩ := List.map_eq_singleton_iff.mp hlast
  exact ⟨init, c.1, rfl, hinit⟩

theorem elements_cursor {cs ds : List (ℕ × α)} (hcs : cs.map Prod.snd = passed.reverse) :
    (CursorList.cursor passed (ds.map Prod.snd)).elements = (cs ++ ds).map Prod.snd := by
  rw [List.map_append, hcs]
  rfl

theorem IteratedList.Represents.exists_chain (h : s.Represents list) :
    ∃ cs, s.ll.Represents s.heap cs ∧ cs.map Prod.snd = list.elements := by
  cases list with
  | dangling elements => exact h
  | cursor passed ahead =>
    obtain ⟨cs, ds, h, -, hcs, rfl⟩ := h
    exact ⟨cs ++ ds, h, (elements_cursor hcs).symm⟩

theorem callsCursor_append (h : s.Represents list) (hint : ℕ) (x : α) :
    CallsCursor s list (.append hint x) := by
  cases list with
  | dangling elements =>
    obtain ⟨cs, h, rfl⟩ := h
    obtain ⟨p, ll', heap', hok, -, h', -⟩ := h.linkedlistAppend hint x
    exact ⟨⟨heap', ll', s.lli⟩, bind_eq_ok.mpr ⟨_, hok, rfl⟩, _, h', List.map_append⟩
  | cursor passed ahead =>
    obtain ⟨cs, ds, h, hln, hcs, rfl⟩ := h
    obtain ⟨p, ll', heap', hok, -, h', -⟩ := h.linkedlistAppend hint x
    rw [List.append_assoc] at h'
    exact ⟨⟨heap', ll', s.lli⟩, bind_eq_ok.mpr ⟨_, hok, rfl⟩, cs, ds ++ [(p, x)], h', hln, hcs,
      List.map_append⟩

theorem callsCursor_get (h : s.Represents list) (f : α → Bool) : CallsCursor s list (.get f) := by
  obtain ⟨cs, hcs, helements⟩ := h.exists_chain
  refine ⟨s, bind_eq_ok.mpr ⟨_, hcs.linkedlistGet f, ?_⟩, h⟩
  rw [helements]
  rfl

theorem callsCursor_removeAll (h : s.Represents list) : CallsCursor s list .removeAll := by
  obtain ⟨cs, hcs, -⟩ := h.exists_chain
  obtain ⟨ll', heap', hok, h', -⟩ := hcs.linkedlistRemoveAll
  refine ⟨⟨heap', ll', s.lli⟩, bind_eq_ok.mpr ⟨_, hok, rfl⟩, ?_⟩
  cases list with
  | dangling elements => exact ⟨[], h', rfl⟩
  | cursor passed ahead =>
    cases passed with
    | cons x passed => exact ⟨[], h', rfl⟩
    | nil =>
      obtain ⟨cs, ds, -, hln, hcs, -⟩ := h
      rw [List.map_eq_nil_iff.mp hcs] at hln
      exact ⟨[], [], h', hln, rfl, rfl⟩

theorem callsCursor_reset (h : s.Represents list) : CallsCursor s list .reset := by
  obtain ⟨cs, hcs, helements⟩ := h.exists_chain
  exact ⟨_, rfl, [], cs, hcs, rfl, rfl, helements⟩

theorem callsCursor_next (h : s.Represents (.cursor passed ahead)) :
    CallsCursor s (.cursor passed ahead) .next := by
  obtain ⟨cs, ds, h, hln, hcs, rfl⟩ := h
  obtain ⟨lli', hok, hln'⟩ := LinkedListIterator.next_eq h hln
  cases ds with
  | nil =>
    rw [List.take_nil, List.append_nil] at hln'
    exact ⟨⟨s.heap, s.ll, lli'⟩, bind_eq_ok.mpr ⟨_, hok, rfl⟩, cs, [], h, hln', hcs, rfl⟩
  | cons d ds =>
    refine ⟨⟨s.heap, s.ll, lli'⟩, bind_eq_ok.mpr ⟨_, hok, rfl⟩, cs ++ [d], ds, ?_, hln', ?_, rfl⟩
    · rwa [← List.append_cons]
    · rw [List.map_append, hcs, List.reverse_cons]
      rfl

theorem callsCursor_insertBefore (h : s.Represents (.cursor passed ahead)) (hint : ℕ) (y : α) :
    CallsCursor s (.cursor passed ahead) (.insertBefore hint y) := by
  obtain ⟨cs, ds, h, hln, hcs, rfl⟩ := h
  cases passed with
  | nil =>
    obtain rfl := List.map_eq_nil_iff.mp hcs
    refine ⟨s, bind_eq_ok.mpr ⟨_, if_neg (not_not.mpr hln), rfl⟩, [], ds, h, hln, rfl, rfl⟩
  | cons x passed =>
    obtain ⟨init, p, rfl, hinit⟩ := exists_concat hcs
    rw [lastOf_concat] at hln
    rw [← List.append_cons] at h
    obtain ⟨q, ll', heap', hok, h'⟩ := LinkedListIterator.insertBefore_eq h hln hint y
    refine ⟨⟨heap', ll', _⟩, bind_eq_ok.mpr ⟨_, hok, rfl⟩, init ++ [(q, y), (p, x)], ds, ?_, ?_, ?_, rfl⟩
    · rwa [List.append_assoc]
    · rw [lastOf_append]
      rfl
    · rw [List.map_append, hinit, List.reverse_cons, List.reverse_cons, List.append_assoc]
      rfl

theorem callsCursor_insertAfter (h : s.Represents (.cursor passed ahead)) (hint : ℕ) (y : α) :
    CallsCursor s (.cursor passed ahead) (.insertAfter hint y) := by
  obtain ⟨cs, ds, h, hln, hcs, rfl⟩ := h
  cases passed with
  | nil =>
    obtain rfl := List.map_eq_nil_iff.mp hcs
    exact ⟨s, bind_eq_ok.mpr ⟨_, if_neg (not_not.mpr hln), rfl⟩, [], ds, h, hln, rfl, rfl⟩
  | cons x passed =>
    obtain ⟨init, p, rfl, hinit⟩ := exists_concat hcs
    have hln' := hln
    rw [lastOf_concat] at hln
    rw [← List.append_cons] at h
    obtain ⟨q, ll', heap', hok, h'⟩ := LinkedListIterator.insertAfter_eq h hln hint y
    refine ⟨⟨heap', ll', s.lli⟩, bind_eq_ok.mpr ⟨_, hok, rfl⟩, init ++ [(p, x)], (q, y) :: ds, ?_, hln',
      hcs, rfl⟩
    rwa [← List.append_cons]

theorem callsCursor_iteratorRemove (h : s.Represents (.cursor passed ahead)) :
    CallsCursor s (.cursor passed ahead) .iteratorRemove := by
  obtain ⟨cs, ds, h, hln, hcs, rfl⟩ := h
  cases passed with
  | nil =>
    obtain rfl := List.map_eq_nil_iff.mp hcs
    exact ⟨s, bind_eq_ok.mpr ⟨_, if_neg (not_not.mpr hln), rfl⟩, [], ds, h, hln, rfl, rfl⟩
  | cons x passed =>
    obtain ⟨init, p, rfl, hinit⟩ := exists_concat hcs
    rw [lastOf_concat] at hln
    rw [← List.append_cons] at h
    obtain ⟨ll', lli', heap', hok, h', hln'⟩ := LinkedListIterator.remove_eq h hln
    exact ⟨⟨heap', ll', lli'⟩, bind_eq_ok.mpr ⟨_, hok, rfl⟩, init, ds, h', hln', hinit, rfl⟩

theorem callsCursor_previous (h : s.Represents (.cursor passed ahead))
    (hne : (CursorList.cursor passed ahead).elements ≠ []) :
    CallsCursor s (.cursor passed ahead) .previous := by
  obtain ⟨cs, ds, h, hln, hcs, rfl⟩ := h
  cases passed with
  | nil =>
    -- from behind the last element
    obtain rfl := List.map_eq_nil_iff.mp hcs
    have hds : ds ≠ [] := fun hnil => hne (by rw [hnil]; rfl)
    obtain ⟨init, c, rfl⟩ : ∃ init c, ds = init ++ [c] :=
      ⟨_, _, (List.dropLast_append_getLast hds).symm⟩
    obtain ⟨index, hok⟩ := LinkedListIterator.previous_last h hln
    refine ⟨⟨s.heap, s.ll, ⟨some c.1, index⟩⟩, bind_eq_ok.mpr ⟨_, hok, ?_⟩, init ++ [c], [], ?_,
      lastOf_concat.symm, ?_, rfl⟩
    · show Except.ok _ = Except.ok (LinkedListAnswer.element ((init ++ [c]).map Prod.snd).getLast?, _)
      rw [List.map_append, List.map_singleton, List.getLast?_concat]
    · rwa [List.append_nil]
    · rw [List.reverse_reverse]
  | cons x passed =>
    obtain ⟨init, p, rfl, hinit⟩ := exists_concat hcs
    rw [lastOf_concat] at hln
    rw [← List.append_cons] at h
    obtain ⟨lli', hok, hln'⟩ := LinkedListIterator.previous_eq h hln
    cases passed with
    | nil =>
      obtain rfl := List.map_eq_nil_iff.mp hinit
      exact ⟨⟨s.heap, s.ll, lli'⟩, bind_eq_ok.mpr ⟨_, hok, rfl⟩, [(p, x)], ds, h, hln', rfl, rfl⟩
    | cons y passed =>
      obtain ⟨init', q, rfl, hinit'⟩ := exists_concat hinit
      rw [List.getLast?_concat] at hok
      rw [if_neg (List.append_ne_nil_of_right_ne_nil _ (List.cons_ne_nil _ _))] at hln'
      exact ⟨⟨s.heap, s.ll, lli'⟩, bind_eq_ok.mpr ⟨_, hok, rfl⟩, init' ++ [(q, y)], (p, x) :: ds, h,
        hln', hinit, rfl⟩

/-- On an empty list the iterator finds no node, and follows what it has. -/
theorem not_callsCursor_previous (h : s.Represents (.cursor [] [])) :
    ¬ CallsCursor s (.cursor [] []) .previous := by
  rintro ⟨s', hok, -⟩
  obtain ⟨cs, ds, -, hln, hcs, -⟩ := h
  rw [List.map_eq_nil_iff.mp hcs] at hln
  obtain ⟨r, hprevious, hr⟩ := bind_eq_ok.mp hok
  have hnone : r.1 = none := by
    have helement := congrArg Prod.fst (Except.ok.inj hr)
    exact LinkedListAnswer.element.inj helement
  have hne : s.lli.previous s.heap s.ll ≠ .ok (none, r.2) :=
    LinkedListIterator.previous_ne_none hln r.2
  exact hne (by rw [hprevious, ← hnone])

/-- `linkedlist_remove` of a node in a known place. -/
theorem linkedlistCall_remove_some {cs ds : List (ℕ × α)} {c : ℕ × α}
    (h : s.ll.Represents s.heap (cs ++ c :: ds)) (hbefore : ∀ b ∈ cs, f b.2 = false)
    (hc : f c.2 = true) : ∃ s', linkedlistCall s (.remove f) =
      .ok (.element (((cs ++ c :: ds).map Prod.snd).find? f), s') ∧
      s'.ll.Represents s'.heap (cs ++ ds) ∧ s'.lli = s.lli := by
  obtain ⟨ll', heap', hok, h', -⟩ := h.linkedlistRemove_some hbefore hc
  rw [find?_map_snd hbefore hc]
  exact ⟨⟨heap', ll', s.lli⟩, bind_eq_ok.mpr ⟨_, hok, rfl⟩, h', rfl⟩

/-- `linkedlist_remove` behind the nodes that the search function does not accept. -/
theorem linkedlistCall_remove_behind {cs ds : List (ℕ × α)} (h : s.ll.Represents s.heap (cs ++ ds))
    (hbefore : ∀ b ∈ cs, f b.2 = false) : ∃ s' ds', linkedlistCall s (.remove f) =
      .ok (.element (((cs ++ ds).map Prod.snd).find? f), s') ∧
      s'.ll.Represents s'.heap (cs ++ ds') ∧ ds'.map Prod.snd = (ds.map Prod.snd).eraseP f ∧
      s'.lli = s.lli := by
  cases hfind : ds.find? fun c => f c.2 with
  | some c =>
    obtain ⟨hc, as, bs, rfl, hbefore'⟩ := List.find?_eq_some_iff_append.mp hfind
    have hbefore' : ∀ b ∈ as, f b.2 = false := fun b hb => by simpa using hbefore' b hb
    have hall : ∀ b ∈ cs ++ as, f b.2 = false := fun b hb =>
      (List.mem_append.mp hb).elim (hbefore b) (hbefore' b)
    rw [← List.append_assoc] at h ⊢
    obtain ⟨s', hok, h', hlli⟩ := linkedlistCall_remove_some h hall hc
    rw [List.append_assoc] at h'
    exact ⟨s', as ++ bs, hok, h', (eraseP_map_snd hbefore' hc).symm, hlli⟩
  | none =>
    have hbefore' : ∀ b ∈ ds, f b.2 = false := fun b hb =>
      Bool.eq_false_iff.mpr (List.find?_eq_none.mp hfind b hb)
    have hall : ∀ b ∈ cs ++ ds, f b.2 = false := fun b hb =>
      (List.mem_append.mp hb).elim (hbefore b) (hbefore' b)
    have hnone : ∀ l : List (ℕ × α), (∀ b ∈ l, f b.2 = false) → ∀ y ∈ l.map Prod.snd, ¬ f y = true := by
      intro l hl y hy
      obtain ⟨b, hb, rfl⟩ := List.mem_map.mp hy
      exact Bool.eq_false_iff.mp (hl b hb)
    rw [List.find?_eq_none.mpr (hnone _ hall)]
    exact ⟨s, ds, bind_eq_ok.mpr ⟨_, h.linkedlistRemove_none hall, rfl⟩, h,
      (List.eraseP_of_forall_not (hnone ds hbefore')).symm, rfl⟩

theorem callsCursor_remove_iff : CallsCursor s list (.remove f) ↔
    ∃ s', linkedlistCall s (.remove f) = .ok (.element (list.elements.find? f), s') ∧
      s'.Represents (list.remove f) := Iff.rfl

/-- The element that goes has been passed. -/
theorem callsCursor_remove_passed (h : s.Represents (.cursor (x :: passed) ahead))
    (hpassed : passed.any f = true) : CallsCursor s (.cursor (x :: passed) ahead) (.remove f) := by
  obtain ⟨cs, ds, h, hln, hcs, rfl⟩ := h
  rw [callsCursor_remove_iff, elements_cursor hcs, CursorList.remove_passed hpassed]
  obtain ⟨init, p, rfl, hinit⟩ := exists_concat hcs
  have hsome : (init.find? fun c => f c.2).isSome := by
    obtain ⟨y, hy, hfy⟩ := List.any_eq_true.mp hpassed
    rw [← List.mem_reverse, ← hinit] at hy
    obtain ⟨b, hb, rfl⟩ := List.mem_map.mp hy
    exact List.find?_isSome.mpr ⟨b, hb, hfy⟩
  obtain ⟨c, hfind⟩ := Option.isSome_iff_exists.mp hsome
  obtain ⟨hc, as, bs, rfl, hbefore⟩ := List.find?_eq_some_iff_append.mp hfind
  have hbefore : ∀ b ∈ as, f b.2 = false := fun b hb => by simpa using hbefore b hb
  rw [List.append_assoc, List.append_assoc, List.cons_append] at h ⊢
  obtain ⟨s', hok, h', hlli⟩ := linkedlistCall_remove_some h hbefore hc
  refine ⟨s', hok, (as ++ bs) ++ [(p, x)], ds, ?_, ?_, ?_, rfl⟩
  · rwa [List.append_assoc, List.append_assoc]
  · rw [hlli, hln, lastOf_concat, lastOf_concat]
  · rw [List.map_append, ← eraseP_map_snd hbefore hc, hinit, List.reverse_cons, List.reverse_reverse]
    rfl

/-- The element that goes has not been passed. -/
theorem callsCursor_remove_behind (h : s.Represents (.cursor (x :: passed) ahead))
    (hpassed : passed.any f = false) : CallsCursor s (.cursor (x :: passed) ahead) (.remove f) := by
  obtain ⟨cs, ds, h, hln, hcs, rfl⟩ := h
  rw [callsCursor_remove_iff, elements_cursor hcs]
  obtain ⟨init, p, rfl, hinit⟩ := exists_concat hcs
  have hbefore : ∀ b ∈ init, f b.2 = false := by
    intro b hb
    have hmem : b.2 ∈ init.map Prod.snd := List.mem_map_of_mem hb
    rw [hinit, List.mem_reverse] at hmem
    exact Bool.eq_false_iff.mpr (List.any_eq_false.mp hpassed _ hmem)
  by_cases hx : f x = true
  · -- it is the current one
    rw [← List.append_cons] at h ⊢
    obtain ⟨s', hok, h', -⟩ := linkedlistCall_remove_some h hbefore hx
    rw [CursorList.remove_current hpassed hx]
    exact ⟨s', hok, init ++ ds, h', by rw [List.map_append, hinit]⟩
  · have hx := Bool.eq_false_iff.mpr hx
    have hbefore : ∀ b ∈ init ++ [(p, x)], f b.2 = false := by
      intro b hb
      rcases List.mem_append.mp hb with hb | hb
      · exact hbefore b hb
      · rw [List.mem_singleton.mp hb, hx]
    obtain ⟨s', ds', hok, h', hds', hlli⟩ := linkedlistCall_remove_behind h hbefore
    rw [CursorList.remove_ahead hpassed hx]
    exact ⟨s', hok, init ++ [(p, x)], ds', h', by rw [hlli, hln], hcs, hds'⟩

theorem callsCursor_remove (h : s.Represents list) (f : α → Bool) :
    CallsCursor s list (.remove f) := by
  cases list with
  | dangling elements =>
    obtain ⟨cs, h, rfl⟩ := h
    have h : s.ll.Represents s.heap ([] ++ cs) := h
    obtain ⟨s', cs', hok, h', hcs', -⟩ :=
      linkedlistCall_remove_behind h fun b hb => absurd hb List.not_mem_nil
    exact ⟨s', hok, cs', h', hcs'⟩
  | cursor passed ahead =>
    cases passed with
    | nil =>
      obtain ⟨cs, ds, h, hln, hcs, rfl⟩ := h
      obtain rfl := List.map_eq_nil_iff.mp hcs
      obtain ⟨s', cs', hok, h', hcs', hlli⟩ :=
        linkedlistCall_remove_behind h fun b hb => absurd hb List.not_mem_nil
      exact ⟨s', hok, [], cs', h', by rw [hlli, hln], rfl, hcs'⟩
    | cons x passed =>
      by_cases hpassed : passed.any f = true
      · exact callsCursor_remove_passed h hpassed
      · exact callsCursor_remove_behind h (Bool.eq_false_iff.mpr hpassed)

/-- Every call that may be made and that stays in the list. -/
theorem callsCursor_of_staysInList (h : s.Represents list) (hmay : MayCall list call)
    (hstay : StaysInList list call) : CallsCursor s list call := by
  cases call with
  | append hint x => exact callsCursor_append h hint x
  | remove f => exact callsCursor_remove h f
  | get f => exact callsCursor_get h f
  | removeAll => exact callsCursor_removeAll h
  | reset => exact callsCursor_reset h
  | next =>
    cases list with
    | cursor passed ahead => exact callsCursor_next h
    | dangling elements => cases hmay
  | previous =>
    cases list with
    | cursor passed ahead => exact callsCursor_previous h hstay
    | dangling elements => cases hmay
  | insertBefore hint y =>
    cases list with
    | cursor passed ahead => exact callsCursor_insertBefore h hint y
    | dangling elements => cases hmay
  | insertAfter hint y =>
    cases list with
    | cursor passed ahead => exact callsCursor_insertAfter h hint y
    | dangling elements => cases hmay
  | iteratorRemove =>
    cases list with
    | cursor passed ahead => exact callsCursor_iteratorRemove h
    | dangling elements => cases hmay

theorem callsCursor_iff (h : s.Represents list) (hmay : MayCall list call) :
    CallsCursor s list call ↔ StaysInList list call := by
  refine ⟨fun hcall => ?_, callsCursor_of_staysInList h hmay⟩
  cases call with
  | previous =>
    intro hnil
    cases list with
    | dangling elements => cases hmay
    | cursor passed ahead =>
      obtain ⟨hpassed, rfl⟩ := List.append_eq_nil_iff.mp hnil
      obtain rfl := List.reverse_eq_nil_iff.mp hpassed
      exact not_callsCursor_previous h hcall
  | _ => trivial

/-! ## Passing through a list -/

/-- `linkedlistiterator_next` once for each of the choices, and `linkedlistiterator_remove` where the
choice is to remove. -/
def forwardPass : IteratedList α → List Bool → Except Abort (List (LinkedListAnswer α) × IteratedList α)
  | s, [] => .ok ([], s)
  | s, removes :: choices => do
    let (answer, s) ← linkedlistCall s .next
    let (_, s) ← if removes then linkedlistCall s .iteratorRemove else pure (.nothing, s)
    let (answers, s) ← forwardPass s choices
    return (answer :: answers, s)

/-- What the choices leave. -/
def kept : List Bool → List α → List α
  | removes :: choices, x :: ahead => if removes then kept choices ahead else x :: kept choices ahead
  | _, _ => []

/-- A pass sees every element ahead once, in order, whatever it removes. -/
theorem forwardPass_eq {choices : List Bool} (h : s.Represents (.cursor passed ahead))
    (hlength : choices.length = ahead.length) :
    ∃ s', forwardPass s choices = .ok (ahead.map fun x => .element (some x), s') ∧
      s'.Represents (.cursor ((kept choices ahead).reverse ++ passed) []) := by
  induction choices generalizing s passed ahead with
  | nil =>
    obtain rfl := List.length_eq_zero_iff.mp hlength.symm
    exact ⟨s, rfl, h⟩
  | cons removes choices ih =>
    obtain ⟨x, ahead, rfl⟩ := List.exists_cons_of_length_eq_add_one hlength.symm
    rw [List.length_cons, List.length_cons, Nat.add_right_cancel_iff] at hlength
    obtain ⟨s1, hnext, h1⟩ := callsCursor_next h
    cases removes with
    | true =>
      obtain ⟨s2, hremove, h2⟩ := callsCursor_iteratorRemove h1
      obtain ⟨s', hpass, h'⟩ := ih h2 hlength
      exact ⟨s', bind_eq_ok.mpr ⟨_, hnext, bind_eq_ok.mpr ⟨_, hremove,
        bind_eq_ok.mpr ⟨_, hpass, rfl⟩⟩⟩, h'⟩
    | false =>
      obtain ⟨s', hpass, h'⟩ := ih h1 hlength
      refine ⟨s', bind_eq_ok.mpr ⟨_, hnext, bind_eq_ok.mpr ⟨_, rfl,
        bind_eq_ok.mpr ⟨_, hpass, rfl⟩⟩⟩, ?_⟩
      show s'.Represents (.cursor ((x :: kept choices ahead).reverse ++ passed) [])
      rwa [List.reverse_cons, List.append_assoc]

end Calls

/-! ## Runs -/

/-- A list in use, with the list with a cursor that it stands for. -/
structure LinkedListRun (α : Type) where
  memory : IteratedList α
  list : CursorList α

namespace LinkedListRun

/-- After `linkedlist_new` and `linkedlistiterator_new`. -/
def initial (heap : NodeHeap α) (tail : Pointer) : LinkedListRun α where
  memory := ⟨heap, linkedlistNew tail, LinkedListIterator.linkedlistiteratorNew⟩
  list := .cursor [] []

def step (s : LinkedListRun α) (call : LinkedListCall α) : Except Abort (LinkedListRun α) := do
  let (_, memory) ← linkedlistCall s.memory call
  return ⟨memory, (cursorCall s.list call).2⟩

def Allows (s : LinkedListRun α) (call : LinkedListCall α) : Prop :=
  MayCall s.list call ∧ StaysInList s.list call

variable {s t : LinkedListRun α} {call : LinkedListCall α}

theorem represents_initial (heap : NodeHeap α) (tail : Pointer) :
    (initial heap tail).memory.Represents (initial heap tail).list :=
  ⟨[], [], represents_linkedlistNew heap tail, rfl, rfl, rfl⟩

theorem represents_step (h : s.memory.Represents s.list) (hcall : s.Allows call)
    (hstep : s.step call = .ok t) : t.memory.Represents t.list := by
  obtain ⟨memory, hok, h'⟩ := callsCursor_of_staysInList h hcall.1 hcall.2
  obtain ⟨r, hr, ht⟩ := bind_eq_ok.mp hstep
  obtain rfl := Except.ok.inj (hok.symm.trans hr)
  cases ht
  exact h'

end LinkedListRun

open LinkedListRun

/-- **Lists with an iterator.** In every state that is reached without `linkedlistiterator_previous` on an
empty list, the memory holds the list with its cursor, a call is right exactly if it is not that one, and
a forward pass that removes elements sees each of those ahead once. -/
theorem linkedlist_refines_cursor (heap : NodeHeap α) (tail : Pointer) (calls : List (LinkedListCall α))
    (s : LinkedListRun α) (h : Run step Allows (initial heap tail) calls s) :
    s.memory.Represents s.list ∧
    (∀ call, MayCall s.list call → (CallsCursor s.memory s.list call ↔ StaysInList s.list call)) ∧
    ∀ passed ahead, s.list = .cursor passed ahead → ∀ choices : List Bool,
      choices.length = ahead.length → ∃ memory,
        forwardPass s.memory choices = .ok (ahead.map fun x => .element (some x), memory) ∧
        memory.Represents (.cursor ((kept choices ahead).reverse ++ passed) []) := by
  have hs : s.memory.Represents s.list := h.invariant (I := fun s => s.memory.Represents s.list)
    (fun _ _ _ hs hcall hstep => represents_step hs hcall hstep) (represents_initial heap tail)
  refine ⟨hs, fun call hmay => callsCursor_iff hs hmay, fun passed ahead hlist choices hlength => ?_⟩
  rw [hlist] at hs
  exact forwardPass_eq hs hlength

/-! ## Examples -/

namespace LinkedListExample

/-- Three elements; the first is removed through the iterator, and one is put behind the second. -/
def calls : List (LinkedListCall ℕ) :=
  [.append 0 1, .append 0 2, .append 0 3, .next, .iteratorRemove, .next, .insertAfter 0 7, .remove (· = 3)]

/-- An element in use to which the garbage in `tail` points. -/
def heap : NodeHeap ℕ := Memory.Heap.empty.put 5 ⟨none, none, 9⟩

def cursorTest (s : LinkedListRun ℕ) (call : LinkedListCall ℕ) : Bool :=
  match s.list, call with
  | .cursor passed ahead, .previous => !passed.isEmpty || !ahead.isEmpty
  | .cursor _ _, _ => true
  | .dangling _, _ => false

theorem allows_of_cursorTest (s : LinkedListRun ℕ) (call : LinkedListCall ℕ)
    (h : cursorTest s call = true) : s.Allows call := by
  unfold cursorTest at h
  unfold Allows
  cases hlist : s.list with
  | dangling elements => rw [hlist] at h; cases h
  | cursor passed ahead =>
    rw [hlist] at h
    cases call with
    | previous =>
      refine ⟨trivial, fun hnil => ?_⟩
      obtain ⟨hpassed, rfl⟩ := List.append_eq_nil_iff.mp hnil
      rw [List.reverse_eq_nil_iff.mp hpassed] at h
      cases h
    | _ => exact ⟨trivial, trivial⟩

end LinkedListExample

open LinkedListExample in
theorem linkedlist_refines_cursor_garbage : ∃ s : LinkedListRun ℕ,
    Run step Allows (initial heap (some 5)) calls s ∧ s.list.elements = [2, 7] ∧
    s.memory.Represents s.list ∧
    (∀ call, MayCall s.list call → (CallsCursor s.memory s.list call ↔ StaysInList s.list call)) ∧
    ∀ passed ahead, s.list = .cursor passed ahead → ∀ choices : List Bool,
      choices.length = ahead.length → ∃ memory,
        forwardPass s.memory choices = .ok (ahead.map fun x => .element (some x), memory) ∧
        memory.Represents (.cursor ((kept choices ahead).reverse ++ passed) []) := by
  have hrun : (runIf step cursorTest (initial heap (some 5)) calls).any
      (fun s => decide (s.list.elements = [2, 7])) = true := by decide +kernel
  obtain ⟨s, hs, hend⟩ := (Option.any_eq_true _ _).mp hrun
  have hs := run_of_runIf allows_of_cursorTest hs
  exact ⟨s, hs, of_decide_eq_true hend, linkedlist_refines_cursor _ _ _ s hs⟩

/-- `linkedlistiterator_previous` on a new list. -/
theorem not_callsCursor_new : ∃ s : LinkedListRun ℕ,
    Run step (fun s call => MayCall s.list call) (initial Memory.Heap.empty none) [] s ∧
    MayCall s.list .previous ∧ ¬ CallsCursor s.memory s.list .previous :=
  ⟨_, .nil _, trivial, not_callsCursor_previous (represents_initial Memory.Heap.empty none)⟩

end DartSync
