import DartSync.Basic
import DartSync.Library.Ring

/-!
# Queues

`Queue.c`: a queue in a ring of cells that is doubled when it is full. Everywhere else a queue is the
list of its elements; here each operation of the ring is shown to be the operation on that list.
-/

namespace DartSync

open Ring

/-- `INITIAL_QUEUE_SPACE` -/
def initialQueueSpace : ℕ := 10

/-- `_Queue`. `elements` is the memory: a cell never written holds what `malloc` has found there. -/
structure Queue (α : Type*) where
  elements : ℕ → α
  length : ℕ
  space : ℕ
  head : ℕ
  tail : ℕ
  length_le : length ≤ space
  tail_lt : tail < space
  head_eq : head = (length + tail) % space

namespace Queue

variable {α : Type*} {q : Queue α} {x : α} {i index : ℕ} {sf : α → Bool} {fresh : ℕ → α}

/-- `queue_get` -/
def queueGet (q : Queue α) (index : ℕ) : α := cell q.elements q.tail q.space index

/-- The elements in their order. -/
def toList (q : Queue α) : List α := cells q.elements q.tail q.space q.length

/-- `queue_new` -/
def queueNew (fresh : ℕ → α) : Queue α where
  elements := fresh
  length := 0
  space := initialQueueSpace
  head := 0
  tail := 0
  length_le := Nat.zero_le _
  tail_lt := by decide
  head_eq := rfl

/-! ## Pushing and popping -/

/-- The doubling in `queue_push`. -/
def grow (q : Queue α) (fresh : ℕ → α) (hfull : q.length = q.space) : Queue α where
  elements i := if i < q.length then q.elements ((i + q.tail) % q.length) else fresh i
  length := q.length
  space := q.space * 2
  head := q.length
  tail := 0
  length_le := by omega
  tail_lt := by have := q.tail_lt; omega
  head_eq := by
    have := q.tail_lt
    rw [Nat.add_zero, Nat.mod_eq_of_lt (by omega)]

/-- `queue_push` into a queue with a free cell. -/
def pushCell (q : Queue α) (x : α) (hfree : q.length < q.space) : Queue α where
  elements := Function.update q.elements q.head x
  length := q.length + 1
  space := q.space
  head := (q.head + 1) % q.space
  tail := q.tail
  length_le := hfree
  tail_lt := q.tail_lt
  head_eq := by
    rw [q.head_eq, Nat.mod_add_mod]
    congr 1
    omega

/-- `queue_push` -/
def queuePush (q : Queue α) (x : α) (fresh : ℕ → α) : Queue α :=
  if h : q.length = q.space then
    (q.grow fresh h).pushCell x (by
      show q.length < q.space * 2
      have := q.tail_lt
      omega)
  else q.pushCell x (lt_of_le_of_ne q.length_le h)

/-- `queue_pop` of a queue that is not empty: its rest. -/
def popCell (q : Queue α) (h : 0 < q.length) : Queue α where
  elements := q.elements
  length := q.length - 1
  space := q.space
  head := q.head
  tail := (q.tail + 1) % q.space
  length_le := (Nat.sub_le _ _).trans q.length_le
  tail_lt := Nat.mod_lt _ (by have := q.tail_lt; omega)
  head_eq := by
    rw [q.head_eq, Nat.add_mod_mod]
    congr 1
    omega

/-- `queue_pop`; NULL when the queue is empty. -/
def queuePop (q : Queue α) : Option (α × Queue α) :=
  if h : 0 < q.length then some (q.elements q.tail, q.popCell h) else none

theorem toList_grow (hfull : q.length = q.space) : (q.grow fresh hfull).toList = q.toList := by
  refine List.map_congr_left fun i hi => ?_
  have hi : i < q.length := List.mem_range.mp hi
  show (if (i + 0) % (q.space * 2) < q.length then
      q.elements (((i + 0) % (q.space * 2) + q.tail) % q.length) else fresh _) = _
  rw [Nat.add_zero, Nat.mod_eq_of_lt (by omega), if_pos hi, hfull]
  rfl

theorem toList_pushCell (hfree : q.length < q.space) :
    (q.pushCell x hfree).toList = q.toList ++ [x] := by
  show cells (Function.update q.elements q.head x) q.tail q.space (q.length + 1) = _
  have hcell : ∀ j < q.space, cell (Function.update q.elements q.head x) q.tail q.space j =
      if j = q.length then x else cell q.elements q.tail q.space j := fun j hj => by
    rw [q.head_eq, cell_update hfree hj]
  rw [cells_succ, hcell _ hfree, if_pos rfl]
  congr 1
  refine cells_congr fun j hj => ?_
  rw [hcell j (hj.trans hfree), if_neg (Nat.ne_of_lt hj)]

/-- `queue_push` appends. -/
theorem toList_queuePush : (q.queuePush x fresh).toList = q.toList ++ [x] := by
  unfold queuePush
  split_ifs with hfull
  · rw [toList_pushCell, toList_grow]
  · exact toList_pushCell _

/-- `queue_pop` takes the first element. -/
theorem queuePop_eq : q.queuePop.map (fun r => (r.1, r.2.toList)) =
    q.toList.head?.map fun x => (x, q.toList.tail) := by
  unfold queuePop toList
  obtain ⟨elements, length, space, head, tail, hle, hlt, rfl⟩ := q
  cases length with
  | zero => rfl
  | succ n =>
    rw [dif_pos (Nat.succ_pos n)]
    have hhead : cell elements tail space 0 = elements tail := by
      unfold cell
      rw [Nat.zero_add, Nat.mod_eq_of_lt hlt]
    have htail : cells elements ((tail + 1) % space) space n =
        (List.range n).map fun i => cell elements tail space (i + 1) :=
      List.map_congr_left fun i _ => cell_tail_succ
    show some (elements tail, cells elements ((tail + 1) % space) space n) = _
    rw [htail, ← hhead]
    unfold cells
    rw [List.range_succ_eq_map, List.map_cons, List.map_map]
    rfl

/-- `queue_spop` of a queue that is not empty: its rest. -/
def spopCell (q : Queue α) (h : 0 < q.length) : Queue α where
  elements := q.elements
  length := q.length - 1
  space := q.space
  head := (q.head + q.space - 1) % q.space
  tail := q.tail
  length_le := (Nat.sub_le _ _).trans q.length_le
  tail_lt := q.tail_lt
  head_eq := by
    have htail := q.tail_lt
    rw [q.head_eq, Nat.add_sub_assoc (by omega), Nat.mod_add_mod,
      show q.length + q.tail + (q.space - 1) = q.length - 1 + q.tail + q.space by omega,
      Nat.add_mod_right]

/-- `queue_spop` takes the last element. -/
theorem toList_spopCell (h : 0 < q.length) : q.toList =
    (q.spopCell h).toList ++ [q.elements (q.spopCell h).head] := by
  obtain ⟨n, hn⟩ := Nat.exists_eq_add_one_of_ne_zero (Nat.ne_of_gt h)
  have hhead : q.elements (q.spopCell h).head = cell q.elements q.tail q.space n := by
    rw [(q.spopCell h).head_eq]
    show q.elements ((q.length - 1 + q.tail) % q.space) = _
    rw [hn, Nat.add_sub_cancel]
    rfl
  rw [hhead]
  unfold toList
  show cells _ _ _ q.length = cells _ _ _ (q.length - 1) ++ _
  rw [hn, Nat.add_sub_cancel, cells_succ]
  rfl

/-! ## Reading and writing -/

theorem getElem?_toList : q.toList[i]? = if i < q.length then some (q.queueGet i) else none :=
  getElem?_cells

@[simp] theorem length_toList : q.toList.length = q.length := length_cells

/-- `queue_set` -/
def queueSet (q : Queue α) (x : α) (index : ℕ) : Queue α :=
  { q with elements := Function.update q.elements ((index + q.tail) % q.space) x }

theorem toList_queueSet (h : i < q.length) : (q.queueSet x i).toList = q.toList.set i x := by
  apply List.ext_getElem?
  intro j
  rw [List.getElem?_set, getElem?_toList, getElem?_toList, length_toList]
  have hle := q.length_le
  by_cases hj : j < q.length
  · have hcell : (q.queueSet x i).queueGet j = if j = i then x else q.queueGet j :=
      cell_update (h.trans_le hle) (hj.trans_le hle)
    rw [if_pos hj, hcell]
    by_cases hij : i = j
    · subst hij
      rw [if_pos rfl, if_pos rfl, if_pos h]
      exact if_pos h
    · rw [if_neg (Ne.symm hij), if_neg hij]
      exact if_pos hj
  · rw [if_neg hj, if_neg (fun hij : i = j => hj (hij ▸ h))]
    exact if_neg hj

/-! ## Searching -/

/-- `qsearchi`; `none` for -1. -/
def qsearchi (q : Queue α) (sf : α → Bool) : Option ℕ :=
  (List.range q.length).find? fun i => sf (q.queueGet i)

/-- `qsearchi` is a search of the list. -/
theorem qsearchi_eq : q.qsearchi sf = q.toList.findIdx? sf := by
  have hget : ∀ j (h : j < q.toList.length), q.toList[j] = q.queueGet j := fun j h => by
    have hj := getElem?_toList (q := q) (i := j)
    rw [if_pos (by simpa using h), List.getElem?_eq_getElem h] at hj
    exact Option.some.inj hj
  refine Option.ext fun i => ?_
  unfold qsearchi
  rw [List.find?_range_eq_some, List.findIdx?_eq_some_iff_getElem]
  constructor
  · rintro ⟨hsf, hi, hbefore⟩
    have hi : i < q.length := List.mem_range.mp hi
    refine ⟨by simpa using hi, by rwa [hget], fun j hj => ?_⟩
    rw [hget]
    simpa using hbefore j hj
  · rintro ⟨hi, hsf, hbefore⟩
    rw [hget] at hsf
    refine ⟨hsf, List.mem_range.mpr (by simpa using hi), fun j hj => ?_⟩
    have := hbefore j hj
    rw [hget] at this
    simpa using this

theorem lt_of_qsearchi (h : q.qsearchi sf = some i) : i < q.length := by
  rw [qsearchi_eq] at h
  obtain ⟨hlt, -⟩ := List.findIdx?_eq_some_iff_getElem.mp h
  simpa using hlt

/-- `queue_search` -/
def queueSearch (q : Queue α) (sf : α → Bool) : Option α := (q.qsearchi sf).map q.queueGet

theorem queueSearch_eq : q.queueSearch sf = DartSync.queueSearch q.toList sf := by
  unfold queueSearch DartSync.queueSearch
  rw [List.find?_eq_bind_findIdx?_getElem?, ← qsearchi_eq]
  cases hidx : q.qsearchi sf with
  | none => rfl
  | some i =>
    show some (q.queueGet i) = q.toList[i]?
    rw [getElem?_toList, if_pos (lt_of_qsearchi hidx)]

/-! ## Removing -/

/-- The loop of `queue_shiftleft`, from `i` on, for `n` cells. -/
def shiftLeftFrom (tail space : ℕ) : ℕ → ℕ → (ℕ → α) → ℕ → α
  | 0, _, elements => elements
  | n + 1, i, elements => shiftLeftFrom tail space n (i + 1)
      (Function.update elements ((i - 1 + tail + space) % space) (elements ((i + tail) % space)))

/-- The loop of `queue_shiftright`, from `n - 1` down. -/
def shiftRightFrom (tail space : ℕ) : ℕ → (ℕ → α) → ℕ → α
  | 0, elements => elements
  | n + 1, elements => shiftRightFrom tail space n
      (Function.update elements ((n + 1 + tail) % space) (elements ((n + tail) % space)))

theorem cell_shiftLeftFrom {tail space n j : ℕ} (elements : ℕ → α) (hi : 0 < i) (hn : i + n ≤ space)
    (hj : j < space) : cell (shiftLeftFrom tail space n i elements) tail space j =
      if i ≤ j + 1 ∧ j + 1 < i + n then cell elements tail space (j + 1)
      else cell elements tail space j := by
  induction n generalizing i elements with
  | zero =>
    rw [if_neg (by omega)]
    rfl
  | succ n ih =>
    have hindex : (i - 1 + tail + space) % space = (i - 1 + tail) % space := Nat.add_mod_right _ _
    have hcell : ∀ k < space, cell (Function.update elements ((i - 1 + tail + space) % space)
        (elements ((i + tail) % space))) tail space k =
          if k = i - 1 then cell elements tail space i else cell elements tail space k := by
      intro k hk
      rw [hindex, cell_update (by omega) hk]
      rfl
    rw [shiftLeftFrom, ih _ (Nat.succ_pos i) (by omega), hcell j hj]
    by_cases hlt : j + 1 < space
    · rw [hcell _ hlt]
      -- the cell written in this turn is `i - 1`; the others are those of the later turns
      split_ifs <;> first | rfl | omega | (congr 1; omega)
    · split_ifs <;> first | rfl | omega

theorem cell_shiftRightFrom {tail space n j : ℕ} (elements : ℕ → α) (hn : n < space)
    (hj : j < space) : cell (shiftRightFrom tail space n elements) tail space j =
      if 1 ≤ j ∧ j ≤ n then cell elements tail space (j - 1) else cell elements tail space j := by
  induction n generalizing elements with
  | zero =>
    rw [if_neg (by omega)]
    rfl
  | succ n ih =>
    have hcell : ∀ k < space, cell (Function.update elements ((n + 1 + tail) % space)
        (elements ((n + tail) % space))) tail space k =
          if k = n + 1 then cell elements tail space n else cell elements tail space k :=
      fun k hk => cell_update hn hk
    rw [shiftRightFrom, ih _ (by omega), hcell j hj, hcell (j - 1) (by omega)]
    split_ifs <;> first | rfl | omega | (congr 1; omega)

/-- `queue_remove` of the element `index`, from the side that has fewer elements to move. -/
def removeCell (q : Queue α) (index : ℕ) (h : index < q.length) : Queue α :=
  if q.length / 2 < index then { q with
    elements := shiftLeftFrom q.tail q.space (q.length - (index + 1)) (index + 1) q.elements
    length := q.length - 1
    head := (q.head + q.space - 1) % q.space
    length_le := (Nat.sub_le _ _).trans q.length_le
    head_eq := by
      have htail := q.tail_lt
      rw [q.head_eq, Nat.add_sub_assoc (by omega), Nat.mod_add_mod,
        show q.length + q.tail + (q.space - 1) = q.length - 1 + q.tail + q.space by omega,
        Nat.add_mod_right] }
  else {
    elements := shiftRightFrom q.tail q.space index q.elements
    length := q.length - 1
    space := q.space
    head := q.head
    tail := (q.tail + 1) % q.space
    length_le := (Nat.sub_le _ _).trans q.length_le
    tail_lt := Nat.mod_lt _ (by have := q.tail_lt; omega)
    head_eq := by
      rw [q.head_eq, Nat.add_mod_mod]
      congr 1
      omega }

/-- `queue_remove` -/
def queueRemove (q : Queue α) (sf : α → Bool) : Option α × Queue α :=
  match q.qsearchi sf with
  | none => (none, q)
  | some index =>
    (some (q.queueGet index), if h : index < q.length then q.removeCell index h else q)

theorem toList_removeCell (h : index < q.length) :
    (q.removeCell index h).toList = q.toList.eraseIdx index := by
  have hle := q.length_le
  apply List.ext_getElem?
  intro j
  rw [List.getElem?_eraseIdx, getElem?_toList, getElem?_toList, getElem?_toList]
  unfold removeCell
  by_cases hside : q.length / 2 < index
  · rw [if_pos hside]
    show (if j < q.length - 1 then some (cell (shiftLeftFrom _ _ _ _ _) q.tail q.space j) else none) = _
    by_cases hj : j < q.length - 1
    · rw [if_pos hj, cell_shiftLeftFrom _ (Nat.succ_pos index) (by omega) (by omega)]
      unfold queueGet
      split_ifs <;> first | rfl | omega
    · rw [if_neg hj]
      split_ifs <;> first | rfl | omega
  · rw [if_neg hside]
    show (if j < q.length - 1 then some (cell (shiftRightFrom _ _ _ _) _ q.space j) else none) = _
    by_cases hj : j < q.length - 1
    · rw [if_pos hj, cell_tail_succ, cell_shiftRightFrom _ (by omega) (by omega)]
      unfold queueGet
      split_ifs <;> first | rfl | omega
    · rw [if_neg hj]
      split_ifs <;> first | rfl | omega

/-- **Removal.** `queue_remove` takes out the first element that the predicate accepts and keeps the
others in their order. -/
theorem queueRemove_eq (sf : α → Bool) : ((q.queueRemove sf).1, (q.queueRemove sf).2.toList) =
    DartSync.queueRemove q.toList sf := by
  have hsearch : (q.queueRemove sf).1 = q.queueSearch sf := by
    unfold queueRemove queueSearch
    cases q.qsearchi sf <;> rfl
  unfold DartSync.queueRemove
  rw [hsearch, queueSearch_eq, List.eraseP_eq_eraseIdx, ← qsearchi_eq]
  unfold DartSync.queueSearch queueRemove
  cases hidx : q.qsearchi sf with
  | none => rfl
  | some index =>
    have hlt := lt_of_qsearchi hidx
    dsimp only
    rw [dif_pos hlt, toList_removeCell]

end Queue

end DartSync
