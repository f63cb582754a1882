import DartSync.Library.Runs
import DartSync.Queue

/-!
# Queues in memory

The functions of `Queue.c` on the block of cells that `malloc` has given them, with the indices that
the source computes and a check at every access. On a queue that stands for a ring (`Represents`) no
access is out of bounds and the result stands for the ring of the corresponding operation, hence for
its list. `queue_refines_list` says so for every sequence of calls from `queue_new` on.
-/

namespace DartSync

open Runs Ring

variable {α β : Type} {x : α} {elements : List α} {memory : ℕ → α} {space n i j : ℕ} {l : List α}
  {sf : α → Bool}

/-! ## Blocks of cells -/

/-- What `malloc` finds in a block, by the number of its cells. -/
abbrev Malloc (α : Type) := ℕ → ℕ → α

def mallocCells (fresh : Malloc α) (n : ℤ) : List α := (List.range n.toNat).map (fresh n.toNat)

/-- The block has `space` cells, with the contents of `memory`. -/
def IsBlock (elements : List α) (memory : ℕ → α) (space : ℕ) : Prop :=
  elements = (List.range space).map memory

theorem isBlock_mallocCells (fresh : Malloc α) (n : ℕ) :
    IsBlock (mallocCells fresh n) (fresh n) n := rfl

theorem IsBlock.length (h : IsBlock elements memory space) : elements.length = space := by
  rw [h, List.length_map, List.length_range]

theorem IsBlock.getElem? (h : IsBlock elements memory space) (hi : i < space) :
    elements[i]? = some (memory i) := by
  rw [h, List.getElem?_map, List.getElem?_range hi]
  rfl

theorem IsBlock.readCell (h : IsBlock elements memory space) (hi : i < space) :
    readCell elements i = .ok (memory i) := readCell_eq (h.getElem? hi)

theorem IsBlock.writeCell (h : IsBlock elements memory space) (hi : i < space) :
    ∃ elements', writeCell elements i x = .ok elements' ∧
      IsBlock elements' (Function.update memory i x) space := by
  have hlen := h.length
  refine ⟨elements.set i x, writeCell_eq (by omega), ?_⟩
  apply List.ext_getElem?
  intro j
  rw [List.getElem?_set, List.getElem?_map]
  by_cases hj : j < space
  · rw [h.getElem? hj, List.getElem?_range hj]
    show _ = some (Function.update memory i x j)
    rw [Function.update_apply]
    by_cases hij : i = j
    · rw [if_pos hij, if_pos hij.symm, if_pos (by omega)]
    · rw [if_neg hij, if_neg (Ne.symm hij)]
  · rw [if_neg (by omega), List.getElem?_eq_none (by omega),
      List.getElem?_eq_none (by rw [List.length_range]; omega)]
    rfl

/-! ## The functions of `Queue.c` -/

/-- `_Queue` in memory. -/
structure QueueMem (α : Type) where
  elements : List α
  length : ℤ
  space : ℤ
  head : ℤ
  tail : ℤ

namespace QueueMem

/-- `queue_new` -/
def queueNew (fresh : Malloc α) : QueueMem α where
  elements := mallocCells fresh initialQueueSpace
  length := 0
  space := initialQueueSpace
  head := 0
  tail := 0

/-- `elements[(index + tail) % space]` -/
def read (q : QueueMem α) (index : ℤ) : Except Abort α :=
  readCell q.elements ((index + q.tail).tmod q.space)

/-- The loop of `queue_shiftleft`, for `n` turns from `i` on. -/
def shiftLeftLoop (tail space : ℤ) : ℕ → ℤ → List α → Except Abort (List α)
  | 0, _, elements => .ok elements
  | n + 1, i, elements => do
    let element ← readCell elements ((i + tail).tmod space)
    let elements ← writeCell elements ((i - 1 + tail + space).tmod space) element
    shiftLeftLoop tail space n (i + 1) elements

/-- `queue_shiftleft` -/
def queueShiftleft (q : QueueMem α) (index : ℤ) : Except Abort (QueueMem α) := do
  let elements ← shiftLeftLoop q.tail q.space (q.length - index).toNat index q.elements
  return { q with elements := elements }

/-- The loop of `queue_shiftright`, for `n` turns from `n - 1` down. -/
def shiftRightLoop (tail space : ℤ) : ℕ → List α → Except Abort (List α)
  | 0, elements => .ok elements
  | n + 1, elements => do
    let element ← readCell elements ((n + tail).tmod space)
    let elements ← writeCell elements ((n + 1 + tail).tmod space) element
    shiftRightLoop tail space n elements

/-- `queue_shiftright` -/
def queueShiftright (q : QueueMem α) (index : ℤ) : Except Abort (QueueMem α) := do
  let elements ← shiftRightLoop q.tail q.space (index + 1).toNat q.elements
  return { q with elements := elements }

/-- The doubling in `queue_push`. -/
def grow (fresh : Malloc α) (q : QueueMem α) : Except Abort (QueueMem α) := do
  let space := q.space * 2
  let elements ← (List.range q.length.toNat).foldlM (fun newElements (i : ℕ) => do
    let element ← readCell q.elements ((i + q.tail).tmod q.length)
    writeCell newElements i element) (mallocCells fresh space)
  return { elements := elements, length := q.length, space := space, head := q.length, tail := 0 }

/-- `queue_push` -/
def queuePush (fresh : Malloc α) (q : QueueMem α) (elementp : α) : Except Abort (QueueMem α) := do
  let q ← if q.length = q.space then q.grow fresh else pure q
  let elements ← writeCell q.elements q.head elementp
  return { q with elements := elements, head := (q.head + 1).tmod q.space, length := q.length + 1 }

/-- `queue_spop` -/
def queueSpop (q : QueueMem α) : Except Abort (Option α × QueueMem α) :=
  if q.length = 0 then .ok (none, q)
  else do
    let head := (q.head - 1 + q.space).tmod q.space
    let element ← readCell q.elements head
    return (some element, { q with length := q.length - 1, head := head })

/-- `queue_pop` -/
def queuePop (q : QueueMem α) : Except Abort (Option α × QueueMem α) :=
  if q.length = 0 then .ok (none, q)
  else do
    let element ← readCell q.elements q.tail
    return (some element, { q with tail := (q.tail + 1).tmod q.space, length := q.length - 1 })

/-- `queue_get` -/
def queueGet (q : QueueMem α) (index : ℤ) : Except Abort α := q.read index

/-- `queue_set` -/
def queueSet (q : QueueMem α) (element : α) (index : ℤ) : Except Abort (QueueMem α) := do
  let elements ← writeCell q.elements ((index + q.tail).tmod q.space) element
  return { q with elements := elements }

/-- `queue_swap` -/
def queueSwap (q : QueueMem α) (i j : ℤ) : Except Abort (QueueMem α) := do
  let tmp ← q.queueGet i
  let element ← q.queueGet j
  let q ← q.queueSet element i
  q.queueSet tmp j

/-- `queue_filter` -/
def queueFilter (fresh : Malloc α) (q : QueueMem α) (filter : α → Bool) :
    Except Abort (QueueMem α) :=
  (List.range q.length.toNat).foldlM (fun filtered (i : ℕ) => do
    let element ← q.read i
    if filter element then filtered.queuePush fresh element else pure filtered) (queueNew fresh)

/-- `queue_map` -/
def queueMap (fresh : Malloc β) (q : QueueMem α) (map : α → β) : Except Abort (QueueMem β) :=
  (List.range q.length.toNat).foldlM (fun mapped (i : ℕ) => do
    let element ← q.read i
    mapped.queuePush fresh (map element)) (queueNew fresh)

/-- The loop of `qsearchi`, for `n` turns from `i` on. -/
def qsearchiFrom (q : QueueMem α) (sf : α → Bool) : ℕ → ℤ → Except Abort ℤ
  | 0, _ => .ok (-1)
  | n + 1, i => do
    let element ← q.read i
    if sf element then return i else q.qsearchiFrom sf n (i + 1)

/-- `qsearchi` -/
def qsearchi (q : QueueMem α) (sf : α → Bool) : Except Abort ℤ :=
  q.qsearchiFrom sf q.length.toNat 0

/-- `queue_search` -/
def queueSearch (q : QueueMem α) (sf : α → Bool) : Except Abort (Option α) := do
  let index ← q.qsearchi sf
  if index = -1 then return none
  let element ← q.queueGet index
  return some element

/-- `queue_remove`; `sf` is the search function at its key, `default_search_function` for NULL. -/
def queueRemove (q : QueueMem α) (sf : α → Bool) : Except Abort (Option α × QueueMem α) := do
  let index ← q.qsearchi sf
  if index = -1 then return (none, q)
  let element ← q.queueGet index
  if q.length.tdiv 2 < index then
    let q ← q.queueShiftleft (index + 1)
    return (some element,
      { q with head := (q.head - 1 + q.space).tmod q.space, length := q.length - 1 })
  else
    let q ← q.queueShiftright (index - 1)
    return (some element, { q with tail := (q.tail + 1).tmod q.space, length := q.length - 1 })

/-! ## Rings -/

/-- The queue in memory is the ring `r`. -/
structure Represents (q : QueueMem α) (r : Queue α) : Prop where
  block : IsBlock q.elements r.elements r.space
  length_eq : q.length = r.length
  space_eq : q.space = r.space
  head_eq : q.head = r.head
  tail_eq : q.tail = r.tail

variable {q : QueueMem α} {r : Queue α}

theorem head_lt (r : Queue α) : r.head < r.space := by
  rw [r.head_eq]
  exact Nat.mod_lt _ (Nat.zero_lt_of_lt r.tail_lt)

theorem represents_queueNew (fresh : Malloc α) :
    (queueNew fresh).Represents (.queueNew (fresh initialQueueSpace)) where
  block := isBlock_mallocCells fresh initialQueueSpace
  length_eq := rfl
  space_eq := rfl
  head_eq := rfl
  tail_eq := rfl

theorem Represents.read (h : q.Represents r) (i : ℕ) : q.read i = .ok (r.queueGet i) := by
  have hpos : 0 < r.space := Nat.zero_lt_of_lt r.tail_lt
  unfold QueueMem.read
  rw [h.tail_eq, h.space_eq]
  exact h.block.readCell (Nat.mod_lt _ hpos)

theorem Represents.queueSet (h : q.Represents r) (i : ℕ) :
    ∃ q', q.queueSet x i = .ok q' ∧ q'.Represents (r.queueSet x i) := by
  have hpos : 0 < r.space := Nat.zero_lt_of_lt r.tail_lt
  obtain ⟨elements', hwrite, hblock⟩ := h.block.writeCell (x := x)
    (Nat.mod_lt (i + r.tail) hpos)
  refine ⟨{ q with elements := elements' }, ?_, hblock, h.length_eq, h.space_eq, h.head_eq,
    h.tail_eq⟩
  unfold QueueMem.queueSet
  rw [h.tail_eq, h.space_eq]
  exact bind_eq_ok.mpr ⟨elements', hwrite, rfl⟩

/-! ## Pushing and popping -/

theorem Represents.pushCell (h : q.Represents r) (hfree : r.length < r.space) :
    ∃ elements', writeCell q.elements q.head x = .ok elements' ∧
      Represents { q with
        elements := elements', head := (q.head + 1).tmod q.space, length := q.length + 1 }
        (r.pushCell x hfree) := by
  obtain ⟨elements', hwrite, hblock⟩ := h.block.writeCell (x := x) (head_lt r)
  refine ⟨elements', by rw [h.head_eq]; exact hwrite, hblock, ?_, h.space_eq, ?_, h.tail_eq⟩
  · show q.length + 1 = ((r.length + 1 : ℕ) : ℤ)
    rw [h.length_eq]
    rfl
  · show (q.head + 1).tmod q.space = ((r.head + 1) % r.space : ℕ)
    rw [h.head_eq, h.space_eq]
    rfl

/-- The copying loop of `queue_push`, after `n` turns. -/
theorem Represents.growLoop (h : q.Represents r) (fresh : Malloc α) (hfull : r.length = r.space)
    (hn : n ≤ r.length) :
    ∃ elements', (List.range n).foldlM (fun newElements (i : ℕ) => do
        let element ← readCell q.elements ((i + q.tail).tmod q.length)
        writeCell newElements i element) (mallocCells fresh (r.space * 2 : ℕ)) = .ok elements' ∧
      IsBlock elements' (fun i => if i < n then r.elements ((i + r.tail) % r.length)
        else fresh (r.space * 2) i) (r.space * 2) := by
  induction n with
  | zero => exact ⟨_, rfl, isBlock_mallocCells fresh _⟩
  | succ n ih =>
    obtain ⟨elements1, hloop, hblock⟩ := ih (by omega)
    have hread : readCell q.elements ((n + q.tail).tmod q.length) =
        .ok (r.elements ((n + r.tail) % r.length)) := by
      rw [h.tail_eq, h.length_eq]
      exact h.block.readCell (by rw [hfull]; exact Nat.mod_lt _ (by omega))
    obtain ⟨elements', hwrite, hblock'⟩ := hblock.writeCell (i := n)
      (x := r.elements ((n + r.tail) % r.length)) (by omega)
    refine ⟨elements', ?_, ?_⟩
    · rw [List.range_succ, List.foldlM_append, hloop]
      show (readCell _ _ >>= _) >>= _ = _
      rw [hread]
      exact bind_eq_ok.mpr ⟨elements', hwrite, rfl⟩
    · rw [hblock']
      refine List.map_congr_left fun i _ => ?_
      rw [Function.update_apply]
      by_cases hi : i = n
      · rw [if_pos hi, if_pos (by omega), hi]
      · rw [if_neg hi]
        exact if_congr (by omega) rfl rfl

theorem Represents.grow (h : q.Represents r) (fresh : Malloc α) (hfull : r.length = r.space) :
    ∃ q', q.grow fresh = .ok q' ∧ q'.Represents (r.grow (fresh (r.space * 2)) hfull) := by
  obtain ⟨elements', hloop, hblock⟩ := h.growLoop fresh hfull le_rfl
  have hspace : q.space * 2 = ((r.space * 2 : ℕ) : ℤ) := by
    rw [h.space_eq]
    rfl
  refine ⟨⟨elements', q.length, (r.space * 2 : ℕ), q.length, 0⟩, ?_, hblock, h.length_eq, rfl,
    h.length_eq, rfl⟩
  unfold QueueMem.grow
  rw [hspace]
  refine bind_eq_ok.mpr ⟨elements', ?_, rfl⟩
  have hlen : q.length.toNat = r.length := by rw [h.length_eq, Int.toNat_natCast]
  rw [hlen]
  exact hloop

/-- `queue_push` -/
theorem Represents.queuePush (h : q.Represents r) (fresh : Malloc α) (x : α) :
    ∃ q', q.queuePush fresh x = .ok q' ∧
      q'.Represents (r.queuePush x (fresh (r.space * 2))) := by
  have hiff : q.length = q.space ↔ r.length = r.space := by
    rw [h.length_eq, h.space_eq]
    omega
  unfold QueueMem.queuePush Queue.queuePush
  by_cases hfull : r.length = r.space
  · obtain ⟨q1, hgrow, h1⟩ := h.grow fresh hfull
    have hfree : (r.grow (fresh (r.space * 2)) hfull).length <
        (r.grow (fresh (r.space * 2)) hfull).space := by
      show r.length < r.space * 2
      have := r.tail_lt
      omega
    obtain ⟨elements', hwrite, h'⟩ := h1.pushCell (x := x) hfree
    rw [if_pos (hiff.mpr hfull), dif_pos hfull]
    exact ⟨_, bind_eq_ok.mpr ⟨q1, hgrow, bind_eq_ok.mpr ⟨elements', hwrite, rfl⟩⟩, h'⟩
  · obtain ⟨elements', hwrite, h'⟩ := h.pushCell (x := x) (lt_of_le_of_ne r.length_le hfull)
    rw [if_neg (mt hiff.mp hfull), dif_neg hfull]
    exact ⟨_, bind_eq_ok.mpr ⟨q, rfl, bind_eq_ok.mpr ⟨elements', hwrite, rfl⟩⟩, h'⟩

/-- `queue_spop` of a queue that is not empty. -/
theorem Represents.queueSpop (h : q.Represents r) (hpos : 0 < r.length) :
    ∃ q', q.queueSpop = .ok (some (r.elements (r.spopCell hpos).head), q') ∧
      q'.Represents (r.spopCell hpos) := by
  have htail := r.tail_lt
  have hne : q.length ≠ 0 := by rw [h.length_eq]; omega
  have hhead : (q.head - 1 + q.space).tmod q.space = ((r.spopCell hpos).head : ℤ) := by
    have hcast : (r.head : ℤ) - 1 + r.space = ((r.head + r.space - 1 : ℕ) : ℤ) := by omega
    rw [h.head_eq, h.space_eq, hcast]
    rfl
  have hread : readCell q.elements (r.spopCell hpos).head = .ok (r.elements (r.spopCell hpos).head) :=
    h.block.readCell (head_lt (r.spopCell hpos))
  refine ⟨{ q with length := q.length - 1, head := (r.spopCell hpos).head }, ?_, h.block, ?_,
    h.space_eq, rfl, h.tail_eq⟩
  · unfold QueueMem.queueSpop
    rw [if_neg hne, hhead]
    exact bind_eq_ok.mpr ⟨_, hread, rfl⟩
  · show q.length - 1 = ((r.length - 1 : ℕ) : ℤ)
    rw [h.length_eq]
    omega

/-- `queue_pop` of a queue that is not empty. -/
theorem Represents.queuePop (h : q.Represents r) (hpos : 0 < r.length) :
    ∃ q', q.queuePop = .ok (some (r.elements r.tail), q') ∧ q'.Represents (r.popCell hpos) := by
  have hne : q.length ≠ 0 := by rw [h.length_eq]; omega
  have hread : readCell q.elements q.tail = .ok (r.elements r.tail) := by
    rw [h.tail_eq]
    exact h.block.readCell r.tail_lt
  refine ⟨{ q with tail := (q.tail + 1).tmod q.space, length := q.length - 1 }, ?_, h.block, ?_,
    h.space_eq, h.head_eq, ?_⟩
  · unfold QueueMem.queuePop
    rw [if_neg hne]
    exact bind_eq_ok.mpr ⟨_, hread, rfl⟩
  · show q.length - 1 = ((r.length - 1 : ℕ) : ℤ)
    rw [h.length_eq]
    omega
  · show (q.tail + 1).tmod q.space = (((r.tail + 1) % r.space : ℕ) : ℤ)
    rw [h.tail_eq, h.space_eq]
    rfl

/-! ## Reading and writing -/

theorem Represents.queueGet (h : q.Represents r) (i : ℕ) : q.queueGet i = .ok (r.queueGet i) :=
  h.read i

/-- `queue_swap` -/
theorem Represents.queueSwap (h : q.Represents r) (i j : ℕ) :
    ∃ q', q.queueSwap i j = .ok q' ∧
      q'.Represents ((r.queueSet (r.queueGet j) i).queueSet (r.queueGet i) j) := by
  obtain ⟨q1, hset, h1⟩ := h.queueSet (x := r.queueGet j) i
  obtain ⟨q', hset', h'⟩ := h1.queueSet (x := r.queueGet i) j
  refine ⟨q', ?_, h'⟩
  unfold QueueMem.queueSwap
  exact bind_eq_ok.mpr ⟨_, h.queueGet i, bind_eq_ok.mpr ⟨_, h.queueGet j,
    bind_eq_ok.mpr ⟨q1, hset, hset'⟩⟩⟩

/-- The loop of `queue_filter` and of `queue_map`, after `n` turns: what a turn pushes is pushed in
the order of the elements. -/
theorem Represents.pushLoop (h : q.Represents r) (fresh : Malloc β) (f : α → Option β)
    (push : QueueMem β → α → Except Abort (QueueMem β))
    (hpush : ∀ (q : QueueMem β) (r : Queue β) (x : α), q.Represents r →
      ∃ q' r', push q x = .ok q' ∧ q'.Represents r' ∧ r'.toList = r.toList ++ (f x).toList) (n : ℕ) :
    ∃ q' r', (List.range n).foldlM (fun pushed (i : ℕ) => do
        let element ← q.read i
        push pushed element) (queueNew fresh) = .ok q' ∧
      q'.Represents r' ∧ r'.toList = (cells r.elements r.tail r.space n).filterMap f := by
  induction n with
  | zero => exact ⟨_, _, rfl, represents_queueNew fresh, rfl⟩
  | succ n ih =>
    obtain ⟨q1, r1, hloop, h1, hlist⟩ := ih
    obtain ⟨q', r', hturn, h', hlist'⟩ := hpush q1 r1 (r.queueGet n) h1
    refine ⟨q', r', ?_, h', ?_⟩
    · rw [List.range_succ, List.foldlM_append, hloop]
      show (q.read n >>= _) >>= _ = _
      rw [h.read n]
      exact bind_eq_ok.mpr ⟨q', hturn, rfl⟩
    · rw [hlist', hlist, cells_succ, List.filterMap_append, List.filterMap_cons,
        List.filterMap_nil]
      unfold Queue.queueGet
      cases f (cell r.elements r.tail r.space n) <;> rfl

/-- `queue_filter` -/
theorem Represents.queueFilter (h : q.Represents r) (fresh : Malloc α) (filter : α → Bool) :
    ∃ q' r', q.queueFilter fresh filter = .ok q' ∧ q'.Represents r' ∧
      r'.toList = r.toList.filter filter := by
  obtain ⟨q', r', hloop, h', hlist⟩ := h.pushLoop fresh (fun x => if filter x then some x else none)
    (fun q x => if filter x then q.queuePush fresh x else pure q)
    (fun q r x h => by
      by_cases hx : filter x
      · obtain ⟨q', hpush, h'⟩ := h.queuePush fresh x
        refine ⟨q', _, by rw [if_pos hx, hpush], h', ?_⟩
        rw [Queue.toList_queuePush, if_pos hx]
        rfl
      · refine ⟨q, r, by rw [if_neg hx]; rfl, h, ?_⟩
        rw [if_neg hx, Option.toList_none, List.append_nil]) r.length
  refine ⟨q', r', ?_, h', hlist.trans (by
    rw [← List.filterMap_eq_filter]; rfl)⟩
  unfold QueueMem.queueFilter
  rw [h.length_eq, Int.toNat_natCast, ← hloop]

/-- `queue_map` -/
theorem Represents.queueMap (h : q.Represents r) (fresh : Malloc β) (map : α → β) :
    ∃ q' r', q.queueMap fresh map = .ok q' ∧ q'.Represents r' ∧ r'.toList = r.toList.map map := by
  obtain ⟨q', r', hloop, h', hlist⟩ := h.pushLoop fresh (some ∘ map)
    (fun q x => q.queuePush fresh (map x))
    (fun q r x h => by
      obtain ⟨q', hpush, h'⟩ := h.queuePush fresh (map x)
      exact ⟨q', _, hpush, h', Queue.toList_queuePush⟩) r.length
  refine ⟨q', r', ?_, h', hlist.trans (by rw [List.filterMap_eq_map]; rfl)⟩
  unfold QueueMem.queueMap
  rw [h.length_eq, Int.toNat_natCast, ← hloop]

/-! ## Searching and removing -/

theorem Represents.qsearchiFrom (h : q.Represents r) (n i : ℕ) :
    q.qsearchiFrom sf n i =
      .ok (match (List.range' i n).find? fun k => sf (r.queueGet k) with
        | none => -1
        | some k => k) := by
  induction n generalizing i with
  | zero => rfl
  | succ n ih =>
    rw [List.range'_succ, List.find?_cons]
    unfold QueueMem.qsearchiFrom
    rw [h.read i]
    cases hsf : sf (r.queueGet i) with
    | true => exact if_pos hsf
    | false => exact (if_neg (by rw [hsf]; exact Bool.false_ne_true)).trans (ih (i + 1))

/-- `qsearchi` -/
theorem Represents.qsearchi (h : q.Represents r) (sf : α → Bool) :
    q.qsearchi sf = .ok (match r.qsearchi sf with
      | none => -1
      | some k => k) := by
  unfold QueueMem.qsearchi Queue.qsearchi
  rw [h.length_eq, Int.toNat_natCast, List.range_eq_range']
  exact h.qsearchiFrom r.length 0

/-- `queue_search` -/
theorem Represents.queueSearch (h : q.Represents r) (sf : α → Bool) :
    q.queueSearch sf = .ok (r.queueSearch sf) := by
  unfold QueueMem.queueSearch Queue.queueSearch
  rw [h.qsearchi]
  cases r.qsearchi sf with
  | none => rfl
  | some i =>
    have hne : ¬ (i : ℤ) = -1 := by omega
    refine bind_eq_ok.mpr ⟨(i : ℤ), rfl, ?_⟩
    rw [if_neg hne]
    exact bind_eq_ok.mpr ⟨_, h.queueGet i, rfl⟩

theorem shiftLeftLoop_isBlock (tail : ℕ) (h : IsBlock elements memory space) (hspace : 0 < space)
    (n : ℕ) (hi : 0 < i) :
    ∃ elements', shiftLeftLoop tail space n i elements = .ok elements' ∧
      IsBlock elements' (Queue.shiftLeftFrom tail space n i memory) space := by
  induction n generalizing i elements memory with
  | zero => exact ⟨elements, rfl, h⟩
  | succ n ih =>
    have hread : readCell elements (((i : ℤ) + tail).tmod space) =
        .ok (memory ((i + tail) % space)) := h.readCell (Nat.mod_lt _ hspace)
    obtain ⟨elements1, hwrite, h1⟩ := h.writeCell (x := memory ((i + tail) % space))
      (Nat.mod_lt (i - 1 + tail + space) hspace)
    obtain ⟨elements', hloop, h'⟩ := ih h1 (Nat.succ_pos i)
    have hindex : (i : ℤ) - 1 + tail + space = ((i - 1 + tail + space : ℕ) : ℤ) := by omega
    refine ⟨elements', ?_, h'⟩
    unfold QueueMem.shiftLeftLoop
    exact bind_eq_ok.mpr ⟨_, hread, bind_eq_ok.mpr ⟨elements1, by rw [hindex]; exact hwrite, hloop⟩⟩

theorem shiftRightLoop_isBlock (tail : ℕ) (h : IsBlock elements memory space) (hspace : 0 < space)
    (n : ℕ) :
    ∃ elements', shiftRightLoop tail space n elements = .ok elements' ∧
      IsBlock elements' (Queue.shiftRightFrom tail space n memory) space := by
  induction n generalizing elements memory with
  | zero => exact ⟨elements, rfl, h⟩
  | succ n ih =>
    have hread : readCell elements (((n : ℤ) + tail).tmod space) =
        .ok (memory ((n + tail) % space)) := h.readCell (Nat.mod_lt _ hspace)
    obtain ⟨elements1, hwrite, h1⟩ := h.writeCell (x := memory ((n + tail) % space))
      (Nat.mod_lt (n + 1 + tail) hspace)
    obtain ⟨elements', hloop, h'⟩ := ih h1
    refine ⟨elements', ?_, h'⟩
    unfold QueueMem.shiftRightLoop
    exact bind_eq_ok.mpr ⟨_, hread, bind_eq_ok.mpr ⟨elements1, hwrite, hloop⟩⟩

theorem Represents.queueShiftleft (h : q.Represents r) {index : ℕ} (hindex : 0 < index) :
    ∃ elements', q.queueShiftleft index = .ok { q with elements := elements' } ∧
      IsBlock elements'
        (Queue.shiftLeftFrom r.tail r.space (r.length - index) index r.elements) r.space := by
  obtain ⟨elements', hloop, hblock⟩ := shiftLeftLoop_isBlock r.tail h.block
    (Nat.zero_lt_of_lt r.tail_lt) (r.length - index) hindex
  have hturns : ((r.length : ℤ) - index).toNat = r.length - index := by omega
  refine ⟨elements', ?_, hblock⟩
  unfold QueueMem.queueShiftleft
  rw [h.tail_eq, h.space_eq, h.length_eq, hturns]
  exact bind_eq_ok.mpr ⟨elements', hloop, rfl⟩

theorem Represents.queueShiftright (h : q.Represents r) (index : ℕ) :
    ∃ elements', q.queueShiftright (index - 1) = .ok { q with elements := elements' } ∧
      IsBlock elements' (Queue.shiftRightFrom r.tail r.space index r.elements) r.space := by
  obtain ⟨elements', hloop, hblock⟩ := shiftRightLoop_isBlock r.tail h.block
    (Nat.zero_lt_of_lt r.tail_lt) index
  have hturns : ((index : ℤ) - 1 + 1).toNat = index := by omega
  refine ⟨elements', ?_, hblock⟩
  unfold QueueMem.queueShiftright
  rw [h.tail_eq, h.space_eq, hturns]
  exact bind_eq_ok.mpr ⟨elements', hloop, rfl⟩

/-- `queue_remove` -/
theorem Represents.queueRemove (h : q.Represents r) (sf : α → Bool) :
    ∃ q', q.queueRemove sf = .ok ((r.queueRemove sf).1, q') ∧
      q'.Represents (r.queueRemove sf).2 := by
  unfold QueueMem.queueRemove Queue.queueRemove
  rw [h.qsearchi]
  cases hsearch : r.qsearchi sf with
  | none => exact ⟨q, rfl, h⟩
  | some index =>
    have hlt := Queue.lt_of_qsearchi hsearch
    have htail := r.tail_lt
    have hne : ¬ (index : ℤ) = -1 := by omega
    have hlen : q.length - 1 = ((r.length - 1 : ℕ) : ℤ) := by rw [h.length_eq]; omega
    have hhalf : q.length.tdiv 2 < index ↔ r.length / 2 < index := by
      rw [h.length_eq]
      exact Int.ofNat_lt
    dsimp only
    rw [dif_pos hlt]
    unfold Queue.removeCell
    by_cases hside : r.length / 2 < index
    · obtain ⟨elements', hshift, hblock⟩ := h.queueShiftleft (Nat.succ_pos index)
      have hhead : (q.head - 1 + q.space).tmod q.space =
          (((r.head + r.space - 1) % r.space : ℕ) : ℤ) := by
        have hcast : (r.head : ℤ) - 1 + r.space = ((r.head + r.space - 1 : ℕ) : ℤ) := by omega
        rw [h.head_eq, h.space_eq, hcast]
        rfl
      rw [if_pos hside]
      refine ⟨⟨elements', q.length - 1, q.space, (q.head - 1 + q.space).tmod q.space, q.tail⟩, ?_,
        hblock, hlen, h.space_eq, hhead, h.tail_eq⟩
      refine bind_eq_ok.mpr ⟨(index : ℤ), rfl, ?_⟩
      rw [if_neg hne]
      refine bind_eq_ok.mpr ⟨_, h.queueGet index, ?_⟩
      rw [if_pos (hhalf.mpr hside)]
      exact bind_eq_ok.mpr ⟨_, hshift, rfl⟩
    · obtain ⟨elements', hshift, hblock⟩ := h.queueShiftright index
      have htail' : (q.tail + 1).tmod q.space = (((r.tail + 1) % r.space : ℕ) : ℤ) := by
        rw [h.tail_eq, h.space_eq]
        rfl
      rw [if_neg hside]
      refine ⟨⟨elements', q.length - 1, q.space, q.head, (q.tail + 1).tmod q.space⟩, ?_, hblock,
        hlen, h.space_eq, h.head_eq, htail'⟩
      refine bind_eq_ok.mpr ⟨(index : ℤ), rfl, ?_⟩
      rw [if_neg hne]
      refine bind_eq_ok.mpr ⟨_, h.queueGet index, ?_⟩
      rw [if_neg (mt hhalf.mp hside)]
      exact bind_eq_ok.mpr ⟨_, hshift, rfl⟩

end QueueMem

end DartSync
