import DartSync.Queue.Memory

/-!
# Calls on queues

Any number of queues are made and used by calls of the functions of `Queue.c`. What the calls do to
the contents is said on lists (`listsCall`, which is `none` where an index is not valid), what the
code does on the queues in memory (`queuesCall`). Whatever the sequence of calls, the queues hold the
lists and the calls return the same answers: `queues_refine_lists`.
-/

namespace DartSync

open Ring QueueMem

variable {α : Type} {x : α} {l : List α} {q : QueueMem α} {r : Queue α} {i j : ℕ}

/-! ## What a queue holds -/

/-- The queue is well formed and its cells from `tail` on hold `l`. -/
structure QueueMem.Holds (q : QueueMem α) (l : List α) : Prop where
  length_eq : q.length = l.length
  length_le : q.length ≤ q.space
  head_range : 0 ≤ q.head ∧ q.head < q.space
  tail_range : 0 ≤ q.tail ∧ q.tail < q.space
  head_eq : q.head = (q.tail + q.length) % q.space
  space_eq : q.space = q.elements.length
  contents : ∀ i (h : i < l.length), q.elements[((q.tail + i) % q.space).toNat]? = some l[i]

theorem QueueMem.Represents.holds (h : q.Represents r) : q.Holds r.toList where
  length_eq := by rw [h.length_eq, Queue.length_toList]
  length_le := by
    rw [h.length_eq, h.space_eq]
    exact Int.ofNat_le.mpr r.length_le
  head_range := by
    have := head_lt r
    rw [h.head_eq, h.space_eq]
    omega
  tail_range := by
    have := r.tail_lt
    rw [h.tail_eq, h.space_eq]
    omega
  head_eq := by
    rw [h.head_eq, h.tail_eq, h.length_eq, h.space_eq, r.head_eq, Nat.add_comm]
    rfl
  space_eq := by rw [h.space_eq, h.block.length]
  contents i hi := by
    have hi' : i < r.length := by rwa [Queue.length_toList] at hi
    have hget := Queue.getElem?_toList (q := r) (i := i)
    have hindex : ((q.tail + i) % q.space).toNat = (i + r.tail) % r.space := by
      rw [h.tail_eq, h.space_eq, Nat.add_comm i]
      rfl
    rw [if_pos hi', List.getElem?_eq_getElem hi] at hget
    rw [hget, hindex]
    exact h.block.getElem? (Nat.mod_lt _ (Nat.zero_lt_of_lt r.tail_lt))

/-! ## Calls on one queue -/

/-- The calls that change or read one queue. -/
inductive QueueCall (α : Type)
  | push (elementp : α)
  | pop
  | spop
  | get (index : ℕ)
  | set (element : α) (index : ℕ)
  | swap (i j : ℕ)
  | remove (sf : α → Bool)
  | search (sf : α → Bool)

/-- What a call does to the contents of a queue, and what it returns; `none` where an index is not
valid. -/
def listCall (l : List α) : QueueCall α → Option (Option α × List α)
  | .push elementp => some (none, l ++ [elementp])
  | .pop => some (l.head?, l.tail)
  | .spop => some (l.getLast?, l.dropLast)
  | .get index => if index < l.length then some (l[index]?, l) else none
  | .set element index => if index < l.length then some (none, l.set index element) else none
  | .swap i j => if i < l.length ∧ j < l.length then some (none, queueSwap l i j) else none
  | .remove sf => some (queueRemove l sf)
  | .search sf => some (queueSearch l sf, l)

/-- What the code does. -/
def queueCall (fresh : Malloc α) (q : QueueMem α) :
    QueueCall α → Except Abort (Option α × QueueMem α)
  | .push elementp => (q.queuePush fresh elementp).map (none, ·)
  | .pop => q.queuePop
  | .spop => q.queueSpop
  | .get index => (q.queueGet index).map (some ·, q)
  | .set element index => (q.queueSet element index).map (none, ·)
  | .swap i j => (q.queueSwap i j).map (none, ·)
  | .remove sf => q.queueRemove sf
  | .search sf => (q.queueSearch sf).map (·, q)

/-- The queue in memory is a ring of the elements `l`. -/
def Stores (q : QueueMem α) (l : List α) : Prop := ∃ r, q.Represents r ∧ r.toList = l

theorem Stores.holds (h : Stores q l) : q.Holds l := by
  obtain ⟨r, hr, rfl⟩ := h
  exact hr.holds

/-- A call that returns nothing. -/
theorem stores_map {call : Except Abort (QueueMem α)}
    (h : ∃ q', call = .ok q' ∧ Stores q' l) :
    ∃ q', call.map (none, ·) = .ok ((none : Option α), q') ∧ Stores q' l := by
  obtain ⟨q', rfl, hq'⟩ := h
  exact ⟨q', rfl, hq'⟩

theorem Queue.toList_eq_nil (h : ¬ 0 < r.length) : r.toList = [] :=
  List.length_eq_zero_iff.mp (by rw [Queue.length_toList]; omega)

/-- `queue_push` -/
theorem stores_queuePush (fresh : Malloc α) (x : α) (h : Stores q l) :
    ∃ q', q.queuePush fresh x = .ok q' ∧ Stores q' (l ++ [x]) := by
  obtain ⟨r, hr, rfl⟩ := h
  obtain ⟨q', hpush, hq'⟩ := hr.queuePush fresh x
  exact ⟨q', hpush, _, hq', Queue.toList_queuePush⟩

/-- `queue_pop` -/
theorem stores_queuePop (h : q.Represents r) :
    ∃ q', q.queuePop = .ok (r.toList.head?, q') ∧ Stores q' r.toList.tail := by
  have heq := Queue.queuePop_eq (q := r)
  unfold Queue.queuePop at heq
  by_cases hpos : 0 < r.length
  · obtain ⟨q', hpop, h'⟩ := h.queuePop hpos
    rw [dif_pos hpos] at heq
    cases hlist : r.toList with
    | nil => rw [hlist] at heq; cases heq
    | cons y l =>
      rw [hlist] at heq
      injection heq with heq
      injection heq with hy hl
      have hy : r.elements r.tail = y := hy
      refine ⟨q', by rw [hpop, hy]; rfl, _, h', hl⟩
  · have hzero : q.length = 0 := by rw [h.length_eq]; omega
    refine ⟨q, ?_, r, h, ?_⟩
    · unfold QueueMem.queuePop
      rw [if_pos hzero, Queue.toList_eq_nil hpos]
      rfl
    · rw [Queue.toList_eq_nil hpos]
      rfl

/-- `queue_spop` -/
theorem stores_queueSpop (h : q.Represents r) :
    ∃ q', q.queueSpop = .ok (r.toList.getLast?, q') ∧ Stores q' r.toList.dropLast := by
  by_cases hpos : 0 < r.length
  · obtain ⟨q', hpop, h'⟩ := h.queueSpop hpos
    refine ⟨q', ?_, _, h', ?_⟩
    · rw [hpop, Queue.toList_spopCell hpos, List.getLast?_concat]
    · rw [Queue.toList_spopCell hpos, List.dropLast_concat]
  · have hzero : q.length = 0 := by rw [h.length_eq]; omega
    refine ⟨q, ?_, r, h, ?_⟩
    · unfold QueueMem.queueSpop
      rw [if_pos hzero, Queue.toList_eq_nil hpos]
      rfl
    · rw [Queue.toList_eq_nil hpos]
      rfl

theorem Queue.toList_queueSwap (hi : i < r.length) (hj : j < r.length) :
    ((r.queueSet (r.queueGet j) i).queueSet (r.queueGet i) j).toList =
      DartSync.queueSwap r.toList i j := by
  unfold DartSync.queueSwap
  rw [Queue.getElem?_toList, Queue.getElem?_toList, if_pos hi, if_pos hj,
    Queue.toList_queueSet (q := r.queueSet (r.queueGet j) i) hj, Queue.toList_queueSet hi]

/-- `queue_swap` -/
theorem stores_queueSwap (h : Stores q l) (hi : i < l.length) (hj : j < l.length) :
    ∃ q', q.queueSwap i j = .ok q' ∧ Stores q' (DartSync.queueSwap l i j) := by
  obtain ⟨r, hr, rfl⟩ := h
  rw [Queue.length_toList] at hi hj
  obtain ⟨q', hswap, hq'⟩ := hr.queueSwap i j
  exact ⟨q', hswap, _, hq', Queue.toList_queueSwap hi hj⟩

/-- **One call.** On a queue that holds a list, a call whose indices are valid returns what it
returns on the list, and the queue holds what is left. -/
theorem stores_queueCall {call : QueueCall α} {answer : Option α} {l' : List α}
    (fresh : Malloc α) (h : Stores q l)
    (hcall : listCall l call = some (answer, l')) :
    ∃ q', queueCall fresh q call = .ok (answer, q') ∧ Stores q' l' := by
  have hstores := h
  obtain ⟨r, hr, rfl⟩ := h
  cases call with
  | push elementp =>
    cases hcall
    exact stores_map (stores_queuePush fresh elementp hstores)
  | pop =>
    cases hcall
    exact stores_queuePop hr
  | spop =>
    cases hcall
    exact stores_queueSpop hr
  | get index =>
    rw [listCall] at hcall
    split_ifs at hcall with hlt
    cases hcall
    rw [Queue.length_toList] at hlt
    refine ⟨q, ?_, r, hr, rfl⟩
    rw [Queue.getElem?_toList, if_pos hlt]
    rw [queueCall, hr.queueGet]
    rfl
  | set element index =>
    rw [listCall] at hcall
    split_ifs at hcall with hlt
    cases hcall
    rw [Queue.length_toList] at hlt
    obtain ⟨q', hset, h'⟩ := hr.queueSet (x := element) index
    exact stores_map ⟨q', hset, _, h', Queue.toList_queueSet hlt⟩
  | swap i j =>
    rw [listCall] at hcall
    split_ifs at hcall with hlt
    cases hcall
    exact stores_map (stores_queueSwap hstores hlt.1 hlt.2)
  | remove sf =>
    obtain ⟨q', hremove, h'⟩ := hr.queueRemove sf
    have heq := Queue.queueRemove_eq (q := r) sf
    rw [listCall, ← heq] at hcall
    cases hcall
    exact ⟨q', hremove, _, h', rfl⟩
  | search sf =>
    cases hcall
    refine ⟨q, ?_, r, hr, rfl⟩
    rw [queueCall, hr.queueSearch, Queue.queueSearch_eq]
    rfl

/-! ## Sequences of calls -/

/-- A call, with the queue it is on by its number. -/
inductive QueuesCall (α : Type)
  | new
  | call (queue : ℕ) (call : QueueCall α)
  | filter (queue : ℕ) (filter : α → Bool)
  | map (queue : ℕ) (map : α → α)

/-- What a call does to the contents of the queues, and what it returns. -/
def listsCall (lists : List (List α)) : QueuesCall α → Option (Option α × List (List α))
  | .new => some (none, lists ++ [[]])
  | .call queue call => do
    let l ← lists[queue]?
    let (answer, l) ← listCall l call
    return (answer, lists.set queue l)
  | .filter queue filter => do
    let l ← lists[queue]?
    return (none, lists ++ [l.filter filter])
  | .map queue map => do
    let l ← lists[queue]?
    return (none, lists ++ [l.map map])

def queueAt (queues : List (QueueMem α)) (queue : ℕ) : Except Abort (QueueMem α) :=
  match queues[queue]? with
  | none => .error .nullPointer
  | some q => .ok q

/-- What the code does. -/
def queuesCall (fresh : Malloc α) (queues : List (QueueMem α)) :
    QueuesCall α → Except Abort (Option α × List (QueueMem α))
  | .new => .ok (none, queues ++ [queueNew fresh])
  | .call queue call => do
    let q ← queueAt queues queue
    let (answer, q) ← queueCall fresh q call
    return (answer, queues.set queue q)
  | .filter queue filter => do
    let q ← queueAt queues queue
    let filtered ← q.queueFilter fresh filter
    return (none, queues ++ [filtered])
  | .map queue map => do
    let q ← queueAt queues queue
    let mapped ← q.queueMap fresh map
    return (none, queues ++ [mapped])

/-- The calls one after another, with the answer of each. -/
def listsCalls (lists : List (List α)) :
    List (QueuesCall α) → Option (List (Option α) × List (List α))
  | [] => some ([], lists)
  | call :: calls => do
    let (answer, lists) ← listsCall lists call
    let (answers, lists) ← listsCalls lists calls
    return (answer :: answers, lists)

/-- The calls one after another, each with what `malloc` finds during it. -/
def queuesCalls (queues : List (QueueMem α)) :
    List (QueuesCall α × Malloc α) → Except Abort (List (Option α) × List (QueueMem α))
  | [] => .ok ([], queues)
  | (call, fresh) :: calls => do
    let (answer, queues) ← queuesCall fresh queues call
    let (answers, queues) ← queuesCalls queues calls
    return (answer :: answers, queues)

variable {queues : List (QueueMem α)} {lists lists' : List (List α)} {answer : Option α}

theorem queueAt_ok {queue : ℕ} (h : List.Forall₂ Stores queues lists) (hl : lists[queue]? = some l) :
    ∃ q, queueAt queues queue = .ok q ∧ Stores q l := by
  have hrel := (List.forall₂_iff_get.mp h)
  obtain ⟨hlt, rfl⟩ := List.getElem?_eq_some_iff.mp hl
  have hlt' : queue < queues.length := hrel.1 ▸ hlt
  refine ⟨queues[queue], ?_, hrel.2 queue hlt' hlt⟩
  unfold queueAt
  rw [List.getElem?_eq_getElem hlt']

theorem stores_set (h : List.Forall₂ Stores queues lists) (hq : Stores q l) (queue : ℕ) :
    List.Forall₂ Stores (queues.set queue q) (lists.set queue l) := by
  induction h generalizing queue with
  | nil => exact .nil
  | cons hhead htail ih =>
    cases queue with
    | zero => exact .cons hq htail
    | succ queue => exact .cons hhead (ih queue)

theorem stores_append (h : List.Forall₂ Stores queues lists) (hq : Stores q l) :
    List.Forall₂ Stores (queues ++ [q]) (lists ++ [l]) :=
  List.rel_append h (.cons hq .nil)

/-- What one call preserves. -/
theorem stores_queuesCall {call : QueuesCall α} (fresh : Malloc α) (h : List.Forall₂ Stores queues lists)
    (hcall : listsCall lists call = some (answer, lists')) :
    ∃ queues', queuesCall fresh queues call = .ok (answer, queues') ∧
      List.Forall₂ Stores queues' lists' := by
  cases call with
  | new =>
    cases hcall
    exact ⟨_, rfl, stores_append h ⟨_, represents_queueNew fresh, rfl⟩⟩
  | call queue call =>
    obtain ⟨l, hl, hcall⟩ := Option.bind_eq_some_iff.mp hcall
    obtain ⟨⟨answer', l'⟩, hlist, hret⟩ := Option.bind_eq_some_iff.mp hcall
    cases hret
    obtain ⟨q, hat, hq⟩ := queueAt_ok h hl
    obtain ⟨q', hrun, hq'⟩ := stores_queueCall fresh hq hlist
    exact ⟨_, bind_eq_ok.mpr ⟨q, hat, bind_eq_ok.mpr ⟨_, hrun, rfl⟩⟩, stores_set h hq' queue⟩
  | filter queue filter =>
    obtain ⟨l, hl, hret⟩ := Option.bind_eq_some_iff.mp hcall
    cases hret
    obtain ⟨q, hat, r, hr, rfl⟩ := queueAt_ok h hl
    obtain ⟨q', r', hrun, hr', hlist⟩ := hr.queueFilter fresh filter
    exact ⟨_, bind_eq_ok.mpr ⟨q, hat, bind_eq_ok.mpr ⟨q', hrun, rfl⟩⟩,
      stores_append h ⟨r', hr', hlist⟩⟩
  | map queue map =>
    obtain ⟨l, hl, hret⟩ := Option.bind_eq_some_iff.mp hcall
    cases hret
    obtain ⟨q, hat, r, hr, rfl⟩ := queueAt_ok h hl
    obtain ⟨q', r', hrun, hr', hlist⟩ := hr.queueMap fresh map
    exact ⟨_, bind_eq_ok.mpr ⟨q, hat, bind_eq_ok.mpr ⟨q', hrun, rfl⟩⟩,
      stores_append h ⟨r', hr', hlist⟩⟩

/-- What a sequence of calls preserves. -/
theorem stores_queuesCalls {calls : List (QueuesCall α × Malloc α)} {answers : List (Option α)}
    (h : List.Forall₂ Stores queues lists)
    (hcalls : listsCalls lists (calls.map Prod.fst) = some (answers, lists')) :
    ∃ queues', queuesCalls queues calls = .ok (answers, queues') ∧
      List.Forall₂ Stores queues' lists' := by
  induction calls generalizing queues lists answers with
  | nil =>
    cases hcalls
    exact ⟨queues, rfl, h⟩
  | cons call calls ih =>
    obtain ⟨call, fresh⟩ := call
    obtain ⟨⟨answer, lists1⟩, hcall, hcalls⟩ := Option.bind_eq_some_iff.mp hcalls
    obtain ⟨⟨answers', lists2⟩, hrest, hret⟩ := Option.bind_eq_some_iff.mp hcalls
    cases hret
    obtain ⟨queues1, hrun, h1⟩ := stores_queuesCall fresh h hcall
    obtain ⟨queues', hruns, h'⟩ := ih h1 hrest
    exact ⟨queues', bind_eq_ok.mpr ⟨_, hrun, bind_eq_ok.mpr ⟨_, hruns, rfl⟩⟩, h'⟩

/-- **Queues are lists.** A sequence of calls that is valid on the lists runs on the queues in memory
without an access out of bounds, whatever `malloc` finds; every call returns the same, and every
queue is well formed and holds its list. -/
theorem queues_refine_lists (calls : List (QueuesCall α × Malloc α)) (answers : List (Option α))
    (lists : List (List α))
    (hcalls : listsCalls [] (calls.map Prod.fst) = some (answers, lists)) :
    ∃ queues, queuesCalls [] calls = .ok (answers, queues) ∧
      List.Forall₂ QueueMem.Holds queues lists := by
  obtain ⟨queues, hrun, h⟩ := stores_queuesCalls .nil hcalls
  exact ⟨queues, hrun, h.imp fun _ _ => Stores.holds⟩

namespace QueueExample

/-- A queue that is full when its first element lies in cell 1, and grows. -/
def calls : List (QueuesCall ℕ) :=
  .new :: .call 0 (.push 0) :: .call 0 .pop ::
    (List.range' 1 11).map (fun i => .call 0 (.push i)) ++
    [.call 0 (.remove (· = 9)), .call 0 (.swap 0 9), .filter 0 (· < 3)]

def answers : List (Option ℕ) :=
  none :: none :: some 0 :: List.replicate 11 none ++ [some 9, none, none]

end QueueExample

theorem queues_refine_lists_grown : ∃ queues,
    queuesCalls [] (QueueExample.calls.map (·, fun _ _ => 77)) =
      .ok (QueueExample.answers, queues) ∧
    List.Forall₂ QueueMem.Holds queues [[11, 2, 3, 4, 5, 6, 7, 8, 10, 1], [2, 1]] :=
  queues_refine_lists (QueueExample.calls.map (·, fun _ _ => 77)) QueueExample.answers
    [[11, 2, 3, 4, 5, 6, 7, 8, 10, 1], [2, 1]] (by decide)

end DartSync
