import DartSync.Library.Critical
import DartSync.Queue.Calls

/-!
# Queues between threads

`AsyncQueue.c`: a queue with a lock, through which the network thread and the main thread of the
tracker and of a client talk to each other. The functions of `Queue.c` are written here access by
access, as the threads carry them out. Any number of threads call them, and between two accesses of
one thread the others run: the calls still act as the calls on a list (`asyncqueue_linearizable`), so
what is popped is what was pushed, in that order (`asyncqueue_fifo`), and no call is stuck for ever
(`asyncqueue_completes`).
-/

namespace DartSync

open Runs Critical QueueMem

variable {α β τ : Type} {x : α} {l : List α} {q : QueueMem α}

/-! ## The functions of `Queue.c`, access by access -/

/-- Code that works on a queue. -/
abbrev QueueCode (α β : Type) := Code (QueueMem α) Abort β

namespace QueueCode

/-- One of the fields of `_Queue`. -/
def field (f : QueueMem α → β) : QueueCode α β := .read fun q => .ok (f q)

def setLength (length : ℤ) : QueueCode α Unit := .write fun q => .ok { q with length := length }

def setHead (head : ℤ) : QueueCode α Unit := .write fun q => .ok { q with head := head }

def setTail (tail : ℤ) : QueueCode α Unit := .write fun q => .ok { q with tail := tail }

/-- `elements[index]` -/
def cell (index : ℤ) : QueueCode α α := .read fun q => readCell q.elements index

/-- `elements[index] = x` -/
def setCell (index : ℤ) (x : α) : QueueCode α Unit :=
  .write fun q => (writeCell q.elements index x).map fun elements => { q with elements := elements }

/-- `queue_length` -/
def queueLength : QueueCode α ℤ := field fun q => q.length

/-- The loop that doubles the block, for `n` turns from `i` on; the new block is still the thread's
own. -/
def copyLoop : ℕ → ℕ → List α → QueueCode α (List α)
  | 0, _, newElements => pure newElements
  | n + 1, i, newElements => do
    let tail ← field fun q => q.tail
    let length ← field fun q => q.length
    let element ← cell ((i + tail).tmod length)
    let newElements ← .read fun _ => writeCell newElements i element
    copyLoop n (i + 1) newElements

/-- The doubling in `queue_push`. -/
def grow (fresh : Malloc α) : QueueCode α Unit := do
  .write fun q => .ok { q with space := q.space * 2 }
  let space ← field fun q => q.space
  let length ← field fun q => q.length
  let newElements ← copyLoop length.toNat 0 (mallocCells fresh space)
  .write fun q => .ok { q with elements := newElements }
  setTail 0
  let length ← field fun q => q.length
  setHead length

/-- What `queue_push` does when there is room. -/
def pushCell (elementp : α) : QueueCode α Unit := do
  let head ← field fun q => q.head
  setCell head elementp
  let head ← field fun q => q.head
  let space ← field fun q => q.space
  setHead ((head + 1).tmod space)
  let length ← field fun q => q.length
  setLength (length + 1)

/-- `queue_push` -/
def queuePush (fresh : Malloc α) (elementp : α) : QueueCode α Unit := do
  let length ← field fun q => q.length
  let space ← field fun q => q.space
  if length = space then grow fresh
  pushCell elementp

/-- `queue_pop` -/
def queuePop : QueueCode α (Option α) := do
  let length ← field fun q => q.length
  if length = 0 then return none
  let tail ← field fun q => q.tail
  let element ← cell tail
  let tail ← field fun q => q.tail
  let space ← field fun q => q.space
  setTail ((tail + 1).tmod space)
  let length ← field fun q => q.length
  setLength (length - 1)
  return some element

/-- `elements[(index + tail) % space]` -/
def ringCell (index : ℤ) : QueueCode α α := do
  let tail ← field fun q => q.tail
  let space ← field fun q => q.space
  cell ((index + tail).tmod space)

/-- The loop of `queue_apply`, for `n` turns from `i` on, with the elements that `af` is given. -/
def applyLoop : ℕ → ℤ → QueueCode α (List α)
  | 0, _ => pure []
  | n + 1, i => do
    let element ← ringCell i
    let elements ← applyLoop n (i + 1)
    return element :: elements

/-- `queue_apply` -/
def queueApply : QueueCode α (List α) := do
  let length ← field fun q => q.length
  applyLoop length.toNat 0

/-- The loop of `qsearchi`, for `n` turns from `i` on. -/
def qsearchiFrom (sf : α → Bool) : ℕ → ℤ → QueueCode α ℤ
  | 0, _ => pure (-1)
  | n + 1, i => do
    let element ← ringCell i
    if sf element then return i else qsearchiFrom sf n (i + 1)

/-- `qsearchi` -/
def qsearchi (sf : α → Bool) : QueueCode α ℤ := do
  let length ← field fun q => q.length
  qsearchiFrom sf length.toNat 0

/-- `queue_search` -/
def queueSearch (sf : α → Bool) : QueueCode α (Option α) := do
  let index ← qsearchi sf
  if index = -1 then return none
  let element ← ringCell index
  return some element

/-- The loop of `queue_shiftleft`, for `n` turns from `i` on. -/
def shiftLeftLoop : ℕ → ℤ → QueueCode α Unit
  | 0, _ => pure ()
  | n + 1, i => do
    let element ← ringCell i
    let tail ← field fun q => q.tail
    let space ← field fun q => q.space
    setCell ((i - 1 + tail + space).tmod space) element
    shiftLeftLoop n (i + 1)

/-- The loop of `queue_shiftright`, for `n` turns from `n - 1` down. -/
def shiftRightLoop : ℕ → QueueCode α Unit
  | 0 => pure ()
  | n + 1 => do
    let element ← ringCell n
    let tail ← field fun q => q.tail
    let space ← field fun q => q.space
    setCell ((n + 1 + tail).tmod space) element
    shiftRightLoop n

/-- `queue_remove` -/
def queueRemove (sf : α → Bool) : QueueCode α (Option α) := do
  let index ← qsearchi sf
  if index = -1 then return none
  let element ← ringCell index
  let length ← field fun q => q.length
  if length.tdiv 2 < index then
    let length ← field fun q => q.length
    shiftLeftLoop (length - (index + 1)).toNat (index + 1)
    let head ← field fun q => q.head
    let space ← field fun q => q.space
    setHead ((head - 1 + space).tmod space)
  else
    shiftRightLoop (index - 1 + 1).toNat
    let tail ← field fun q => q.tail
    let space ← field fun q => q.space
    setTail ((tail + 1).tmod space)
  let length ← field fun q => q.length
  setLength (length - 1)
  return some element

/-! ## What the code does when nothing comes between -/

@[simp] theorem run_field (f : QueueMem α → β) (q : QueueMem α) : (field f).run q = .ok (f q, q) := by
  simp [field]

@[simp] theorem run_setLength (length : ℤ) (q : QueueMem α) :
    (setLength length).run q = .ok ((), { q with length := length }) := by
  simp [setLength]

@[simp] theorem run_setHead (head : ℤ) (q : QueueMem α) :
    (setHead head).run q = .ok ((), { q with head := head }) := by
  simp [setHead]

@[simp] theorem run_setTail (tail : ℤ) (q : QueueMem α) :
    (setTail tail).run q = .ok ((), { q with tail := tail }) := by
  simp [setTail]

@[simp] theorem run_cell (index : ℤ) (q : QueueMem α) :
    (cell index).run q = (readCell q.elements index).map (·, q) := by
  simp [cell]

@[simp] theorem run_setCell (index : ℤ) (x : α) (q : QueueMem α) : (setCell index x).run q =
    (writeCell q.elements index x).map fun elements => ((), { q with elements := elements }) := by
  simp only [setCell, Code.run_write]
  cases writeCell q.elements index x <;> rfl

@[simp] theorem run_ringCell (index : ℤ) (q : QueueMem α) :
    (ringCell index).run q = (q.read index).map (·, q) := by
  simp [ringCell, QueueMem.read]

/-- The loop copies as the one of `grow` does. -/
theorem run_copyLoop (n i : ℕ) (newElements : List α) (q : QueueMem α) :
    (copyLoop n i newElements).run q =
      ((List.range' i n).foldlM (fun newElements (i : ℕ) => do
        let element ← readCell q.elements ((i + q.tail).tmod q.length)
        writeCell newElements i element) newElements).map (·, q) := by
  induction n generalizing i newElements with
  | zero => rfl
  | succ n ih =>
    rw [List.range'_succ, List.foldlM_cons]
    simp only [copyLoop, Code.run_bind, run_field, Code.ok_then, run_cell, Code.run_read]
    cases readCell q.elements ((i + q.tail).tmod q.length) with
    | error e => rfl
    | ok element =>
      show (Except.map (·, q) (writeCell newElements i element) >>= _) =
        Except.map (·, q) (writeCell newElements i element >>= _)
      cases writeCell newElements i element with
      | error e => rfl
      | ok newElements => exact ih (i + 1) newElements

theorem run_grow (fresh : Malloc α) (q : QueueMem α) :
    (grow fresh).run q = (q.grow fresh).map ((), ·) := by
  unfold grow QueueMem.grow
  simp only [Code.run_bind, run_field, Code.ok_then, Code.run_write, Code.ok_map, run_copyLoop,
    List.range_eq_range', run_setTail, run_setHead]
  cases List.foldlM (m := Except Abort) _ _ _ <;> rfl

theorem run_pushCell (x : α) (q : QueueMem α) : (pushCell x).run q =
    (writeCell q.elements q.head x).map fun elements =>
      ((), { q with
        elements := elements, head := (q.head + 1).tmod q.space, length := q.length + 1 }) := by
  simp only [pushCell, Code.run_bind, run_field, Code.ok_then, run_setCell, run_setHead,
    run_setLength]
  cases writeCell q.elements q.head x <;> rfl

theorem run_queuePush (fresh : Malloc α) (x : α) (q : QueueMem α) :
    (queuePush fresh x).run q = (q.queuePush fresh x).map ((), ·) := by
  have hcell (q : QueueMem α) : (pushCell x).run q = Except.map ((), ·) (do
      let elements ← writeCell q.elements q.head x
      return { q with
        elements := elements, head := (q.head + 1).tmod q.space, length := q.length + 1 }) := by
    rw [run_pushCell]
    cases writeCell q.elements q.head x <;> rfl
  unfold queuePush QueueMem.queuePush
  rw [Code.run_bind, run_field, Code.ok_then, Code.run_bind, run_field, Code.ok_then]
  by_cases hfull : q.length = q.space
  · rw [if_pos hfull, if_pos hfull, Code.run_bind, run_grow]
    cases q.grow fresh with
    | error e => rfl
    | ok q => exact hcell q
  · rw [if_neg hfull, if_neg hfull]
    exact hcell q

theorem run_queuePop (q : QueueMem α) : queuePop.run q = q.queuePop := by
  unfold queuePop QueueMem.queuePop
  simp only [Code.run_bind, run_field, Code.ok_then]
  by_cases hempty : q.length = 0
  · rw [if_pos hempty, if_pos hempty]
    rfl
  · rw [if_neg hempty, if_neg hempty]
    simp only [Code.run_bind, run_field, Code.ok_then, run_cell, run_setTail, run_setLength]
    cases readCell q.elements q.tail <;> rfl

theorem run_qsearchiFrom (sf : α → Bool) (n : ℕ) (i : ℤ) (q : QueueMem α) :
    (qsearchiFrom sf n i).run q = (q.qsearchiFrom sf n i).map (·, q) := by
  induction n generalizing i with
  | zero => rfl
  | succ n ih =>
    simp only [qsearchiFrom, QueueMem.qsearchiFrom, Code.run_bind, run_ringCell]
    cases q.read i with
    | error e => rfl
    | ok element =>
      show Code.run (if sf element then _ else _) q = Except.map _ (if sf element then _ else _)
      by_cases hsf : sf element = true
      · rw [if_pos hsf, if_pos hsf]
        rfl
      · rw [if_neg hsf, if_neg hsf]
        exact ih (i + 1)

theorem run_qsearchi (sf : α → Bool) (q : QueueMem α) :
    (qsearchi sf).run q = (q.qsearchi sf).map (·, q) := by
  simp only [qsearchi, QueueMem.qsearchi, Code.run_bind, run_field, Code.ok_then, run_qsearchiFrom]

theorem run_queueSearch (sf : α → Bool) (q : QueueMem α) :
    (queueSearch sf).run q = (q.queueSearch sf).map (·, q) := by
  simp only [queueSearch, QueueMem.queueSearch, Code.run_bind, run_qsearchi]
  cases q.qsearchi sf with
  | error e => rfl
  | ok index =>
    simp only [Code.ok_map, Code.ok_then]
    by_cases hnone : index = -1
    · rw [if_pos hnone, if_pos hnone]
      rfl
    · rw [if_neg hnone, if_neg hnone]
      simp only [Code.run_bind, run_ringCell, QueueMem.queueGet]
      cases q.read index <;> rfl

theorem run_shiftLeftLoop (n : ℕ) (i : ℤ) (q : QueueMem α) : (shiftLeftLoop n i).run q =
    (QueueMem.shiftLeftLoop q.tail q.space n i q.elements).map fun elements =>
      ((), { q with elements := elements }) := by
  induction n generalizing i q with
  | zero => rfl
  | succ n ih =>
    simp only [shiftLeftLoop, QueueMem.shiftLeftLoop, QueueMem.read, Code.run_bind, run_ringCell]
    cases readCell q.elements ((i + q.tail).tmod q.space) with
    | error e => rfl
    | ok element =>
      simp only [Code.ok_map, Code.ok_then, run_field, run_setCell]
      cases writeCell q.elements ((i - 1 + q.tail + q.space).tmod q.space) element with
      | error e => rfl
      | ok elements => exact ih (i + 1) { q with elements := elements }

theorem run_shiftRightLoop (n : ℕ) (q : QueueMem α) : (shiftRightLoop n).run q =
    (QueueMem.shiftRightLoop q.tail q.space n q.elements).map fun elements =>
      ((), { q with elements := elements }) := by
  induction n generalizing q with
  | zero => rfl
  | succ n ih =>
    simp only [shiftRightLoop, QueueMem.shiftRightLoop, QueueMem.read, Code.run_bind, run_ringCell]
    cases readCell q.elements ((n + q.tail).tmod q.space) with
    | error e => rfl
    | ok element =>
      simp only [Code.ok_map, Code.ok_then, run_field, run_setCell]
      cases writeCell q.elements ((n + 1 + q.tail).tmod q.space) element with
      | error e => rfl
      | ok elements => exact ih { q with elements := elements }

theorem run_queueRemove (sf : α → Bool) (q : QueueMem α) :
    (queueRemove sf).run q = q.queueRemove sf := by
  simp only [queueRemove, QueueMem.queueRemove, Code.run_bind, run_qsearchi]
  cases q.qsearchi sf with
  | error e => rfl
  | ok index =>
    simp only [Code.ok_map, Code.ok_then]
    by_cases hnone : index = -1
    · rw [if_pos hnone, if_pos hnone]
      rfl
    rw [if_neg hnone, if_neg hnone]
    simp only [Code.run_bind, run_ringCell, QueueMem.queueGet]
    cases q.read index with
    | error e => rfl
    | ok element =>
      simp only [Code.ok_map, Code.ok_then, run_field]
      by_cases hright : q.length.tdiv 2 < index
      · rw [if_pos hright, if_pos hright]
        simp only [Code.run_bind, run_field, Code.ok_then, run_shiftLeftLoop, QueueMem.queueShiftleft]
        cases QueueMem.shiftLeftLoop q.tail q.space _ _ q.elements <;> rfl
      · rw [if_neg hright, if_neg hright]
        simp only [Code.run_bind, run_shiftRightLoop, QueueMem.queueShiftright]
        cases QueueMem.shiftRightLoop q.tail q.space _ q.elements <;> rfl

end QueueCode

/-! ## What the calls do -/

/-- The loop of `queue_apply`, for `n` turns from `i` on: the elements that `af` is given. -/
def QueueMem.applyFrom (q : QueueMem α) : ℕ → ℤ → Except Abort (List α)
  | 0, _ => .ok []
  | n + 1, i => do
    let element ← q.read i
    let elements ← q.applyFrom n (i + 1)
    return element :: elements

/-- `queue_apply` -/
def QueueMem.queueApply (q : QueueMem α) : Except Abort (List α) := q.applyFrom q.length.toNat 0

theorem QueueCode.run_queueApply (q : QueueMem α) :
    QueueCode.queueApply.run q = q.queueApply.map (·, q) := by
  have hloop (n : ℕ) (i : ℤ) : (applyLoop n i).run q = (q.applyFrom n i).map (·, q) := by
    induction n generalizing i with
    | zero => rfl
    | succ n ih =>
      simp only [applyLoop, QueueMem.applyFrom, Code.run_bind, run_ringCell]
      cases q.read i with
      | error e => rfl
      | ok element =>
        simp only [Code.ok_map, Code.ok_then, ih]
        cases q.applyFrom n (i + 1) <;> rfl
  simp only [queueApply, QueueMem.queueApply, Code.run_bind, run_field, Code.ok_then, hloop]

theorem QueueMem.Represents.queueApply {r : Queue α} (h : q.Represents r) :
    q.queueApply = .ok r.toList := by
  have hloop (n i : ℕ) (hi : i + n = r.length) : q.applyFrom n i = .ok (r.toList.drop i) := by
    induction n generalizing i with
    | zero =>
      rw [List.drop_eq_nil_of_le (by rw [Queue.length_toList]; omega)]
      rfl
    | succ n ih =>
      have hget := Queue.getElem?_toList (q := r) (i := i)
      rw [if_pos (by omega)] at hget
      obtain ⟨hlt, hget⟩ := List.getElem?_eq_some_iff.mp hget
      rw [QueueMem.applyFrom, h.read, Code.ok_then]
      have hrest : q.applyFrom n (i + 1 : ℤ) = _ := ih (i + 1) (by omega)
      rw [hrest, Code.ok_then, List.drop_eq_getElem_cons hlt, hget]
      rfl
  unfold QueueMem.queueApply
  rw [h.length_eq]
  exact hloop r.length 0 (Nat.zero_add _)

/-- The functions of `AsyncQueue.c` on one queue. -/
inductive AsyncCall (α : Type)
  | length
  | push (elementp : α)
  | pop
  | apply
  | search (sf : α → Bool)
  | remove (sf : α → Bool)

/-- What a call returns; of `asyncqueue_apply`, the elements that the function is given. -/
inductive AsyncAnswer (α : Type)
  | void
  | length (length : ℤ)
  | element (element : Option α)
  | elements (elements : List α)

/-- What a call does to the contents of the queue, and what it returns. -/
def asyncListCall (l : List α) : AsyncCall α → AsyncAnswer α × List α
  | .length => (.length l.length, l)
  | .push elementp => (.void, l ++ [elementp])
  | .pop => (.element l.head?, l.tail)
  | .apply => (.elements l, l)
  | .search sf => (.element (l.find? sf), l)
  | .remove sf => (.element (l.find? sf), l.eraseP sf)

/-- What is done under the lock, with what `malloc` finds meanwhile. -/
def asyncBody : AsyncCall α × Malloc α → QueueCode α (AsyncAnswer α)
  | (.length, _) => do return .length (← QueueCode.queueLength)
  | (.push elementp, fresh) => do
    QueueCode.queuePush fresh elementp
    return .void
  | (.pop, _) => do return .element (← QueueCode.queuePop)
  | (.apply, _) => do return .elements (← QueueCode.queueApply)
  | (.search sf, _) => do return .element (← QueueCode.queueSearch sf)
  | (.remove sf, _) => do return .element (← QueueCode.queueRemove sf)

/-- **One call.** On a queue that holds a list, a call that nothing interrupts returns what it returns
on the list, and the queue holds what is left. -/
theorem stores_asyncBody (h : Stores q l) (call : AsyncCall α) (fresh : Malloc α) :
    ∃ q', (asyncBody (call, fresh)).run q = .ok ((asyncListCall l call).1, q') ∧
      Stores q' (asyncListCall l call).2 := by
  have hstores := h
  obtain ⟨r, hr, rfl⟩ := h
  cases call with
  | length =>
    refine ⟨q, ?_, hstores⟩
    simp [asyncBody, QueueCode.queueLength, asyncListCall, hr.length_eq, Queue.length_toList]
  | push elementp =>
    obtain ⟨q', hpush, h'⟩ := stores_queuePush fresh elementp hstores
    refine ⟨q', ?_, h'⟩
    simp [asyncBody, QueueCode.run_queuePush, hpush, asyncListCall]
  | pop =>
    obtain ⟨q', hpop, h'⟩ := stores_queuePop hr
    refine ⟨q', ?_, h'⟩
    simp [asyncBody, QueueCode.run_queuePop, hpop, asyncListCall]
  | apply =>
    refine ⟨q, ?_, hstores⟩
    simp [asyncBody, QueueCode.run_queueApply, hr.queueApply, asyncListCall]
  | search sf =>
    refine ⟨q, ?_, hstores⟩
    simp [asyncBody, QueueCode.run_queueSearch, hr.queueSearch, Queue.queueSearch_eq,
      asyncListCall, DartSync.queueSearch]
  | remove sf =>
    obtain ⟨q', hremove, h'⟩ := hr.queueRemove sf
    obtain ⟨hfound, hrest⟩ := Prod.ext_iff.mp (Queue.queueRemove_eq (q := r) sf)
    have hfound : (r.queueRemove sf).1 = r.toList.find? sf := hfound
    refine ⟨q', ?_, _, h', hrest⟩
    simp [asyncBody, QueueCode.run_queueRemove, hremove, asyncListCall, hfound]

/-! ## Any number of threads -/

/-- A queue and the threads that call the functions of `AsyncQueue.c` on it. -/
abbrev AsyncQueue (τ α : Type) :=
  Monitor τ (AsyncCall α × Malloc α) (AsyncAnswer α) (QueueMem α) Abort

/-- The calls one after another on a list. -/
def asyncListCalls (l : List α) : List (AsyncCall α) → List (AsyncAnswer α) × List α
  | [] => ([], l)
  | call :: calls =>
    let (answer, l) := asyncListCall l call
    let (answers, l) := asyncListCalls l calls
    (answer :: answers, l)

variable [DecidableEq τ]

/-- A run in which any number of threads call the functions. -/
abbrev AsyncRun (fresh : Malloc α) (es : List (Critical.Event τ (AsyncCall α × Malloc α)))
    (m : AsyncQueue τ α) : Prop :=
  Run (Critical.step asyncBody) (fun _ _ => True) (.start (queueNew fresh)) es m

/-- Only the thread that has the lock is between `pthread_mutex_lock` and `pthread_mutex_unlock`,
and no access is out of bounds. The calls that have given back the lock have returned what they
return on a list, one after another, and while the lock is free the queue holds that list. A
thread's calls give back the lock in the order in which it makes them, and return in that order. -/
structure ActsAsList (m : AsyncQueue τ α) : Prop where
  exclusive : ∀ i, (∃ c code, m.threads i = .inside c code) ↔ m.holder = some i
  inBounds : ∀ e a, Critical.step asyncBody m e ≠ .error (.failed a)
  answers : ∃ l, asyncListCalls [] (m.done.map fun x => x.2.1.1) = (m.done.map fun x => x.2.2, l) ∧
    (m.holder = none → Stores m.shared l)
  called_eq : ∀ i, ofThread i m.called = (ofThread i m.done).map Prod.fst ++ (m.threads i).pending
  done_eq : ∀ i, ofThread i m.done = ofThread i m.returned ++ (m.threads i).unreturned

variable {m : AsyncQueue τ α} {fresh : Malloc α}
  {es : List (Critical.Event τ (AsyncCall α × Malloc α))}

omit [DecidableEq τ] in
/-- What a sequence of calls preserves. -/
theorem stores_sequential {log : List (τ × (AsyncCall α × Malloc α) × AsyncAnswer α)} {q' : QueueMem α}
    (h : Stores q l) (hlog : Sequential asyncBody q log q') :
    ∃ l', asyncListCalls l (log.map fun x => x.2.1.1) = (log.map fun x => x.2.2, l') ∧
      Stores q' l' := by
  induction log generalizing q l with
  | nil =>
    cases hlog
    exact ⟨l, rfl, h⟩
  | cons x log ih =>
    obtain ⟨i, ⟨call, fresh⟩, answer⟩ := x
    obtain ⟨q1, hrun, hlog⟩ := hlog
    obtain ⟨q2, hrun2, h2⟩ := stores_asyncBody h call fresh
    rw [hrun] at hrun2
    cases hrun2
    obtain ⟨l', hl', h'⟩ := ih h2 hlog
    refine ⟨l', ?_, h'⟩
    simp only [List.map_cons, asyncListCalls, hl']

theorem stores_queueNew (fresh : Malloc α) : Stores (queueNew fresh) [] :=
  ⟨_, represents_queueNew fresh, rfl⟩

omit [DecidableEq τ] in
theorem asyncBody_neverFails (fresh : Malloc α) :
    NeverFails τ (asyncBody (α := α)) (queueNew fresh) := by
  rintro log q ⟨call, fresh'⟩ hlog
  obtain ⟨l, -, hl⟩ := stores_sequential (stores_queueNew fresh) hlog
  obtain ⟨q', hrun, -⟩ := stores_asyncBody hl call fresh'
  exact ⟨_, hrun⟩

/-- The calls that have got the lock act on a list in the order in which they have got it. -/
theorem list_of_run (h : AsyncRun fresh es m) : ∃ l,
    asyncListCalls [] (m.done.map fun x => x.2.1.1) = (m.done.map fun x => x.2.2, l) ∧
      (m.holder = none → Stores m.shared l) := by
  obtain ⟨q, hq, hshared⟩ := (linearized_of_run h).sequential
  obtain ⟨l, hl, hstores⟩ := stores_sequential (stores_queueNew fresh) hq
  exact ⟨l, hl, fun hfree => hshared hfree ▸ hstores⟩

theorem actsAsList_of_run (h : AsyncRun fresh es m) : ActsAsList m where
  exclusive := (linearized_of_run h).exclusive
  inBounds e a := (inv_of_run h).not_failed (asyncBody_neverFails fresh) e a
  answers := list_of_run h
  called_eq := (linearized_of_run h).called_eq
  done_eq := (linearized_of_run h).done_eq

/-- **Linearizability.** However the accesses of the threads interleave, an asynchronous queue acts as
a list, and the calls that have returned stay before those that are made later. -/
theorem asyncqueue_linearizable (h : AsyncRun fresh es m) :
    ActsAsList m ∧ ∀ es' m', Run (Critical.step asyncBody) (fun _ _ => True) m es' m' →
      ActsAsList m' ∧ m.done <+: m'.done :=
  ⟨actsAsList_of_run h, fun _ _ hrun => ⟨actsAsList_of_run (h.append hrun), done_prefix hrun⟩⟩

namespace AsyncExample

/-- Thread 1 pops while thread 0 pushes. -/
def events : List (Critical.Event ℕ (AsyncCall ℕ × Malloc ℕ)) :=
  [.call 0 (.push 5, fun _ _ => 77), .lock 0, .access 0, .call 1 (.pop, fun _ _ => 77)] ++
    List.replicate 8 (.access 0) ++ [.unlock 0, .lock 1, .ret 0] ++
    List.replicate 8 (.access 1) ++ [.unlock 1, .ret 1]

/-- After the first `n` events. -/
def after (n : ℕ) : Option (AsyncQueue ℕ ℕ) :=
  runIf (Critical.step asyncBody) (fun _ _ => true) (.start (queueNew fun _ _ => 77)) (events.take n)

end AsyncExample

theorem asyncqueue_linearizable_two : ∃ m, AsyncExample.after 30 = some m ∧
    m.returned.map (fun x => x.1) = [0, 1] ∧ ActsAsList m ∧
    ∀ es' m', Run (Critical.step asyncBody) (fun _ _ => True) m es' m' →
      ActsAsList m' ∧ m.done <+: m'.done := by
  refine ⟨(AsyncExample.after 30).get (by decide), (Option.some_get _).symm, by decide, ?_⟩
  exact asyncqueue_linearizable (run_of_runIf (fun _ _ _ => trivial) (Option.some_get _).symm)

/-! ## What is handed over -/

/-- The element that a call pushes. -/
def pushOf : AsyncCall α × Malloc α → Option α
  | (.push elementp, _) => some elementp
  | _ => none

/-- The element that a call has popped. -/
def popOf : (AsyncCall α × Malloc α) × AsyncAnswer α → Option α
  | ((.pop, _), .element element) => element
  | _ => none

/-- Without `remove`, what has been pushed is what has been popped and what the queue still holds. -/
theorem asyncListCalls_fifo {log : List ((AsyncCall α × Malloc α) × AsyncAnswer α)} {l' : List α}
    (hremove : ∀ x ∈ log, ∀ sf, x.1.1 ≠ .remove sf)
    (h : asyncListCalls l (log.map fun x => x.1.1) = (log.map fun x => x.2, l')) :
    l ++ (log.map Prod.fst).filterMap pushOf = log.filterMap popOf ++ l' := by
  induction log generalizing l with
  | nil =>
    cases h
    exact List.append_nil _
  | cons x log ih =>
    obtain ⟨⟨call, fresh⟩, answer⟩ := x
    simp only [List.map_cons, asyncListCalls, Prod.mk.injEq, List.cons.injEq] at h
    obtain ⟨⟨hanswer, hanswers⟩, hl'⟩ := h
    have ih := ih (fun x hx => hremove x (List.mem_cons_of_mem _ hx)) (Prod.ext hanswers hl')
    cases call with
    | length | apply | search sf =>
      rw [← hanswer]
      exact ih
    | push elementp =>
      rw [← hanswer]
      simp only [asyncListCall, List.append_assoc, List.singleton_append] at ih
      exact ih
    | pop =>
      rw [← hanswer]
      cases l with
      | nil => exact ih
      | cons y l =>
        show y :: (l ++ _) = y :: (_ ++ l')
        exact congrArg (y :: ·) ih
    | remove sf => exact absurd rfl (hremove _ List.mem_cons_self sf)

/-- **First in, first out.** One thread pushes and one thread pops, whatever the others ask for: what
the pops have returned is a beginning of what has been pushed, in the same order, and when no call is
on its way the queue holds the rest. -/
theorem asyncqueue_fifo {producer consumer : τ} (h : AsyncRun fresh es m)
    (hpush : ∀ i elementp fresh, (i, .push elementp, fresh) ∈ m.called → i = producer)
    (hpop : ∀ i fresh, (i, .pop, fresh) ∈ m.called → i = consumer)
    (hremove : ∀ i sf fresh, (i, .remove sf, fresh) ∉ m.called) :
    ∃ rest, (ofThread producer m.called).filterMap pushOf =
        (ofThread consumer m.returned).filterMap popOf ++ rest ∧
      ((∀ i, m.threads i = .idle) → Stores m.shared rest) := by
  have hlin := linearized_of_run h
  have hcalled : ∀ i call answer, (i, call, answer) ∈ m.done → (i, call) ∈ m.called := by
    intro i call answer hx
    rw [← mem_ofThread, hlin.called_eq]
    exact List.mem_append_left _ (List.mem_map.mpr ⟨(call, answer), mem_ofThread.mpr hx, rfl⟩)
  obtain ⟨l, hl, hstores⟩ := list_of_run h
  have hnone : ∀ x ∈ m.done.map Prod.snd, ∀ sf, x.1.1 ≠ AsyncCall.remove sf := by
    intro x hx sf hsf
    obtain ⟨⟨i, ⟨call, fresh'⟩, answer⟩, hdone, rfl⟩ := List.mem_map.mp hx
    cases hsf
    exact hremove i sf fresh' (hcalled _ _ _ hdone)
  have hfifo := asyncListCalls_fifo hnone (by rw [List.map_map, List.map_map]; exact hl)
  -- the pushes are all in the producer's part of the log, the pops in the consumer's
  have hpushed : ((ofThread producer m.done).map Prod.fst).filterMap pushOf =
      ((m.done.map Prod.snd).map Prod.fst).filterMap pushOf := by
    rw [List.filterMap_map, List.map_map, List.filterMap_map]
    refine filterMap_ofThread _ fun i x hx hne => ?_
    obtain ⟨⟨call, fresh'⟩, answer⟩ := x
    cases call with
    | push elementp => exact hpush i elementp fresh' (hcalled _ _ _ hx)
    | length | pop | apply | search sf | remove sf => exact absurd rfl hne
  have hpopped : (ofThread consumer m.done).filterMap popOf =
      (m.done.map Prod.snd).filterMap popOf := by
    rw [List.filterMap_map]
    refine filterMap_ofThread _ fun i x hx hne => ?_
    obtain ⟨⟨call, fresh'⟩, answer⟩ := x
    cases call with
    | pop => exact hpop i fresh' (hcalled _ _ _ hx)
    | length | push elementp | apply | search sf | remove sf => exact absurd rfl hne
  refine ⟨(m.threads consumer).unreturned.filterMap popOf ++ l ++
    (m.threads producer).pending.filterMap pushOf, ?_, fun hidle => ?_⟩
  · rw [hlin.called_eq, List.filterMap_append, hpushed, ← List.nil_append (List.filterMap _ _), hfifo,
      ← hpopped, hlin.done_eq, List.filterMap_append]
    simp only [List.append_assoc]
  · have hfree : m.holder = none := by
      rw [Option.eq_none_iff_forall_ne_some]
      intro i hi
      obtain ⟨c, code, hin⟩ := (hlin.exclusive i).mpr hi
      rw [hidle i] at hin
      cases hin
    rw [hidle, hidle]
    simpa [Thread.unreturned, Thread.pending] using hstores hfree

theorem asyncqueue_fifo_two : ∃ m, AsyncExample.after 30 = some m ∧ ∃ rest,
    (ofThread 0 m.called).filterMap pushOf = (ofThread 1 m.returned).filterMap popOf ++ rest ∧
      ((∀ i, m.threads i = .idle) → Stores m.shared rest) := by
  refine ⟨(AsyncExample.after 30).get (by decide), (Option.some_get _).symm, ?_⟩
  have hcalled : ((AsyncExample.after 30).get (by decide)).called =
    [(0, .push 5, fun _ _ => 77), (1, .pop, fun _ _ => 77)] := rfl
  refine asyncqueue_fifo (run_of_runIf (fun _ _ _ => trivial) (Option.some_get _).symm) ?_ ?_ ?_
  all_goals
    rw [hcalled]
    simp +contextual

/-- **No deadlock.** However far the threads are, the calls that they have made can all return, and each
thread's return in the order in which it has made them. -/
theorem asyncqueue_completes (h : AsyncRun fresh es m) :
    ∃ es' m', Run (Critical.step asyncBody) NoCall m es' m' ∧ (∀ i, m'.threads i = .idle) ∧
      ∀ i, (ofThread i m'.returned).map Prod.fst = ofThread i m.called := by
  obtain ⟨es', m', hrun, hidle, hcalled⟩ := completes_of_run (asyncBody_neverFails fresh) h
  have hlin := linearized_of_run (h.append (hrun.mono fun _ _ _ => trivial))
  refine ⟨es', m', hrun, hidle, fun i => ?_⟩
  have hdone := hlin.done_eq i
  have hcall := hlin.called_eq i
  rw [hidle] at hdone hcall
  rw [← hcalled, hcall, hdone]
  simp [Thread.unreturned, Thread.pending]

/-- Thread 0 is in the middle of its push, and thread 1 waits. -/
theorem asyncqueue_completes_waiting : ∃ m, AsyncExample.after 6 = some m ∧ m.holder = some 0 ∧
    ∃ es' m', Run (Critical.step asyncBody) NoCall m es' m' ∧ (∀ i, m'.threads i = .idle) ∧
      ∀ i, (ofThread i m'.returned).map Prod.fst = ofThread i m.called := by
  refine ⟨(AsyncExample.after 6).get (by decide), (Option.some_get _).symm, by decide, ?_⟩
  exact asyncqueue_completes (run_of_runIf (fun _ _ _ => trivial) (Option.some_get _).symm)

end DartSync
