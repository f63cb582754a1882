import DartSync.Queue.Calls

/-!
# Zeros in queues

`queue_concat` and `queue_speek` go by the value that they have popped, where NULL also stands for the
end of the queue: the first moves what is in front of the first zero, the second keeps a zero that it
has taken off (`stores_queueConcat`, `stores_queueSpeek`). `asyncqueue_concat` gives `queue_concat` the
records of the asynchronous queues and not the queues in them. `transparent_iff` says when the three
do what they are for.
-/

namespace DartSync

open QueueMem

variable {α : Type} {q q1 q2 : QueueMem α} {l l' l1 l2 : List α}

theorem Stores.unique (h : Stores q l) (h' : Stores q l') : l = l' := by
  have hl := h.holds
  have hl' := h'.holds
  have hlength : l.length = l'.length := Int.ofNat_inj.mp (hl.length_eq.symm.trans hl'.length_eq)
  refine List.ext_getElem hlength fun i hi hi' => ?_
  exact Option.some_inj.mp ((hl.contents i hi).symm.trans (hl'.contents i hi'))

/-! ## The functions -/

section

variable [Zero α] [DecidableEq α]

/-- The loop of `queue_concat`, with its first `queue_pop`. -/
def concatLoop (fresh : Malloc α) : ℕ → QueueMem α → QueueMem α →
    Except Abort (QueueMem α × QueueMem α)
  | 0, _, _ => .error .diverges
  | n + 1, q1, q2 => do
    let (element, q2) ← q2.queuePop
    match element with
    | none => return (q1, q2)
    | some element =>
      if element = 0 then return (q1, q2)
      let q1 ← q1.queuePush fresh element
      concatLoop fresh n q1 q2

/-- `queue_concat` -/
def queueConcat (fresh : Malloc α) (q1 q2 : QueueMem α) : Except Abort (QueueMem α × QueueMem α) :=
  concatLoop fresh (q2.length.toNat + 1) q1 q2

/-- `queue_speek` -/
def queueSpeek (fresh : Malloc α) (q : QueueMem α) : Except Abort (Option α × QueueMem α) := do
  let (element, q) ← q.queueSpop
  match element with
  | none => return (none, q)
  | some element =>
    if element = 0 then return (some element, q)
    let q ← q.queuePush fresh element
    return (some element, q)

end

/-- `_AsyncQueue`, with the address of its lock. -/
structure AsyncQueueMem (α : Type) where
  q : QueueMem α
  lock : BitVec 64

/-- `length`, where the record is taken for a `_Queue`: the low half of `lock`. -/
def AsyncQueueMem.length (aq : AsyncQueueMem α) : ℤ := (aq.lock.setWidth 32).toInt

/-- `queue_pop`, where the record is taken for a `_Queue`: its `tail` would lie behind `lock`. -/
def AsyncQueueMem.queuePop (aq : AsyncQueueMem α) : Except Abort (Option α × AsyncQueueMem α) :=
  if aq.length = 0 then .ok (none, aq) else .error .outOfBounds

/-- `asyncqueue_concat`: `queue_concat((Queue*)q1, (Queue*)q1)`. No element comes out of the
`queue_pop`, so its loop is not entered. -/
def asyncqueueConcat (q1 q2 : AsyncQueueMem α) :
    Except Abort (AsyncQueueMem α × AsyncQueueMem α) := do
  let (_, q1) ← q1.queuePop
  return (q1, q2)

/-! ## What they do -/

section

variable [Zero α] [DecidableEq α]

/-- What is in front of the first zero is moved, the zero is lost, and the rest stays. -/
theorem stores_concatLoop (fresh : Malloc α) {n : ℕ} (h1 : Stores q1 l1) (h2 : Stores q2 l2)
    (hn : l2.length < n) : ∃ q1' q2', concatLoop fresh n q1 q2 = .ok (q1', q2') ∧
      Stores q1' (l1 ++ l2.takeWhile (· ≠ 0)) ∧ Stores q2' (l2.dropWhile (· ≠ 0)).tail := by
  induction n generalizing q1 q2 l1 l2 with
  | zero => exact absurd hn (Nat.not_lt_zero _)
  | succ n ih =>
    obtain ⟨r2, hr2, rfl⟩ := h2
    obtain ⟨q2', hpop, h2'⟩ := stores_queuePop hr2
    unfold concatLoop
    rw [hpop]
    cases hlist : r2.toList with
    | nil =>
      rw [hlist] at h2'
      exact ⟨q1, q2', rfl, by rwa [List.takeWhile_nil, List.append_nil], h2'⟩
    | cons x l =>
      rw [hlist] at h2' hn
      by_cases hx : x = 0
      · refine ⟨q1, q2', if_pos hx, ?_, ?_⟩
        · rwa [List.takeWhile_cons_of_neg (by simpa using hx), List.append_nil]
        · rwa [List.dropWhile_cons_of_neg (by simpa using hx)]
      · obtain ⟨q1', hpush, h1'⟩ := stores_queuePush fresh x h1
        obtain ⟨q1'', q2'', hloop, h1'', h2''⟩ := ih h1' h2' (by simpa using hn)
        refine ⟨q1'', q2'', ?_, ?_, ?_⟩
        · refine (if_neg hx).trans ?_
          exact bind_eq_ok.mpr ⟨q1', hpush, hloop⟩
        · rw [List.takeWhile_cons_of_pos (by simpa using hx)]
          simpa using h1''
        · rwa [List.dropWhile_cons_of_pos (by simpa using hx)]

/-- `queue_concat` -/
theorem stores_queueConcat (fresh : Malloc α) (h1 : Stores q1 l1) (h2 : Stores q2 l2) :
    ∃ q1' q2', queueConcat fresh q1 q2 = .ok (q1', q2') ∧
      Stores q1' (l1 ++ l2.takeWhile (· ≠ 0)) ∧ Stores q2' (l2.dropWhile (· ≠ 0)).tail := by
  refine stores_concatLoop fresh h1 h2 ?_
  rw [h2.holds.length_eq, Int.toNat_natCast]
  exact Nat.lt_succ_self _

/-- `queue_speek` takes the last element off and pushes it back unless it is zero. -/
theorem stores_queueSpeek (fresh : Malloc α) (h : Stores q l) :
    ∃ q', queueSpeek fresh q = .ok (l.getLast?, q') ∧
      Stores q' (if l.getLast? = some 0 then l.dropLast else l) := by
  obtain ⟨r, hr, rfl⟩ := h
  obtain ⟨q', hpop, h'⟩ := stores_queueSpop hr
  unfold queueSpeek
  rw [hpop]
  cases hlast : r.toList.getLast? with
  | none =>
    rw [List.getLast?_eq_none_iff.mp hlast] at h' ⊢
    exact ⟨q', rfl, h'⟩
  | some x =>
    obtain ⟨init, hinit⟩ := List.getLast?_eq_some_iff.mp hlast
    rw [hinit, List.dropLast_concat] at h' ⊢
    by_cases hx : x = 0
    · refine ⟨q', if_pos hx, ?_⟩
      rwa [if_pos (by rw [hx])]
    · obtain ⟨q'', hpush, h''⟩ := stores_queuePush fresh x h'
      refine ⟨q'', (if_neg hx).trans (bind_eq_ok.mpr ⟨q'', hpush, rfl⟩), ?_⟩
      rwa [if_neg fun h0 => hx (Option.some_inj.mp h0)]

end

/-! ## Transparency -/

section

variable [Zero α] [DecidableEq α]

/-- `queue_concat` moves everything to the end of the first queue. -/
def Concats (fresh : Malloc α) (q1 q2 : QueueMem α) (l1 l2 : List α) : Prop :=
  ∃ q1' q2', queueConcat fresh q1 q2 = .ok (q1', q2') ∧ Stores q1' (l1 ++ l2) ∧ Stores q2' []

/-- `queue_speek` returns the last element and keeps the contents. -/
def Speeks (fresh : Malloc α) (q : QueueMem α) (l : List α) : Prop :=
  ∃ q', queueSpeek fresh q = .ok (l.getLast?, q') ∧ Stores q' l

end

/-- `asyncqueue_concat` does the same to the queues in its arguments. -/
def AsyncConcats (q1 q2 : AsyncQueueMem α) (l1 l2 : List α) : Prop :=
  ∃ q1' q2', asyncqueueConcat q1 q2 = .ok (q1', q2') ∧ Stores q1'.q (l1 ++ l2) ∧ Stores q2'.q []

section

variable [Zero α] [DecidableEq α]

theorem concats_iff (fresh : Malloc α) (h1 : Stores q1 l1) (h2 : Stores q2 l2) :
    Concats fresh q1 q2 l1 l2 ↔ 0 ∉ l2 := by
  obtain ⟨q1', q2', hconcat, h1', h2'⟩ := stores_queueConcat fresh h1 h2
  constructor
  · rintro ⟨q1'', q2'', hconcat', h1'', -⟩ hzero
    rw [hconcat] at hconcat'
    cases hconcat'
    have htake := List.append_cancel_left (h1'.unique h1'')
    rw [← htake] at hzero
    simpa using List.mem_takeWhile_imp hzero
  · intro hzero
    have hall : ∀ x ∈ l2, decide (x ≠ 0) = true := fun x hx =>
      decide_eq_true fun h0 => hzero (h0 ▸ hx)
    rw [List.takeWhile_eq_self_iff.mpr hall] at h1'
    rw [List.dropWhile_eq_nil_iff.mpr hall] at h2'
    exact ⟨q1', q2', hconcat, h1', h2'⟩

theorem speeks_iff (fresh : Malloc α) (h : Stores q l) : Speeks fresh q l ↔ l.getLast? ≠ some 0 := by
  obtain ⟨q', hspeek, h'⟩ := stores_queueSpeek fresh h
  constructor
  · rintro ⟨q'', hspeek', h''⟩ hzero
    rw [hspeek] at hspeek'
    cases hspeek'
    obtain ⟨init, rfl⟩ := List.getLast?_eq_some_iff.mp hzero
    rw [if_pos hzero, List.dropLast_concat] at h'
    simpa using congrArg List.length (h'.unique h'')
  · intro hzero
    rw [if_neg hzero] at h'
    exact ⟨q', hspeek, h'⟩

end

theorem asyncConcats_iff {q1 q2 : AsyncQueueMem α} (h1 : Stores q1.q l1) (h2 : Stores q2.q l2) :
    AsyncConcats q1 q2 l1 l2 ↔ q1.length = 0 ∧ l2 = [] := by
  unfold AsyncConcats asyncqueueConcat AsyncQueueMem.queuePop
  constructor
  · rintro ⟨q1', q2', hconcat, -, h2'⟩
    by_cases hlength : q1.length = 0
    · rw [if_pos hlength] at hconcat
      cases hconcat
      exact ⟨hlength, h2.unique h2'⟩
    · rw [if_neg hlength] at hconcat
      cases hconcat
  · rintro ⟨hlength, rfl⟩
    exact ⟨q1, q2, by rw [if_pos hlength]; rfl, by rwa [List.append_nil], h2⟩

/-- **Transparency.** Whatever the state of the two rings, `queue_concat` concatenates exactly the
queues of which the second holds no zero, `queue_speek` keeps the contents exactly where the last
element is not zero, and `asyncqueue_concat` has the effect of a concatenation exactly where there is
nothing to move and the low half of the first lock's address is zero. -/
theorem transparent_iff [Zero α] [DecidableEq α] (fresh : Malloc α) (q1 q2 : AsyncQueueMem α)
    (l1 l2 : List α) (h1 : Stores q1.q l1) (h2 : Stores q2.q l2) :
    (Concats fresh q1.q q2.q l1 l2 ↔ 0 ∉ l2) ∧
    (Speeks fresh q1.q l1 ↔ l1.getLast? ≠ some 0) ∧
    (AsyncConcats q1 q2 l1 l2 ↔ q1.length = 0 ∧ l2 = []) :=
  ⟨concats_iff fresh h1 h2, speeks_iff fresh h1, asyncConcats_iff h1 h2⟩

namespace ZeroExample

def fresh : Malloc ℕ := fun _ _ => 77

/-- A queue that holds a zero, with the address of a lock. -/
def zero : AsyncQueueMem ℕ where
  q := ⟨[0, 77, 77, 77, 77, 77, 77, 77, 77, 77], 1, 10, 1, 0⟩
  lock := 0x602000000010

/-- Another queue in the same state. -/
def other : AsyncQueueMem ℕ := { zero with lock := 0x602000000020 }

theorem stores_zero : Stores zero.q [0] := by
  obtain ⟨q, hpush, h⟩ := stores_queuePush fresh 0 ⟨_, represents_queueNew fresh, rfl⟩
  rw [show (queueNew fresh).queuePush fresh 0 = .ok zero.q by rfl] at hpush
  cases hpush
  exact h

end ZeroExample

open ZeroExample in
theorem transparent_iff_zero : (Concats fresh zero.q other.q [0] [0] ↔ 0 ∉ [0]) ∧
    (Speeks fresh zero.q [0] ↔ [0].getLast? ≠ some 0) ∧
    (AsyncConcats zero other [0] [0] ↔ zero.length = 0 ∧ [0] = []) :=
  transparent_iff fresh zero other [0] [0] stores_zero stores_zero

open ZeroExample in
/-- A zero is dropped by `queue_concat` and by `queue_speek`, and `asyncqueue_concat` fails. -/
theorem not_transparent_zero : Stores zero.q [0] ∧ ¬ Concats fresh zero.q other.q [0] [0] ∧
    ¬ Speeks fresh zero.q [0] ∧ asyncqueueConcat zero other = .error .outOfBounds := by
  refine ⟨stores_zero, ?_, ?_, rfl⟩
  · rw [concats_iff fresh stores_zero (show Stores other.q [0] from stores_zero)]
    decide
  · rw [speeks_iff fresh stores_zero]
    decide

end DartSync
